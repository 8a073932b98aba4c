import Mathlib
import ScriptKit.Number.Binary

namespace ScriptKit.Number

open Float.Model (UnpackedFloat)

/-- A number without the sign of a zero, which comparisons do not look at. -/
def unsigned : UnpackedFloat → UnpackedFloat
  | .zero _ => .zero .positive
  | x => x

theorem isNaN_unsigned (x : UnpackedFloat) : (unsigned x).isNaN = x.isNaN := by
  cases x <;> rfl

theorem compare_sign_eq (s s' : UnpackedFloat.Sign) : compare s s' = .eq ↔ s = s' := by
  cases s <;> cases s' <;> simp [compare]

/-- Exponents and mantissas are compared one after the other, and agree if both do. -/
theorem compare_then_eq (e e' : Int) (m m' : Nat) :
    (compare e e').then (compare m m') = .eq ↔ m = m' ∧ e = e' := by
  rw [Ordering.then_eq_eq, Int.compare_eq_eq, Nat.compare_eq_eq, and_comm]

theorem compare_eq_iff (x y : UnpackedFloat) :
    x.compare y = some .eq ↔ x.isNaN = false ∧ unsigned x = unsigned y := by
  cases x with
  | notANumber => simp [UnpackedFloat.compare, UnpackedFloat.isNaN]
  | infinity s =>
    cases y with
    | infinity s' =>
      simpa [UnpackedFloat.compare, UnpackedFloat.isNaN, unsigned] using compare_sign_eq s s'
    | _ => cases s <;> simp [UnpackedFloat.compare, unsigned]
  | zero s =>
    cases y with
    | zero => simp [UnpackedFloat.compare, UnpackedFloat.isNaN, unsigned]
    | notANumber => simp [UnpackedFloat.compare, unsigned]
    | infinity s' | finite s' => cases s' <;> simp [UnpackedFloat.compare, unsigned]
  | finite s m e =>
    cases y with
    | notANumber => simp [UnpackedFloat.compare, unsigned]
    | zero => cases s <;> simp [UnpackedFloat.compare, unsigned]
    | infinity s' => cases s' <;> simp [UnpackedFloat.compare, unsigned]
    | finite s' m' e' =>
      -- of two finite numbers the exponents are compared first, which decides unless they agree
      have h := compare_then_eq e e' m m'
      cases s <;> cases s'
      case negative.positive | positive.negative => simp [UnpackedFloat.compare, unsigned]
      all_goals simpa [UnpackedFloat.compare, UnpackedFloat.isNaN, unsigned] using h

variable {x y z : Float}

/-- Two numbers are equal if neither is the number that stands for none and they differ in the
sign of a zero at most. -/
theorem beq_iff :
    (x == y) = true ↔
      x.isNaN = false ∧ unsigned x.toModel.unpack = unsigned y.toModel.unpack := by
  have h : (x == y) = (x.toModel.unpack.compare y.toModel.unpack == some .eq) := rfl
  rw [h, beq_iff_eq]
  exact compare_eq_iff _ _

theorem beq_symm (h : (x == y) = true) : (y == x) = true := by
  obtain ⟨hx, hxy⟩ := beq_iff.mp h
  have hy : y.isNaN = false := by
    have hnan := congrArg UnpackedFloat.isNaN hxy
    rw [isNaN_unsigned, isNaN_unsigned] at hnan
    exact hnan.symm.trans hx
  exact beq_iff.mpr ⟨hy, hxy.symm⟩

theorem beq_trans (hxy : (x == y) = true) (hyz : (y == z) = true) : (x == z) = true := by
  obtain ⟨hx, heq⟩ := beq_iff.mp hxy
  obtain ⟨-, heq'⟩ := beq_iff.mp hyz
  exact beq_iff.mpr ⟨hx, heq.trans heq'⟩

theorem beq_self_iff : (x == x) = true ↔ x.isNaN = false :=
  beq_iff.trans (and_iff_left rfl)

theorem lt_iff : x < y ↔ x.toModel.unpack.compare y.toModel.unpack = some .lt :=
  decide_eq_true_iff.trans beq_iff_eq

theorem le_iff :
    x ≤ y ↔ Option.any Ordering.isLE (x.toModel.unpack.compare y.toModel.unpack) = true :=
  decide_eq_true_iff

end ScriptKit.Number
