import Mathlib.Data.Finset.Prod
import Mathlib.Data.Finset.Range
import Mathlib.Data.List.Forall2
import Mathlib.Order.Bounds.Basic
import ScriptKit.Proofs.Number.Comparison
import ScriptKit.Value.Equality

namespace ScriptKit.Store

/-- Two values that cannot be told apart by looking at them once: scalars are equal by value,
functions, classes and objects are the same, and arrays are the same or have related elements. -/
inductive Alike (s : Store) (R : Value → Value → Prop) : Value → Value → Prop
  | absent : s.Alike R .absent .absent
  | null : s.Alike R .null .null
  | number {x y : Float} (h : (x == y) = true) : s.Alike R (.number x) (.number y)
  | string (t : String) : s.Alike R (.string t) (.string t)
  | boolean (b : Bool) : s.Alike R (.boolean b) (.boolean b)
  | array (id : ArrayId) : s.Alike R (.array id) (.array id)
  | elements {x y : ArrayId}
      (h : List.Forall₂ R (s.elements x).toList (s.elements y).toList) :
      s.Alike R (.array x) (.array y)
  | function (id : FunctionId) : s.Alike R (.function id) (.function id)
  | classValue (id : ClassId) : s.Alike R (.classValue id) (.classValue id)
  | object (id : ObjectId) : s.Alike R (.object id) (.object id)

/-- A relation that looking inside of arrays never leaves. -/
def IsBisimulation (s : Store) (R : Value → Value → Prop) : Prop :=
  ∀ l r, R l r → s.Alike R l r

/-- Equality of values that are not both arrays. -/
def equalScalars : Value → Value → Bool
  | .absent, .absent | .null, .null => true
  | .number x, .number y => x == y
  | .string x, .string y => x = y
  | .boolean x, .boolean y => x = y
  | .function x, .function y => x = y
  | .classValue x, .classValue y => x = y
  | .object x, .object y => x = y
  | _, _ => false

mutual

/-- The runs of a comparison that end, with the answer each gives. There is no bound on how deep
a comparison goes: it is the pairs of arrays on the way to the values that stop it. -/
inductive Compares (s : Store) : List (ArrayId × ArrayId) → Value → Value → Bool → Prop
  | scalars {pending : List (ArrayId × ArrayId)} {l r : Value}
      (h : l.kind ≠ .array ∨ r.kind ≠ .array) : s.Compares pending l r (equalScalars l r)
  | same (pending : List (ArrayId × ArrayId)) (id : ArrayId) :
      s.Compares pending (.array id) (.array id) true
  | size {pending : List (ArrayId × ArrayId)} {x y : ArrayId} (hne : x ≠ y)
      (h : (s.elements x).size ≠ (s.elements y).size) :
      s.Compares pending (.array x) (.array y) false
  | pending {pending : List (ArrayId × ArrayId)} {x y : ArrayId} (hne : x ≠ y)
      (hsize : (s.elements x).size = (s.elements y).size) (h : (x, y) ∈ pending) :
      s.Compares pending (.array x) (.array y) true
  | elements {pending : List (ArrayId × ArrayId)} {x y : ArrayId} {b : Bool} (hne : x ≠ y)
      (hsize : (s.elements x).size = (s.elements y).size) (hnew : (x, y) ∉ pending)
      (h : s.ComparesAll ((x, y) :: pending) (s.elements x).toList (s.elements y).toList b) :
      s.Compares pending (.array x) (.array y) b

/-- Elements are compared from the front, up to the first two that differ. -/
inductive ComparesAll (s : Store) :
    List (ArrayId × ArrayId) → List Value → List Value → Bool → Prop
  | nil (pending : List (ArrayId × ArrayId)) : s.ComparesAll pending [] [] true
  | differ {pending : List (ArrayId × ArrayId)} {l r : Value} {ls rs : List Value}
      (h : s.Compares pending l r false) : s.ComparesAll pending (l :: ls) (r :: rs) false
  | agree {pending : List (ArrayId × ArrayId)} {l r : Value} {ls rs : List Value} {b : Bool}
      (h : s.Compares pending l r true) (hrest : s.ComparesAll pending ls rs b) :
      s.ComparesAll pending (l :: ls) (r :: rs) b

end

variable {s : Store} {R S : Value → Value → Prop} {pending : List (ArrayId × ArrayId)}
  {l r : Value} {ls rs : List Value} {x y : ArrayId} {b : Bool} {fuel n : Nat}

theorem exists_arrays (h : ¬(l.kind ≠ .array ∨ r.kind ≠ .array)) :
    ∃ x y, l = .array x ∧ r = .array y := by
  obtain ⟨hl, hr⟩ := not_or.mp h
  cases l with
  | array x =>
    cases r with
    | array y => exact ⟨x, y, rfl, rfl⟩
    | _ => exact absurd nofun hr
  | _ => exact absurd nofun hl

namespace Alike

theorem mono (hRS : ∀ l r, R l r → S l r) (h : s.Alike R l r) : s.Alike S l r := by
  cases h with
  | elements h => exact .elements (h.imp hRS)
  | number h => exact .number h
  | absent | null | string | boolean | array | function | classValue | object => constructor

theorem flip (h : s.Alike R l r) : s.Alike (fun l r => R r l) r l := by
  cases h with
  | elements h => exact .elements h.flip
  | number h => exact .number (Number.beq_symm h)
  | absent | null | string | boolean | array | function | classValue | object => constructor

/-- Of values that are not both arrays, the elements are not looked at. -/
theorem iff_equalScalars (hkind : l.kind ≠ .array ∨ r.kind ≠ .array) :
    s.Alike R l r ↔ equalScalars l r = true := by
  constructor
  · intro h
    cases h with
    | array | elements => simp [Value.kind] at hkind
    | number h => exact h
    | absent | null | string | boolean | function | classValue | object => simp [equalScalars]
  · intro h
    fun_cases equalScalars l r
    case case1 => exact .absent
    case case2 => exact .null
    case case3 => exact .number h
    case case9 => simp_all [equalScalars]
    all_goals
      obtain rfl := of_decide_eq_true h
      constructor

theorem array_iff :
    s.Alike R (.array x) (.array y) ↔
      x = y ∨ List.Forall₂ R (s.elements x).toList (s.elements y).toList := by
  constructor
  · intro h
    cases h with
    | array => exact Or.inl rfl
    | elements h => exact Or.inr h
  · rintro (rfl | h)
    · exact .array x
    · exact .elements h

end Alike

/-! ### The comparison ends -/

theorem equalWithin_scalars (hkind : l.kind ≠ .array ∨ r.kind ≠ .array) :
    s.equalWithin (fuel + 1) pending l r = equalScalars l r := by
  cases l <;> cases r
  case array.array => exact (hkind.elim (· rfl) (· rfl)).elim
  all_goals rfl

theorem equalWithin_arrays :
    s.equalWithin (fuel + 1) pending (.array x) (.array y) =
      (decide (x = y) ||
        (decide ((s.elements x).size = (s.elements y).size) &&
          (pending.contains (x, y) ||
            allPairs (s.equalWithin fuel ((x, y) :: pending))
              (s.elements x).toList (s.elements y).toList))) :=
  rfl

theorem ComparesAll.of_pairs {related : Value → Value → Bool} (hlength : ls.length = rs.length)
    (h : ∀ l ∈ ls, ∀ r ∈ rs, s.Compares pending l r (related l r)) :
    s.ComparesAll pending ls rs (allPairs related ls rs) := by
  induction ls generalizing rs with
  | nil =>
    obtain rfl := List.length_eq_zero_iff.mp hlength.symm
    exact .nil pending
  | cons l ls ih =>
    obtain ⟨r, rs, rfl⟩ := List.exists_cons_of_length_eq_add_one hlength.symm
    have hhead := h l List.mem_cons_self r List.mem_cons_self
    have hrest := ih (Nat.succ.inj hlength) fun l' hl r' hr =>
      h l' (List.mem_cons_of_mem l hl) r' (List.mem_cons_of_mem r hr)
    rw [allPairs]
    cases hlr : related l r with
    | false => exact .differ (hlr ▸ hhead)
    | true => exact .agree (hlr ▸ hhead) hrest

/-- Only so many pairs of arrays can be under comparison at a time. -/
theorem length_pending_le (hnodup : pending.Nodup) (hrange : ∀ p ∈ pending, p.1 < n ∧ p.2 < n) :
    pending.length ≤ n * n := by
  have hsub : pending.toFinset ⊆ Finset.range n ×ˢ Finset.range n := by
    intro p hp
    have := hrange p (List.mem_toFinset.mp hp)
    simpa using this
  calc
    pending.length = pending.toFinset.card := (List.toFinset_card_of_nodup hnodup).symm
    _ ≤ (Finset.range n ×ˢ Finset.range n).card := Finset.card_le_card hsub
    _ = n * n := by rw [Finset.card_product, Finset.card_range]

theorem lt_of_mem_elements {v : Value} (h : v ∈ (s.elements x).toList) : x < s.arrays.size := by
  by_contra hx
  rw [elements, Array.getD_eq_getD_getElem?, Array.getElem?_eq_none (Nat.le_of_not_lt hx)] at h
  cases h

/-- A comparison with enough fuel for the pairs that are not under comparison yet never runs out
of it. -/
theorem compares_equalWithin (hnodup : pending.Nodup)
    (hrange : ∀ p ∈ pending, p.1 < s.arrays.size ∧ p.2 < s.arrays.size)
    (hfuel : s.arrays.size * s.arrays.size < pending.length + fuel) :
    s.Compares pending l r (s.equalWithin fuel pending l r) := by
  induction fuel generalizing pending l r with
  | zero =>
    have := length_pending_le hnodup hrange
    omega
  | succ fuel ih =>
    by_cases hkind : l.kind ≠ .array ∨ r.kind ≠ .array
    · rw [equalWithin_scalars hkind]
      exact .scalars hkind
    obtain ⟨x, y, rfl, rfl⟩ := exists_arrays hkind
    rw [equalWithin_arrays]
    by_cases hxy : x = y
    · subst hxy
      simpa using Compares.same pending x
    by_cases hsize : (s.elements x).size = (s.elements y).size
    · by_cases hmem : (x, y) ∈ pending
      · simpa [hxy, hsize, hmem] using Compares.pending hxy hsize hmem
      · -- the pair is new, and one of the pairs that there is room for if there are elements at all
        have hall : s.ComparesAll ((x, y) :: pending) (s.elements x).toList (s.elements y).toList
            (allPairs (s.equalWithin fuel ((x, y) :: pending)) (s.elements x).toList
              (s.elements y).toList) := by
          refine ComparesAll.of_pairs (by simpa using hsize) fun l hl r hr => ?_
          refine ih (List.nodup_cons.mpr ⟨hmem, hnodup⟩) ?_ (by rw [List.length_cons]; omega)
          exact List.forall_mem_cons.mpr ⟨⟨lt_of_mem_elements hl, lt_of_mem_elements hr⟩, hrange⟩
        simpa [hxy, hsize, hmem] using Compares.elements hxy hsize hmem hall
    · simpa [hxy, hsize] using Compares.size hxy hsize

theorem compares_equal (s : Store) (l r : Value) : s.Compares [] l r (s.equal l r) :=
  compares_equalWithin List.nodup_nil (fun _ hp => absurd hp List.not_mem_nil) (by simp)

/-! ### What it answers -/

mutual

/-- Values that a bisimulation relates are never told apart, whatever is under comparison. -/
theorem Compares.eq_true (hR : s.IsBisimulation R) :
    ∀ {pending l r b}, s.Compares pending l r b → R l r → b = true
  | _, _, _, _, .scalars hkind, hlr => (Alike.iff_equalScalars hkind).mp (hR _ _ hlr)
  | _, _, _, _, .same _ _, _ => rfl
  | _, _, _, _, .pending _ _ _, _ => rfl
  | _, _, _, _, .size hne hsize, hlr => by
    rcases Alike.array_iff.mp (hR _ _ hlr) with rfl | h
    · exact absurd rfl hne
    · exact absurd (by simpa using h.length_eq) hsize
  | _, _, _, _, .elements hne _ _ hall, hlr => by
    rcases Alike.array_iff.mp (hR _ _ hlr) with rfl | h
    · exact absurd rfl hne
    · exact hall.eq_true hR h

theorem ComparesAll.eq_true (hR : s.IsBisimulation R) :
    ∀ {pending ls rs b}, s.ComparesAll pending ls rs b → List.Forall₂ R ls rs → b = true
  | _, _, _, _, .nil _, _ => rfl
  | _, _, _, _, .differ h, .cons hlr _ => h.eq_true hR hlr
  | _, _, _, _, .agree _ hrest, .cons _ hrs => hrest.eq_true hR hrs

end

theorem ComparesAll.forall₂ (h : s.ComparesAll pending ls rs true) :
    List.Forall₂ (fun l r => s.Compares pending l r true) ls rs := by
  induction ls generalizing rs with
  | nil =>
    cases h
    exact .nil
  | cons l ls ih =>
    cases h with
    | agree h hrest => exact .cons h (ih hrest)

/-- Values that look alike up to a depth. -/
def AlikeTo (s : Store) : Nat → Value → Value → Prop
  | 0, _, _ => True
  | n + 1, l, r => s.Alike (s.AlikeTo n) l r

theorem AlikeTo.of_succ (h : s.AlikeTo (n + 1) l r) : s.AlikeTo n l r := by
  induction n generalizing l r with
  | zero => trivial
  | succ n ih => exact Alike.mono (fun _ _ => ih) h

/-- A pair that is under comparison counts as equal. That is right up to any depth to which the
pairs under comparison are, so that no depth shows a difference. -/
theorem Compares.alikeTo (h : s.Compares pending l r true)
    (hpending : ∀ p ∈ pending, s.AlikeTo n (.array p.1) (.array p.2)) : s.AlikeTo n l r := by
  induction n generalizing pending l r with
  | zero => trivial
  | succ n ih =>
    have hbelow : ∀ p ∈ pending, s.AlikeTo n (.array p.1) (.array p.2) := fun p hp =>
      (hpending p hp).of_succ
    have hself : s.AlikeTo n l r := ih h hbelow
    generalize hb : true = b at h
    cases h with
    | scalars hkind => exact (Alike.iff_equalScalars hkind).mpr hb.symm
    | same => exact .array _
    | size => cases hb
    | pending _ _ hmem => exact hpending _ hmem
    | elements hne _ _ hall =>
      subst hb
      refine .elements (hall.forall₂.imp fun _ _ h => ih h ?_)
      exact List.forall_mem_cons.mpr ⟨hself, hbelow⟩

/-- Arrays have finitely many elements, so that what no depth tells apart is a bisimulation. -/
theorem isBisimulation_alikeTo (s : Store) :
    s.IsBisimulation fun l r => ∀ n, s.AlikeTo n l r := by
  intro l r h
  by_cases hkind : l.kind ≠ .array ∨ r.kind ≠ .array
  · have h₁ : s.Alike (s.AlikeTo 0) l r := h 1
    exact (Alike.iff_equalScalars hkind).mpr ((Alike.iff_equalScalars hkind).mp h₁)
  obtain ⟨x, y, rfl, rfl⟩ := exists_arrays hkind
  by_cases hxy : x = y
  · exact hxy ▸ .array x
  have hall : ∀ n, List.Forall₂ (s.AlikeTo n) (s.elements x).toList (s.elements y).toList :=
    fun n => (Alike.array_iff.mp (h (n + 1))).resolve_left hxy
  refine .elements (List.forall₂_iff_get.mpr ⟨(hall 0).length_eq, fun i hi hi' n => ?_⟩)
  exact (List.forall₂_iff_get.mp (hall n)).2 i hi hi'

theorem Compares.eq_true_iff (h : s.Compares [] l r b) :
    b = true ↔ ∀ n, s.AlikeTo n l r := by
  constructor
  · rintro rfl n
    exact h.alikeTo fun _ hp => absurd hp List.not_mem_nil
  · exact h.eq_true s.isBisimulation_alikeTo

theorem equal_eq_true_iff : s.equal l r = true ↔ ∀ n, s.AlikeTo n l r :=
  (s.compares_equal l r).eq_true_iff

theorem equal_of_isBisimulation (hR : s.IsBisimulation R) (h : R l r) : s.equal l r = true :=
  (s.compares_equal l r).eq_true hR h

/-- A knot of one array and a knot of two, which have the same elements at every depth. -/
example :
    equal ⟨#[#[.array 0], #[.array 2], #[.array 1]], #[], #[], #[], #[]⟩ (.array 0) (.array 1) =
      true := by
  decide

theorem isBisimulation_equal (s : Store) : s.IsBisimulation fun l r => s.equal l r = true := by
  intro l r h
  have halike := s.isBisimulation_alikeTo l r (equal_eq_true_iff.mp h)
  exact halike.mono fun _ _ => equal_eq_true_iff.mpr

/-! ### Symmetry, transitivity, reflexivity -/

theorem equal_symm (h : s.equal l r = true) : s.equal r l = true := by
  have hflip : s.IsBisimulation fun l r => s.equal r l = true := fun l r h =>
    (s.isBisimulation_equal r l h).flip
  exact equal_of_isBisimulation hflip h

/-- One step of a chain of two. If the first goes from an array to itself, then it says nothing
about the elements, and the second alone relates them. -/
theorem Alike.trans {m : Value} (hlm : s.Alike R l m) (hmr : s.Alike R m r) :
    s.Alike (fun l r => R l r ∨ ∃ m, R l m ∧ R m r) l r := by
  cases hlm with
  | array => exact hmr.mono fun _ _ => Or.inl
  | elements h =>
    cases hmr with
    | array => exact .elements (h.imp fun _ _ => Or.inl)
    | elements h' =>
      refine .elements (List.forall₂_iff_get.mpr ⟨h.length_eq.trans h'.length_eq, ?_⟩)
      intro i hi hi'
      have him := h.length_eq ▸ hi
      exact Or.inr ⟨_, (List.forall₂_iff_get.mp h).2 i hi him,
        (List.forall₂_iff_get.mp h').2 i him hi'⟩
  | number h =>
    cases hmr with
    | number h' => exact .number (Number.beq_trans h h')
  | absent | null | string | boolean | function | classValue | object =>
    exact hmr.mono fun _ _ => Or.inl

theorem equal_trans {m : Value} (hlm : s.equal l m = true) (hmr : s.equal m r = true) :
    s.equal l r = true := by
  have hchain : s.IsBisimulation fun l r =>
      s.equal l r = true ∨ ∃ m, s.equal l m = true ∧ s.equal m r = true := by
    rintro l r (h | ⟨m, hlm, hmr⟩)
    · exact (s.isBisimulation_equal l r h).mono fun _ _ => Or.inl
    · exact (s.isBisimulation_equal l m hlm).trans (s.isBisimulation_equal m r hmr)
  exact equal_of_isBisimulation hchain (Or.inr ⟨m, hlm, hmr⟩)

theorem equal_self_iff {v : Value} :
    s.equal v v = true ↔ ∀ x, v = .number x → x.isNaN = false := by
  constructor
  · rintro h x rfl
    cases s.isBisimulation_equal _ _ h with
    | number h => exact Number.beq_self_iff.mp h
  · intro h
    have hself : s.IsBisimulation fun l r => l = r ∧ ∀ x, l = .number x → x.isNaN = false := by
      rintro l r ⟨rfl, hnan⟩
      cases l with
      | number x => exact .number (Number.beq_self_iff.mpr (hnan x rfl))
      | absent | null | string | boolean | array | function | classValue | object => constructor
    exact equal_of_isBisimulation hself ⟨rfl, h⟩

/-- A comparison ends on every store, and it relates exactly the values that some bisimulation
does. So it is symmetric and transitive, and nothing but the number that stands for none differs
from itself. -/
theorem equal_isGreatest (s : Store) :
    (∀ l r b, s.Compares [] l r b ↔ s.equal l r = b) ∧
      IsGreatest {R : Value → Value → Prop | s.IsBisimulation R} (fun l r => s.equal l r = true) ∧
      (∀ l r, s.equal l r = s.equal r l) ∧
      (∀ l m r, s.equal l m = true → s.equal m r = true → s.equal l r = true) ∧
      ∀ v, s.equal v v = true ↔ ∀ x, v = .number x → x.isNaN = false := by
  refine ⟨fun l r b => ⟨fun h => ?_, ?_⟩, ⟨s.isBisimulation_equal, ?_⟩, fun l r => ?_, ?_, ?_⟩
  · rw [Bool.eq_iff_iff, equal_eq_true_iff, h.eq_true_iff]
  · rintro rfl
    exact s.compares_equal l r
  · exact fun R hR l r h => equal_of_isBisimulation hR h
  · exact Bool.eq_iff_iff.mpr ⟨equal_symm, equal_symm⟩
  · exact fun l m r => equal_trans
  · exact fun v => equal_self_iff

end ScriptKit.Store
