import Mathlib
import ScriptKit.Proofs.Number.Comparison

namespace ScriptKit.Number

open Float.Model (Format UnpackedFloat totalExponent)
open Float.Model.UnpackedFloat (ExtendedMantissa Sign packComponents roundWithAccuracy
  shiftToTargetExponent unpackExponent unpackMantissa unpackSign unpackMantissa_packComponents
  unpackExponent_packComponents)

variable {m n k : Nat} {e : Int}

/-! ### Shifting and rounding a mantissa -/

/-- What is shifted out of a mantissa leaves a trace in its two last bits. -/
theorem shifted_eq (m k : Nat) :
    ∃ round sticky : Bool,
      (⟨m, false, false⟩ : ExtendedMantissa) >>> k = ⟨m / 2 ^ k, round, sticky⟩ ∧
        ((round || sticky) = true → m % 2 ^ k ≠ 0) := by
  induction k with
  | zero => exact ⟨false, false, by rw [Nat.pow_zero, Nat.div_one]; rfl, fun h => nomatch h⟩
  | succ k ih =>
    obtain ⟨round, sticky, heq, hbits⟩ := ih
    have hstep : (⟨m, false, false⟩ : ExtendedMantissa) >>> (k + 1) =
        ((⟨m, false, false⟩ : ExtendedMantissa) >>> k).shiftRightOne := rfl
    have hmod : m % 2 ^ (k + 1) = m % 2 ^ k + 2 ^ k * (m / 2 ^ k % 2) := Nat.mod_pow_succ
    refine ⟨m / 2 ^ k % 2 != 0, round || sticky, ?_, fun h => ?_⟩
    · rw [hstep, heq, ExtendedMantissa.shiftRightOne, Nat.div_div_eq_div_mul, ← Nat.pow_succ]
    · rcases (Bool.or_eq_true _ _).mp h with h | h
      · have : m / 2 ^ k % 2 = 1 := by
          have := bne_iff_ne.mp h
          omega
        have := Nat.two_pow_pos k
        rw [hmod, ‹m / 2 ^ k % 2 = 1›]
        omega
      · have := hbits h
        omega

/-- A mantissa that is shifted and then rounded to the nearest. -/
def rounded (m k : Nat) : Nat :=
  ((⟨m, false, false⟩ : ExtendedMantissa) >>> k).roundedMantissa

theorem rounded_zero (m : Nat) : rounded m 0 = m := rfl

theorem le_rounded (m k : Nat) : m / 2 ^ k ≤ rounded m k := by
  obtain ⟨round, sticky, heq, -⟩ := shifted_eq m k
  rw [rounded, heq]
  cases round <;> cases sticky <;>
    simp [ExtendedMantissa.roundedMantissa, ExtendedMantissa.accuracy,
      Float.Model.UnpackedFloat.Accuracy.roundToNearestEven]

/-- Rounding does not pass a number that needs none. -/
theorem rounded_le {c : Nat} (h : m ≤ c * 2 ^ k) : rounded m k ≤ c := by
  obtain ⟨round, sticky, heq, hbits⟩ := shifted_eq m k
  have hdiv : m / 2 ^ k ≤ c := Nat.div_le_of_le_mul (by rwa [Nat.mul_comm])
  -- a trace of what was shifted out means that the quotient is smaller
  have hless : (round || sticky) = true → m / 2 ^ k + 1 ≤ c := fun hb => by
    have hmod := hbits hb
    by_contra hc
    have hq : m / 2 ^ k = c := by omega
    have := Nat.div_add_mod m (2 ^ k)
    rw [hq, Nat.mul_comm] at this
    omega
  rw [rounded, heq]
  cases round <;> cases sticky <;>
    simp [ExtendedMantissa.roundedMantissa, ExtendedMantissa.accuracy,
      Float.Model.UnpackedFloat.Accuracy.roundToNearestEven] at hless ⊢ <;>
    omega

/-! ### Numbers as they are stored -/

/-- The mantissa and the exponent of a finite number that is stored: the mantissa has all its bits
unless the exponent is the least one. -/
structure Stored (m : Nat) (e : Int) : Prop where
  mantissa : m < 2 ^ 53
  exponent : -1074 ≤ e
  full : e = -1074 ∨ 2 ^ 52 ≤ m

theorem toNat_one_append (v : BitVec 52) : (1#1 ++ v).toNat = 2 ^ 52 + v.toNat := by
  rw [BitVec.toNat_append, ← Nat.shiftLeft_add_eq_or_of_lt v.isLt]
  rfl

theorem unpackSign_packComponents {spec : Format} {s : Sign} {e m} :
    unpackSign (packComponents spec s e m) = s.toBitVec := by
  ext i hi
  obtain rfl : i = 0 := by omega
  simp [unpackSign, packComponents, BitVec.getLsbD_append, BitVec.getLsbD_eq_getElem,
    BitVec.getElem_append]

theorem ofBitVec_toBitVec (s : Sign) : Sign.ofBitVec s.toBitVec = s := by
  cases s <;> rfl

theorem stored_unpack {b : BitVec 64} {s : Sign} {hm : 0 < m}
    (h : UnpackedFloat.unpack .binary64 b = .finite s m e hm) : Stored m e ∧ e ≤ 971 := by
  have hbias : ((Format.binary64.exponentBias : Nat) : Int) = 1023 := rfl
  have hlt : (@unpackMantissa .binary64 b).toNat < 2 ^ 52 := BitVec.isLt _
  have hexp : (@unpackExponent .binary64 b).toNat < 2 ^ 11 := BitVec.isLt _
  rw [UnpackedFloat.unpack] at h
  split at h
  · split at h <;> cases h
  -- the largest exponent is that of the infinities
  rename_i hmax
  split at h
  -- a zero exponent is that of a zero and of the subnormals, whose mantissa is stored as it is
  · rename_i hzero
    split at h
    · cases h
    · have hzero' := congrArg BitVec.toNat hzero
      injection h with _ hm he
      subst hm he
      rw [hzero', hbias]
      exact ⟨⟨by omega, by decide, Or.inl rfl⟩, by decide⟩
  -- any other one is that of a normal number, whose mantissa has a leading one
  · rename_i hzero
    injection h with _ hm he
    have hmax' : (@unpackExponent .binary64 b).toNat ≠ 2047 := fun hc =>
      hmax (BitVec.eq_of_toNat_eq hc)
    have hzero' : (@unpackExponent .binary64 b).toNat ≠ 0 := fun hc =>
      hzero (BitVec.eq_of_toNat_eq hc)
    have hone := toNat_one_append (@unpackMantissa .binary64 b)
    rw [hbias] at he
    subst hm he
    refine ⟨⟨?_, ?_, Or.inr ?_⟩, ?_⟩ <;> simp only [Nat.cast_ofNat] <;> omega

theorem biased_exponent (e : Int) : e + Format.binary64.exponentBias + (52 : Nat) = e + 1075 := by
  rw [show Format.binary64.exponentBias = 1023 from rfl]
  norm_num
  ring

/-- A number that is stored is read as it was. -/
theorem unpack_pack {s : Sign} (hm : 0 < m) (h : Stored m e) (he : e ≤ 971) :
    (Float.Model.pack (.finite s m e hm)).unpack = .finite s m e hm := by
  have hleast := h.exponent
  change UnpackedFloat.unpack .binary64 (UnpackedFloat.pack .binary64 _) = _
  simp only [UnpackedFloat.pack, biased_exponent]
  rw [if_neg (by norm_num; omega)]
  -- a full mantissa has its leading one dropped, and its exponent is that of a normal number
  by_cases hfull : 2 ^ 52 ≤ m
  · have hlog : m.log2 = 52 := (Nat.log2_eq_iff (by omega)).mpr ⟨hfull, h.mantissa⟩
    have hexp : (BitVec.ofNat 11 (e + 1075).toNat).toNat = (e + 1075).toNat := by
      rw [BitVec.toNat_ofNat]
      omega
    have hmantissa : (1#1 ++ BitVec.ofNat 52 m).toNat = m := by
      have := h.mantissa
      rw [toNat_one_append, BitVec.toNat_ofNat]
      omega
    have hne : ∀ c : BitVec 11, c.toNat = 0 ∨ c.toNat = 2047 →
        BitVec.ofNat 11 (e + 1075).toNat ≠ c := by
      rintro c hc rfl
      omega
    have hmax := hne (-1#11) (Or.inr rfl)
    have hzero := hne 0#11 (Or.inl rfl)
    rw [hlog, if_pos (show 52 + 1 = Format.binary64.mantissaBits from rfl)]
    simp only [UnpackedFloat.unpack, unpackMantissa_packComponents, unpackExponent_packComponents,
      unpackSign_packComponents, ofBitVec_toBitVec, if_neg hmax, if_neg hzero, hmantissa, hexp]
    rw [show Format.binary64.exponentBias = 1023 from rfl]
    congr 1
    omega
  -- a mantissa that is not full belongs to the least exponent, which is stored as zero
  · have hlog : m.log2 + 1 ≠ Format.binary64.mantissaBits := by
      have := (Nat.log2_lt (by omega)).mpr (Nat.lt_of_not_le hfull)
      rw [show Format.binary64.mantissaBits = 53 from rfl]
      omega
    have hmantissa : (BitVec.ofNat 52 m).toNat = m := by
      rw [BitVec.toNat_ofNat]
      omega
    have hzero : BitVec.ofNat 52 m ≠ 0#52 := fun hc =>
      hm.ne' (hmantissa.symm.trans (congrArg BitVec.toNat hc))
    rw [if_neg hlog]
    simp only [UnpackedFloat.unpack, unpackMantissa_packComponents, unpackExponent_packComponents,
      unpackSign_packComponents, ofBitVec_toBitVec]
    rw [if_neg (by decide), if_pos trivial, dif_neg hzero]
    obtain rfl := h.full.resolve_right hfull
    simp only [hmantissa]
    rfl

/-- A number whose exponent is too large becomes infinite. -/
theorem isNaN_unpack_pack {s : Sign} (hm : 0 < m) (h : Stored m e) :
    (Float.Model.pack (.finite s m e hm)).unpack.isNaN = false := by
  by_cases he : e ≤ 971
  · rw [unpack_pack hm h he]
    rfl
  · change (UnpackedFloat.unpack .binary64 (UnpackedFloat.pack .binary64 _)).isNaN = false
    simp only [UnpackedFloat.pack, biased_exponent]
    rw [if_pos (by norm_num; omega)]
    cases s <;> rfl

/-! ### Rounding to a number that can be stored -/

/-- A mantissa that has all its bits is shifted to the right by what it has beyond them. -/
theorem shiftToTargetExponent_eq (hm : 2 ^ 52 ≤ m) (he : -1074 ≤ e) :
    shiftToTargetExponent .binary64 m e .exact =
      ((⟨m, false, false⟩ : ExtendedMantissa) >>> (m.log2 - 52), e + (m.log2 - 52 : Nat)) := by
  have hlog : 52 ≤ m.log2 := (Nat.le_log2 (by omega)).mpr hm
  have hshift : (Format.binary64.targetExponent (totalExponent m e) - e).toNat = m.log2 - 52 := by
    simp only [Format.targetExponent, totalExponent, Format.mantissaBits, Format.minExponent]
    norm_num
    omega
  rw [shiftToTargetExponent, UnpackedFloat.shiftToExponent, hshift]
  rfl

theorem le_rounded_log2 (hm : 2 ^ 52 ≤ m) : 2 ^ 52 ≤ rounded m (m.log2 - 52) := by
  have hlog : 52 ≤ m.log2 := (Nat.le_log2 (by omega)).mpr hm
  refine le_trans ?_ (le_rounded _ _)
  rw [Nat.le_div_iff_mul_le (Nat.two_pow_pos _), ← Nat.pow_add, Nat.add_sub_cancel' hlog]
  exact Nat.log2_self_le (by omega)

/-- Being rounded up, a mantissa may take one more bit than it can have. -/
theorem rounded_log2_le (hm : 2 ^ 52 ≤ m) : rounded m (m.log2 - 52) ≤ 2 ^ 53 := by
  have hlog : 52 ≤ m.log2 := (Nat.le_log2 (by omega)).mpr hm
  refine rounded_le ?_
  calc
    m ≤ 2 ^ (m.log2 + 1) := Nat.lt_log2_self.le
    _ = 2 ^ 53 * 2 ^ (m.log2 - 52) := by
      rw [← Nat.pow_add]
      congr 1
      omega

/-- The number that a long mantissa is rounded to, with the carry that rounding up may leave. -/
theorem roundWithAccuracy_eq (hm : 2 ^ 52 ≤ m) (he : -1074 ≤ e) :
    ∃ m' c : Nat, ∃ hm' : 0 < m',
      roundWithAccuracy .binary64 .positive m e .exact =
          .finite .positive m' (e + (m.log2 - 52 : Nat) + c) hm' ∧
        m' * 2 ^ c = rounded m (m.log2 - 52) ∧ 2 ^ 52 ≤ m' ∧ m' < 2 ^ 53 := by
  have hlow := le_rounded_log2 hm
  -- the number is shifted once more when rounding has made it one digit longer
  have hsecond : ∀ {m' c : Nat} (hm' : 0 < m'), (rounded m (m.log2 - 52)).log2 = 52 + c →
      rounded m (m.log2 - 52) / 2 ^ c = m' →
      roundWithAccuracy .binary64 .positive m e .exact =
        .finite .positive m' (e + (m.log2 - 52 : Nat) + c) hm' := by
    intro m' c hm' hlog hdiv
    obtain ⟨round, sticky, heq, -⟩ := shifted_eq (rounded m (m.log2 - 52)) c
    have hshift : shiftToTargetExponent .binary64 (rounded m (m.log2 - 52))
        (e + (m.log2 - 52 : Nat)) .exact =
          (⟨m', round, sticky⟩, e + (m.log2 - 52 : Nat) + c) := by
      rw [shiftToTargetExponent_eq hlow (by omega), hlog, Nat.add_sub_cancel_left, heq, hdiv]
    rw [roundWithAccuracy, shiftToTargetExponent_eq hm he]
    simp only [← rounded.eq_1, hshift]
    exact dif_neg hm'.ne'
  -- the digits are as many as before, unless the carry goes through all of them
  rcases Nat.lt_or_eq_of_le (rounded_log2_le hm) with hless | hcarry
  · have hlog := (Nat.log2_eq_iff (by omega)).mpr ⟨hlow, hless⟩
    exact ⟨_, 0, by omega, hsecond _ hlog (Nat.div_one _), Nat.mul_one _, hlow, hless⟩
  · refine ⟨2 ^ 52, 1, by decide, hsecond _ ?_ ?_, ?_, by decide, by decide⟩
    · rw [hcarry, Nat.log2_two_pow]
    · rw [hcarry]
      rfl
    · rw [hcarry]
      rfl

/-- Of two mantissas, the first with all its bits, the exponents decide which number is larger. -/
theorem lt_or_eq_and_le_of_mul_le {m' c d : Nat} (hm' : 2 ^ 52 ≤ m') (hm : m < 2 ^ 53)
    (h : m' * 2 ^ c ≤ m * 2 ^ d) : c < d ∨ c = d ∧ m' ≤ m := by
  have hlt : 2 ^ (52 + c) < 2 ^ (53 + d) := by
    calc
      2 ^ (52 + c) = 2 ^ 52 * 2 ^ c := Nat.pow_add 2 52 c
      _ ≤ m' * 2 ^ c := Nat.mul_le_mul_right _ hm'
      _ ≤ m * 2 ^ d := h
      _ < 2 ^ 53 * 2 ^ d := Nat.mul_lt_mul_of_pos_right hm (Nat.two_pow_pos d)
      _ = 2 ^ (53 + d) := (Nat.pow_add 2 53 d).symm
  have hcd : c ≤ d := by
    have := (Nat.pow_lt_pow_iff_right (by decide)).mp hlt
    omega
  rcases Nat.lt_or_eq_of_le hcd with hcd | rfl
  · exact Or.inl hcd
  · exact Or.inr ⟨rfl, Nat.le_of_mul_le_mul_right h (Nat.two_pow_pos c)⟩

/-- Rounding is monotone: what is not above a number that is stored is rounded to one that is not
above it either. The exponents decide, and then the mantissas. -/
theorem roundWithAccuracy_le {M a : Nat} (hM : 2 ^ 52 ≤ M) (h : Stored m e)
    (hle : M * 2 ^ a ≤ m * 2 ^ (e + 1074).toNat) :
    ∃ m' e', ∃ hm' : 0 < m',
      roundWithAccuracy .binary64 .positive M ((a : Int) - 1074) .exact =
          .finite .positive m' e' hm' ∧
        Stored m' e' ∧ (e' < e ∨ e' = e ∧ m' ≤ m) := by
  obtain ⟨m', c, hm', heq, hcarry, hlow, hhigh⟩ := roundWithAccuracy_eq hM (e := (a : Int) - 1074)
    (by omega)
  refine ⟨m', _, hm', heq, ⟨hhigh, by omega, Or.inr hlow⟩, ?_⟩
  obtain ⟨b, rfl⟩ : ∃ b : Nat, e = (b : Int) - 1074 :=
    ⟨(e + 1074).toNat, by have := h.exponent; omega⟩
  rw [show ((b : Int) - 1074 + 1074).toNat = b by omega] at hle
  have hbits : 2 ^ 52 * 2 ^ (M.log2 - 52) ≤ M := by
    have hlog : 52 ≤ M.log2 := (Nat.le_log2 (by omega)).mpr hM
    rw [← Nat.pow_add, Nat.add_sub_cancel' hlog]
    exact Nat.log2_self_le (by omega)
  generalize M.log2 - 52 = k at hcarry hbits ⊢
  -- the shift does not pass the exponent, so that the bound is one on the shifted mantissa
  have hshift : a + k ≤ b := by
    have : 2 ^ 52 * 2 ^ (a + k) ≤ m * 2 ^ b := by
      calc
        2 ^ 52 * 2 ^ (a + k) = 2 ^ 52 * 2 ^ k * 2 ^ a := by ring
        _ ≤ M * 2 ^ a := Nat.mul_le_mul_right _ hbits
        _ ≤ m * 2 ^ b := hle
    rcases lt_or_eq_and_le_of_mul_le le_rfl h.mantissa this with h | ⟨h, -⟩ <;> omega
  obtain ⟨d, rfl⟩ := Nat.exists_eq_add_of_le hshift
  have hbound : M ≤ m * 2 ^ d * 2 ^ k := by
    refine Nat.le_of_mul_le_mul_right ?_ (Nat.two_pow_pos a)
    calc
      M * 2 ^ a ≤ m * 2 ^ (a + k + d) := hle
      _ = m * 2 ^ d * 2 ^ k * 2 ^ a := by ring
  have hrounded : m' * 2 ^ c ≤ m * 2 ^ d := hcarry.trans_le (rounded_le hbound)
  rcases lt_or_eq_and_le_of_mul_le hlow h.mantissa hrounded with hcd | ⟨rfl, hmm⟩
  · exact Or.inl (by omega)
  · exact Or.inr ⟨by omega, hmm⟩

/-! ### Numbers made of natural numbers -/

/-- A bound on a natural number, with both sides seen at one exponent below all others. -/
theorem scaled_le {w : Nat} (hk : k ≤ w) (he : -(w : Int) ≤ e)
    (h : n * 2 ^ (-e).toNat ≤ m * 2 ^ e.toNat) :
    n * 2 ^ k * 2 ^ (w - k) ≤ m * 2 ^ (e + w).toNat := by
  calc
    n * 2 ^ k * 2 ^ (w - k) = n * 2 ^ (-e).toNat * 2 ^ (w - (-e).toNat) := by
      rw [Nat.mul_assoc, Nat.mul_assoc, ← Nat.pow_add, ← Nat.pow_add]
      congr 2
      omega
    _ ≤ m * 2 ^ e.toNat * 2 ^ (w - (-e).toNat) := Nat.mul_le_mul_right _ h
    _ = m * 2 ^ (e + w).toNat := by
      rw [Nat.mul_assoc, ← Nat.pow_add]
      congr 2
      omega

/-- A natural number of few bits is stored as it is, with a mantissa that has all its bits. -/
theorem ofNat_unpacked (hn : 0 < n) (hsmall : n < 2 ^ 53) :
    ∃ k : Nat, ∃ hm : 0 < n * 2 ^ k, k ≤ 52 ∧ 2 ^ 52 ≤ n * 2 ^ k ∧ n * 2 ^ k < 2 ^ 53 ∧
      UnpackedFloat.ofNat .binary64 n = .finite .positive (n * 2 ^ k) (-(k : Int)) hm := by
  have hlog : n.log2 < 53 := (Nat.log2_lt hn.ne').mpr hsmall
  obtain ⟨k, hk⟩ : ∃ k, n.log2 + k = 52 := ⟨52 - n.log2, by omega⟩
  have hlow : 2 ^ 52 ≤ n * 2 ^ k := by
    rw [← hk, Nat.pow_add]
    exact Nat.mul_le_mul_right _ (Nat.log2_self_le hn.ne')
  have hhigh : n * 2 ^ k < 2 ^ 53 := by
    rw [show 53 = n.log2 + 1 + k by omega, Nat.pow_add]
    exact Nat.mul_lt_mul_of_pos_right Nat.lt_log2_self (Nat.two_pow_pos k)
  have hround : UnpackedFloat.ofNat .binary64 n =
      roundWithAccuracy .binary64 .positive (n * 2 ^ k) (-(k : Int)) .exact := by
    have htarget : Format.binary64.targetExponent (totalExponent n 0) = -(k : Int) := by
      simp only [Format.targetExponent, totalExponent, Format.mantissaBits, Format.minExponent]
      norm_num
      omega
    have hpos : compare (n : Int) 0 = .gt := Int.compare_eq_gt.mpr (by omega)
    rw [UnpackedFloat.ofNat, UnpackedFloat.ofInt, UnpackedFloat.normalize, hpos]
    simp only [UnpackedFloat.round, UnpackedFloat.decreaseExponent, Int.toNat_natCast, htarget,
      Int.zero_sub, Int.neg_neg, Nat.shiftLeft_eq]
  obtain ⟨m', c, hm', heq, hcarry, hlow', hhigh'⟩ := roundWithAccuracy_eq hlow (e := -(k : Int))
    (by omega)
  have hlog' : (n * 2 ^ k).log2 = 52 := (Nat.log2_eq_iff (by omega)).mpr ⟨hlow, hhigh⟩
  rw [hlog', rounded_zero] at hcarry
  -- nothing is shifted out and nothing carried
  obtain rfl : c = 0 := by
    have := lt_or_eq_and_le_of_mul_le (d := 0) hlow' hhigh (by rw [hcarry, Nat.pow_zero, Nat.mul_one])
    omega
  obtain rfl : m' = n * 2 ^ k := by rw [← hcarry, Nat.pow_zero, Nat.mul_one]
  refine ⟨k, hm', by omega, hlow, hhigh, ?_⟩
  rw [hround, heq, hlog']
  simp

/-- A natural number that is not zero becomes a number by rounding a long mantissa. -/
theorem ofNat_eq (hn : 0 < n) :
    ∃ k : Nat, k ≤ 1074 ∧ 2 ^ 52 ≤ n * 2 ^ k ∧
      Float.ofNat n =
        .ofModel (.pack (roundWithAccuracy .binary64 .positive (n * 2 ^ k) (-(k : Int)) .exact)) := by
  have hdef : Float.ofNat n = Float.ofScientific n false 0 := rfl
  by_cases hsmall : n < 2 ^ 53
  -- a small number is multiplied by one, and the product is rounded
  · obtain ⟨k, hm, hk, hlow, hhigh, heq⟩ := ofNat_unpacked hn hsmall
    refine ⟨k + 52, by omega, ?_, ?_⟩
    · exact hlow.trans (Nat.mul_le_mul_left n (Nat.pow_le_pow_right (by decide) (by omega)))
    have hnat : n.toUInt64.toNat = n := Nat.mod_eq_of_lt (by omega)
    have hone : (Float.ofBits 0x3FF0000000000000).toModel.unpack =
        .finite .positive (2 ^ 52) (-52) (by decide) := rfl
    have hstored : Stored (n * 2 ^ k) (-(k : Int)) := ⟨hhigh, by omega, Or.inr hlow⟩
    have hread :
        n.toUInt64.toFloat.toModel.unpack = .finite .positive (n * 2 ^ k) (-(k : Int)) hm := by
      change (Float.Model.pack (UnpackedFloat.ofNat .binary64 n.toUInt64.toNat)).unpack = _
      rw [hnat, heq, unpack_pack hm hstored (by omega)]
    rw [hdef, Float.ofScientific, dif_pos ⟨hsmall, by decide⟩]
    change Float.ofModel (.pack (UnpackedFloat.mul .binary64 n.toUInt64.toFloat.toModel.unpack
      (Float.ofBits 0x3FF0000000000000).toModel.unpack)) = _
    rw [hread, hone, Nat.pow_add, ← Nat.mul_assoc, Int.natCast_add, Int.neg_add]
    rfl
  -- a large one is shifted to the left first, and back by its exponent
  · refine ⟨53, by decide, by omega, ?_⟩
    rw [hdef, Float.ofScientific, dif_neg (by omega)]
    simp only [Float.Model.ofScientific, UnpackedFloat.ofScientific, Nat.shiftLeft_eq]
    rw [dif_neg (by omega), if_neg (by decide), if_neg (by simp), if_pos (by decide)]
    change Float.ofModel (.pack (roundWithAccuracy .binary64 .positive (n * 2 ^ 53 * 1) (-53) .exact))
      = _
    rw [Nat.mul_one]
    rfl

theorem toNat_ofNatClamp_le (n : Nat) : (UInt64.ofNatClamp n).toNat ≤ n := by
  rw [UInt64.ofNatClamp]
  split
  · exact le_rfl
  · rename_i h
    exact (Nat.sub_le _ 1).trans (Nat.le_of_not_lt h)

/-- The whole part of a number is not above it. -/
theorem toNat_toUInt64_le {x : Float} {hm : 0 < m}
    (hx : x.toModel.unpack = .finite .positive m e hm) :
    x.toUInt64.toNat * 2 ^ (-e).toNat ≤ m * 2 ^ e.toNat := by
  have hwhole : x.toUInt64 = UInt64.ofNatClamp (m * 2 ^ e.toNat / 2 ^ (-e).toNat) := by
    obtain ⟨round, sticky, heq, -⟩ := shifted_eq (m * 2 ^ e.toNat) (-e).toNat
    change x.toModel.unpack.toUInt64 = _
    have hdown : (0 - (e - (e.toNat : Int))).toNat = (-e).toNat := by omega
    rw [hx, UnpackedFloat.toUInt64, UnpackedFloat.toInt, UnpackedFloat.roundToInt]
    simp only [UnpackedFloat.decreaseExponent, UnpackedFloat.shiftToExponent, Int.sub_zero, hdown,
      Nat.shiftLeft_eq, UnpackedFloat.ExtendedMantissa.ofMantissaAndAccuracy, heq, Sign.apply,
      Int.toNat_natCast]
  rw [hwhole]
  calc
    _ ≤ m * 2 ^ e.toNat / 2 ^ (-e).toNat * 2 ^ (-e).toNat :=
      Nat.mul_le_mul_right _ (toNat_ofNatClamp_le _)
    _ ≤ m * 2 ^ e.toNat := Nat.div_mul_le_self _ _

theorem isNaN_ofNat (n : Nat) : (Float.ofNat n).isNaN = false := by
  rcases Nat.eq_zero_or_pos n with rfl | hn
  · rfl
  · obtain ⟨k, hk, hbits, heq⟩ := ofNat_eq hn
    obtain ⟨m', c, hm', hround, -, hlow, hhigh⟩ := roundWithAccuracy_eq hbits (e := -(k : Int))
      (by omega)
    rw [heq, hround]
    exact isNaN_unpack_pack hm' ⟨hhigh, by omega, Or.inr hlow⟩

/-- A natural number that is not above the whole part of a finite number is not above the number. -/
theorem ofNat_le_finite {x : Float} {hm : 0 < m} (hx : x.toModel.unpack = .finite .positive m e hm)
    (hn : 0 < n) (h : n ≤ x.toUInt64.toNat) : Float.ofNat n ≤ x := by
  obtain ⟨hstored, he⟩ := stored_unpack hx
  obtain ⟨k, hk, hbits, heq⟩ := ofNat_eq hn
  have hscaled := scaled_le hk hstored.exponent
    ((Nat.mul_le_mul_right _ h).trans (toNat_toUInt64_le hx))
  obtain ⟨m', e', hm', hround, hstored', horder⟩ := roundWithAccuracy_le hbits hstored hscaled
  have hexp : ((1074 - k : Nat) : Int) - 1074 = -(k : Int) := by omega
  have hread : (Float.ofNat n).toModel.unpack = .finite .positive m' e' hm' := by
    rw [heq, ← hexp, hround, unpack_pack hm' hstored' (by omega)]
  rw [le_iff, hread, hx, UnpackedFloat.compare]
  rcases horder with hless | ⟨rfl, hle⟩
  · rw [Int.compare_eq_lt.mpr hless]
    rfl
  · rw [Int.compare_eq_eq.mpr rfl]
    exact Nat.isLE_compare.mpr hle

/-- Nothing that is a number is above infinity. -/
theorem le_infinity {x y : Float} (hx : x.toModel.unpack = .infinity .positive)
    (hy : y.isNaN = false) : y ≤ x := by
  change y.toModel.unpack.isNaN = false at hy
  rw [le_iff, hx]
  generalize y.toModel.unpack = u at hy ⊢
  cases u with
  | notANumber => cases hy
  | infinity s => cases s <;> rfl
  | zero s => rfl
  | finite s => cases s <;> rfl

/-- A natural number that is not above the whole part of a number is not above the number. -/
theorem ofNat_le {x : Float} (hnan : x.isNaN = false) (hneg : ¬x < 0)
    (h : n ≤ x.toUInt64.toNat) : Float.ofNat n ≤ x := by
  have hzero : (0 : Float).toModel.unpack = .zero .positive := rfl
  rw [lt_iff, hzero] at hneg
  change x.toModel.unpack.isNaN = false at hnan
  cases hx : x.toModel.unpack with
  -- only zero and the positive numbers are left, the infinite one among them
  | notANumber =>
    rw [hx] at hnan
    cases hnan
  | infinity s =>
    cases s with
    | negative =>
      rw [hx] at hneg
      exact absurd rfl hneg
    | positive => exact le_infinity hx (isNaN_ofNat n)
  | zero s =>
    have hwhole : x.toUInt64 = 0 := by
      change x.toModel.unpack.toUInt64 = 0
      rw [hx]
      rfl
    obtain rfl : n = 0 := by simpa [hwhole] using h
    rw [le_iff, hx]
    rfl
  | finite s m e hm =>
    cases s with
    | negative =>
      rw [hx] at hneg
      exact absurd rfl hneg
    | positive =>
      rcases Nat.eq_zero_or_pos n with rfl | hn
      · rw [le_iff, hx]
        rfl
      · exact ofNat_le_finite hx hn h

end ScriptKit.Number
