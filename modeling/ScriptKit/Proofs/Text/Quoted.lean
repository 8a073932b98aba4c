import Mathlib.Algebra.Group.Nat.Defs
import ScriptKit.Proofs.Text.Basic
import ScriptKit.Text.Quoted

namespace ScriptKit.Text

/-- The control characters that have a letter of their own. -/
def controls : List (Char × Char) :=
  [('\x07', 'a'), ('\x08', 'b'), ('\t', 't'), ('\n', 'n'), ('\x0b', 'v'), ('\x0c', 'f'),
    ('\r', 'r')]

/-- The letter that stands for a base and the number of digits to that base. -/
def numbering (n : Nat) : Char × Nat :=
  if n < 0x80 then ('x', 2) else if n < 0x10000 then ('u', 4) else ('U', 8)

/-- The ways in which a character is written between double quotes. -/
inductive Coded (c : Char) : List Char → Prop
  | escaped (hc : c = '"' ∨ c = '\\') : Coded c ['\\', c]
  | plain (hquote : c ≠ '"') (hbackslash : c ≠ '\\') (hc : isPrintable c = true) : Coded c [c]
  | letter {l : Char} (hc : (c, l) ∈ controls) : Coded c ['\\', l]
  | number (hc : isPrintable c = false) (hletter : ∀ l, (c, l) ∉ controls) :
      Coded c ('\\' :: (numbering c.toNat).1 :: (hex (numbering c.toNat).2 c.toNat).toList)

/-- The number with as many digits as its size asks for. -/
theorem coded_number {c : Char} (hc : isPrintable c = false) (hletter : ∀ l, (c, l) ∉ controls) :
    Coded c (if c.toNat < 0x80 then '\\' :: 'x' :: (hex 2 c.toNat).toList
      else if c.toNat < 0x10000 then '\\' :: 'u' :: (hex 4 c.toNat).toList
      else '\\' :: 'U' :: (hex 8 c.toNat).toList) := by
  have hnumber := Coded.number hc hletter
  unfold numbering at hnumber
  split
  · rename_i hsmall
    rwa [if_pos hsmall] at hnumber
  · rename_i hsmall
    rw [if_neg hsmall] at hnumber
    split
    · rename_i hmiddle
      rwa [if_pos hmiddle] at hnumber
    · rename_i hmiddle
      rwa [if_neg hmiddle] at hnumber

theorem coded_quoteChar (c : Char) : Coded c (quoteChar c) := by
  have hnamed : ∀ d : Char, c.toNat = d.toNat → c = d := fun d h => Char.toNat_inj.mp h
  unfold quoteChar
  split
  · rename_i hc
    exact .escaped (by simpa using hc)
  rename_i hc
  simp only [Bool.or_eq_true, decide_eq_true_eq, not_or] at hc
  split
  · rename_i hprint
    exact .plain hc.1 hc.2 hprint
  rename_i hprint
  split
  · rename_i h
    obtain rfl := hnamed '\x07' h
    exact .letter (by decide)
  · rename_i h
    obtain rfl := hnamed '\x08' h
    exact .letter (by decide)
  · rename_i h
    obtain rfl := hnamed '\t' h
    exact .letter (by decide)
  · rename_i h
    obtain rfl := hnamed '\n' h
    exact .letter (by decide)
  · rename_i h
    obtain rfl := hnamed '\x0b' h
    exact .letter (by decide)
  · rename_i h
    obtain rfl := hnamed '\x0c' h
    exact .letter (by decide)
  · rename_i h
    obtain rfl := hnamed '\r' h
    exact .letter (by decide)
  -- none of the seven letters is for this character, so it is written by its number
  · rename_i h7 h8 h9 h10 h11 h12 h13
    refine coded_number (by simpa using hprint) fun l hl => ?_
    simp only [controls, List.mem_cons, Prod.mk.injEq, List.not_mem_nil, or_false] at hl
    rcases hl with ⟨rfl, -⟩ | ⟨rfl, -⟩ | ⟨rfl, -⟩ | ⟨rfl, -⟩ | ⟨rfl, -⟩ | ⟨rfl, -⟩ | ⟨rfl, -⟩
    · exact h7 rfl
    · exact h8 rfl
    · exact h9 rfl
    · exact h10 rfl
    · exact h11 rfl
    · exact h12 rfl
    · exact h13 rfl

section Hexadecimal

/-- The number that hexadecimal digits stand for. -/
def hexNumber (digits : List Char) : Nat :=
  digits.foldl (fun n c => 16 * n + (hexValue? c).getD 0) 0

theorem hexValue?_digitChar : ∀ d, d < 16 → hexValue? d.digitChar = some d := by
  decide

theorem hexNumber_append_singleton (digits : List Char) (c : Char) :
    hexNumber (digits ++ [c]) = 16 * hexNumber digits + (hexValue? c).getD 0 := by
  rw [hexNumber, List.foldl_append]
  rfl

theorem hexNumber_toDigits (n : Nat) : hexNumber (Nat.toDigits 16 n) = n := by
  rw [Nat.toDigits_eq_if (by decide)]
  split
  · rename_i hn
    simp [hexNumber, hexValue?_digitChar n hn]
  · rw [hexNumber_append_singleton, hexNumber_toDigits (n / 16),
      hexValue?_digitChar _ (Nat.mod_lt n (by decide))]
    exact Nat.div_add_mod n 16

theorem hexNumber_hex (width n : Nat) : hexNumber (hex width n).toList = n := by
  have hzeros : ∀ k, hexNumber (List.replicate k '0') = 0 := by
    intro k
    induction k with
    | zero => rfl
    | succ k ih =>
      rw [List.replicate_succ', hexNumber_append_singleton, ih]
      rfl
  -- the zeros in front do not count
  rw [hex, String.toList_ofList, hexNumber, List.foldl_append]
  change List.foldl _ (hexNumber _) _ = n
  rw [hzeros]
  exact hexNumber_toDigits n

theorem length_hex {width n : Nat} (hpos : 0 < width) (h : n < 16 ^ width) :
    (hex width n).toList.length = width := by
  have hle := (Nat.length_toDigits_le_iff (by decide) hpos).mpr h
  rw [hex, String.toList_ofList, List.length_append, List.length_replicate]
  omega

theorem isSome_hexValue?_of_mem_toDigits {c : Char} (n : Nat) (h : c ∈ Nat.toDigits 16 n) :
    (hexValue? c).isSome = true := by
  rw [Nat.toDigits_eq_if (by decide)] at h
  split at h
  · rename_i hn
    rw [List.mem_singleton.mp h, hexValue?_digitChar n hn]
    rfl
  · rcases List.mem_append.mp h with h | h
    · exact isSome_hexValue?_of_mem_toDigits (n / 16) h
    · rw [List.mem_singleton.mp h, hexValue?_digitChar _ (Nat.mod_lt n (by decide))]
      rfl

theorem isSome_hexValue?_of_mem_hex {c : Char} {width n : Nat} (h : c ∈ (hex width n).toList) :
    (hexValue? c).isSome = true := by
  rw [hex, String.toList_ofList] at h
  rcases List.mem_append.mp h with h | h
  · rw [List.eq_of_mem_replicate h]
    rfl
  · exact isSome_hexValue?_of_mem_toDigits n h

end Hexadecimal

section Reading

/-- Reads what is written for one character. -/
def readCoded : List Char → Option (Char × List Char)
  | [] => none
  | '\\' :: mark :: rest =>
    if mark = '"' ∨ mark = '\\' then some (mark, rest)
    else match controls.find? (·.2 = mark) with
      | some (c, _) => some (c, rest)
      | none =>
        let width := if mark = 'x' then 2 else if mark = 'u' then 4 else 8
        some (Char.ofNat (hexNumber (rest.take width)), rest.drop width)
  | c :: rest => some (c, rest)

theorem readCoded_quoteChar (c : Char) (rest : List Char) :
    readCoded (quoteChar c ++ rest) = some (c, rest) := by
  have hcoded := coded_quoteChar c
  generalize quoteChar c = text at hcoded ⊢
  cases hcoded with
  | escaped hc => rcases hc with rfl | rfl <;> rfl
  | plain hquote hbackslash => simp [readCoded, hbackslash]
  | letter hc =>
    simp only [controls, List.mem_cons, Prod.mk.injEq, List.not_mem_nil, or_false] at hc
    rcases hc with ⟨rfl, rfl⟩ | ⟨rfl, rfl⟩ | ⟨rfl, rfl⟩ | ⟨rfl, rfl⟩ | ⟨rfl, rfl⟩ | ⟨rfl, rfl⟩ |
      ⟨rfl, rfl⟩ <;> rfl
  | number =>
    have hread : ∀ mark width, (mark, width) ∈ [('x', 2), ('u', 4), ('U', 8)] →
        c.toNat < 16 ^ width →
        readCoded ('\\' :: mark :: (hex width c.toNat).toList ++ rest) = some (c, rest) := by
      intro mark width hmark hlt
      have hlen : (hex width c.toNat).toList.length = width := by
        refine length_hex ?_ hlt
        simp only [List.mem_cons, Prod.mk.injEq, List.not_mem_nil, or_false] at hmark
        rcases hmark with ⟨-, rfl⟩ | ⟨-, rfl⟩ | ⟨-, rfl⟩ <;> decide
      have htake : ((hex width c.toNat).toList ++ rest).take width = (hex width c.toNat).toList :=
        List.take_left' hlen
      have hdrop : ((hex width c.toNat).toList ++ rest).drop width = rest := List.drop_left' hlen
      have hnumber := hexNumber_hex width c.toNat
      simp only [List.mem_cons, Prod.mk.injEq, List.not_mem_nil, or_false] at hmark
      rcases hmark with ⟨rfl, rfl⟩ | ⟨rfl, rfl⟩ | ⟨rfl, rfl⟩ <;>
        simp [readCoded, controls, htake, hdrop, hnumber]
    unfold numbering
    -- eight digits are enough for every character
    have hmax : c.toNat < 0x110000 := by
      have hvalid : c.toNat.isValidChar := c.valid
      simp only [Nat.isValidChar] at hvalid
      omega
    split
    · exact hread 'x' 2 (by simp) (by omega)
    · split
      · exact hread 'u' 4 (by simp) (by omega)
      · exact hread 'U' 8 (by simp) (by omega)

theorem quoteChar_append_inj {c d : Char} {s t : List Char}
    (h : quoteChar c ++ s = quoteChar d ++ t) : c = d ∧ s = t := by
  have hread := readCoded_quoteChar c s
  rw [h, readCoded_quoteChar] at hread
  cases hread
  exact ⟨rfl, rfl⟩

theorem quoteChar_ne (c : Char) (s t : List Char) : quoteChar c ++ s ≠ '"' :: t := by
  have hcoded := coded_quoteChar c
  generalize quoteChar c = text at hcoded ⊢
  cases hcoded with
  | escaped => simp
  | plain hquote => simp [hquote]
  | letter => simp
  | number => simp

/-- A text between quotes can be told from what comes after it. -/
theorem quoteChars_append_inj {a b s t : List Char} (h : quoteChars a ++ s = quoteChars b ++ t) :
    a = b ∧ s = t := by
  have hbody : ∀ {a b : List Char},
      a.flatMap quoteChar ++ '"' :: s = b.flatMap quoteChar ++ '"' :: t → a = b ∧ s = t := by
    intro a
    induction a with
    | nil =>
      rintro (_ | ⟨d, b⟩) h
      · simpa using h
      · rw [List.flatMap_cons, List.append_assoc] at h
        exact absurd h.symm (quoteChar_ne d _ _)
    | cons c a ih =>
      rintro (_ | ⟨d, b⟩) h
      · rw [List.flatMap_cons, List.append_assoc] at h
        exact absurd h (quoteChar_ne c _ _)
      · rw [List.flatMap_cons, List.flatMap_cons, List.append_assoc, List.append_assoc] at h
        obtain ⟨rfl, hrest⟩ := quoteChar_append_inj h
        obtain ⟨rfl, hst⟩ := ih hrest
        exact ⟨rfl, hst⟩
  refine hbody ?_
  simpa [quoteChars] using h

end Reading

end ScriptKit.Text
