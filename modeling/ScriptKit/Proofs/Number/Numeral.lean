import ScriptKit.Number.Text

namespace ScriptKit.Number

open ScriptKit.Text

/-- The characters of the texts of numbers. -/
def inNumeral (c : Char) : Bool :=
  isDigit c || c ∈ ['.', '+', '-', 'e', 'I', 'n', 'f', 'i', 't', 'y', 'N', 'a']

/-- The characters that the text of a number begins with. -/
def startsNumeral (c : Char) : Bool :=
  isDigit c || c ∈ ['+', '-', 'I', 'N']

/-- What the text of a number looks like, as far as it can be told from other texts. -/
structure IsNumeral (s : List Char) : Prop where
  chars : ∀ c ∈ s, inNumeral c = true
  start : ∃ c rest, s = c :: rest ∧ startsNumeral c = true

variable {digits : List Char} {exponent : Int}

theorem inNumeral_of_isDigit {c : Char} (h : isDigit c = true) : inNumeral c = true := by
  simp [inNumeral, h]

theorem IsNumeral.of_digit {c : Char} {rest : List Char} (hc : isDigit c = true)
    (hrest : ∀ d ∈ rest, inNumeral d = true) : IsNumeral (c :: rest) where
  chars := List.forall_mem_cons.mpr ⟨inNumeral_of_isDigit hc, hrest⟩
  start := ⟨c, rest, rfl, by simp [startsNumeral, hc]⟩

theorem isDigit_of_mem_toDigits {n : Nat} {c : Char} (h : c ∈ Nat.toDigits 10 n) :
    isDigit c = true := by
  have hdigit := Nat.isDigit_of_mem_toDigits (by decide) (by decide) h
  simpa [isDigit, Char.isDigit, Char.le_def] using hdigit

theorem isNumeral_positional (hne : digits ≠ []) (hdigits : ∀ c ∈ digits, isDigit c = true) :
    IsNumeral (positional digits exponent) := by
  have hin : ∀ c ∈ digits, inNumeral c = true := fun c hc => inNumeral_of_isDigit (hdigits c hc)
  have hzero : ∀ {n}, ∀ c ∈ List.replicate n '0', inNumeral c = true := by
    intro n c hc
    rw [List.eq_of_mem_replicate hc]
    decide
  obtain ⟨d, ds, rfl⟩ := List.exists_cons_of_ne_nil hne
  unfold positional
  split
  · refine .of_digit (by decide) (List.forall_mem_cons.mpr ⟨by decide, ?_⟩)
    exact List.forall_mem_append.mpr ⟨hzero, hin⟩
  dsimp only
  split
  · refine .of_digit (hdigits d List.mem_cons_self) ?_
    exact List.forall_mem_append.mpr ⟨fun c hc => hin c (List.mem_cons_of_mem _ hc), hzero⟩
  · rw [List.take_succ_cons, List.drop_succ_cons]
    refine .of_digit (hdigits d List.mem_cons_self) (List.forall_mem_append.mpr ⟨?_, ?_⟩)
    · exact fun c hc => hin c (List.mem_cons_of_mem _ (List.mem_of_mem_take hc))
    · refine List.forall_mem_cons.mpr ⟨by decide, ?_⟩
      exact fun c hc => hin c (List.mem_cons_of_mem _ (List.mem_of_mem_drop hc))

theorem isNumeral_exponential (hne : digits ≠ []) (hdigits : ∀ c ∈ digits, isDigit c = true) :
    IsNumeral (exponential digits exponent) := by
  have hin : ∀ c ∈ digits, inNumeral c = true := fun c hc => inNumeral_of_isDigit (hdigits c hc)
  have hmark : ∀ c ∈ 'e' :: (if exponent < 0 then '-' else '+') ::
      List.replicate (2 - (Nat.toDigits 10 exponent.natAbs).length) '0', inNumeral c = true := by
    refine List.forall_mem_cons.mpr ⟨by decide, List.forall_mem_cons.mpr ⟨?_, fun c hc => ?_⟩⟩
    · split <;> decide
    · rw [List.eq_of_mem_replicate hc]
      decide
  have hpower : ∀ c ∈ Nat.toDigits 10 exponent.natAbs, inNumeral c = true :=
    fun c hc => inNumeral_of_isDigit (isDigit_of_mem_toDigits hc)
  unfold exponential
  match digits, hne, hdigits, hin with
  | [d], _, hdigits, _ =>
    refine .of_digit (hdigits d List.mem_cons_self) ?_
    exact List.forall_mem_append.mpr ⟨hmark, hpower⟩
  | d :: d' :: ds, _, hdigits, hin =>
    refine .of_digit (hdigits d List.mem_cons_self) (List.forall_mem_append.mpr ⟨?_, hpower⟩)
    refine List.forall_mem_cons.mpr ⟨by decide, List.forall_mem_append.mpr ⟨?_, hmark⟩⟩
    exact fun c hc => hin c (List.mem_cons_of_mem _ hc)

theorem isNumeral_signed {s : List Char} (h : IsNumeral s) (negative : Bool) :
    IsNumeral (signed negative s).toList := by
  rw [signed, String.toList_ofList]
  cases negative with
  | true => exact ⟨List.forall_mem_cons.mpr ⟨by decide, h.chars⟩, '-', s, rfl, by decide⟩
  | false => exact h

theorem scientific_digits (d : Decimal) :
    d.scientific.1 ≠ [] ∧ ∀ c ∈ d.scientific.1, isDigit c = true :=
  ⟨Nat.toDigits_ne_nil, fun _ => isDigit_of_mem_toDigits⟩

theorem isNumeral_compact (x : Float) : IsNumeral (compact x).toList := by
  unfold compact
  split
  · exact ⟨List.all_eq_true.mp rfl, 'N', ['a', 'N'], by decide, by decide⟩
  split
  · split
    · exact ⟨List.all_eq_true.mp rfl, '-', ['I', 'n', 'f'], by decide, by decide⟩
    · exact ⟨List.all_eq_true.mp rfl, '+', ['I', 'n', 'f'], by decide, by decide⟩
  obtain ⟨hne, hdigits⟩ := scientific_digits (shortest (Binary.ofFloat x))
  refine isNumeral_signed ?_ _
  split
  · exact isNumeral_positional hne hdigits
  · exact isNumeral_exponential hne hdigits

theorem isNumeral_render (x : Float) : IsNumeral (render x).toList := by
  unfold render
  split
  · exact ⟨List.all_eq_true.mp rfl, 'N', ['a', 'N'], by decide, by decide⟩
  split
  · split
    · exact ⟨List.all_eq_true.mp rfl, '-', "Infinity".toList, by decide, by decide⟩
    · exact ⟨List.all_eq_true.mp rfl, 'I', "nfinity".toList, by decide, by decide⟩
  dsimp only
  split
  · obtain ⟨hne, hdigits⟩ := scientific_digits (shortest (Binary.ofFloat x))
    exact isNumeral_signed (isNumeral_positional hne hdigits) _
  · exact isNumeral_compact x

end ScriptKit.Number
