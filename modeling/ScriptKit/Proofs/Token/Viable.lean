import ScriptKit.Token.Lexer
import Mathlib.Data.List.TakeDrop
import Mathlib.Data.List.TakeWhile
import Mathlib.Data.List.Induction

namespace ScriptKit.Token

open ScriptKit.Text

section Number

/-- A non-empty run of digits. -/
def Digits (s : List Char) : Prop :=
  s ≠ [] ∧ ∀ c ∈ s, isDigit c = true

theorem span_digits {ds rest : List Char} (hd : ∀ c ∈ ds, isDigit c = true)
    (hr : ∀ c, rest.head? = some c → isDigit c = false) :
    (ds ++ rest).span isDigit = (ds, rest) := by
  have hrest : rest.takeWhile isDigit = [] ∧ rest.dropWhile isDigit = rest := by
    cases rest with
    | nil => exact ⟨rfl, rfl⟩
    | cons c rest => simp [hr c rfl]
  rw [List.span_eq_takeWhile_dropWhile, List.takeWhile_append_of_pos hd,
    List.dropWhile_append_of_pos hd, hrest.1, hrest.2, List.append_nil]

theorem exists_digits (s : List Char) : ∃ ds rest, s = ds ++ rest ∧
    (∀ c ∈ ds, isDigit c = true) ∧ s.span isDigit = (ds, rest) := by
  refine ⟨s.takeWhile isDigit, s.dropWhile isDigit, List.takeWhile_append_dropWhile.symm, ?_,
    List.span_eq_takeWhile_dropWhile isDigit s⟩
  intro c hc
  exact List.mem_takeWhile_imp hc

theorem isNumber_iff {s : List Char} : isNumber s = true ↔ Digits (unsigned s) ∨
    ∃ ds fs, unsigned s = ds ++ '.' :: fs ∧ Digits ds ∧ Digits fs := by
  unfold isNumber
  constructor
  · obtain ⟨ds, rest, hs, hd, hspan⟩ := exists_digits (unsigned s)
    rw [hspan]
    intro h
    cases ds with
    | nil => simp at h
    | cons d ds =>
      -- the digits go to the end, or up to a point with more of them behind it
      cases rest with
      | nil =>
        left
        rw [hs, List.append_nil]
        exact ⟨by simp, hd⟩
      | cons c fs =>
        simp only [Bool.and_eq_true, decide_eq_true_eq, Bool.not_eq_true', List.isEmpty_eq_false_iff,
          List.all_eq_true] at h
        obtain ⟨⟨rfl, hne⟩, hfs⟩ := h
        exact Or.inr ⟨d :: ds, fs, hs, ⟨by simp, hd⟩, hne, hfs⟩
  · rintro (⟨hne, hd⟩ | ⟨ds, fs, hs, ⟨hne, hd⟩, hne', hfs⟩)
    · have hspan : (unsigned s ++ []).span isDigit = (unsigned s, []) := span_digits hd (by simp)
      rw [List.append_nil] at hspan
      rw [hspan]
      cases hu : unsigned s with
      | nil => exact absurd hu hne
      | cons d ds => rfl
    · rw [hs, span_digits hd (by rintro c ⟨⟩; decide)]
      cases ds with
      | nil => exact absurd rfl hne
      | cons d ds => simpa [hne'] using hfs

theorem isNumberStart_iff {s : List Char} : isNumberStart s = true ↔
    s = ['-'] ∨ ∃ ds, unsigned s = ds ++ ['.'] ∧ Digits ds := by
  unfold isNumberStart
  rw [Bool.or_eq_true, decide_eq_true_eq]
  refine or_congr_right ?_
  constructor
  · obtain ⟨ds, rest, hs, hd, hspan⟩ := exists_digits (unsigned s)
    rw [hspan]
    intro h
    cases ds with
    | nil => simp at h
    | cons d ds =>
      have hrest : rest = ['.'] := by simpa using h
      exact ⟨d :: ds, by rw [hs, hrest], by simp, hd⟩
  · rintro ⟨ds, hs, hne, hd⟩
    rw [hs, span_digits hd (by rintro c ⟨⟩; decide)]
    cases ds with
    | nil => exact absurd rfl hne
    | cons d ds => simp

theorem unsigned_append {s : List Char} (h : s ≠ []) (c : Char) :
    unsigned (s ++ [c]) = unsigned s ++ [c] := by
  cases s with
  | nil => exact absurd rfl h
  | cons d s =>
    by_cases hd : d = '-'
    · subst hd
      rfl
    · simp [unsigned, hd]

theorem append_singleton_eq {s ds fs : List Char} {c d : Char} (h : s ++ [c] = ds ++ d :: fs) :
    (fs = [] ∧ s = ds) ∨ ∃ gs, fs = gs ++ [c] ∧ s = ds ++ d :: gs := by
  rcases List.eq_nil_or_concat fs with rfl | ⟨gs, e, rfl⟩
  · exact Or.inl ⟨rfl, (List.append_inj' h rfl).1⟩
  · have h' : s ++ [c] = (ds ++ d :: gs) ++ [e] := by simpa using h
    obtain ⟨hs, he⟩ := List.append_inj' h' rfl
    cases he
    exact Or.inr ⟨gs, by simp, hs⟩

/-- What is before the last character of a number, or of the beginning of one, can become a
number. -/
theorem number_viable_dropLast {s : List Char} (hne : s ≠ []) {c : Char}
    (h : isNumber (s ++ [c]) = true ∨ isNumberStart (s ++ [c]) = true) :
    isNumber s = true ∨ isNumberStart s = true := by
  have hdigits : ∀ {ds : List Char}, unsigned s = ds → (∀ d ∈ ds, isDigit d = true) →
      isNumber s = true ∨ isNumberStart s = true := by
    intro ds hs hd
    by_cases hds : ds = []
    · -- nothing but a sign is left
      right
      refine isNumberStart_iff.mpr (Or.inl ?_)
      rw [hds] at hs
      unfold unsigned at hs
      split at hs
      · rw [hs]
      · exact absurd hs hne
    · exact Or.inl (isNumber_iff.mpr (Or.inl (hs ▸ ⟨hds, hd⟩)))
  rw [isNumber_iff, isNumberStart_iff, unsigned_append hne] at h
  rcases h with (⟨-, hd⟩ | ⟨ds, fs, hs, hds, hfs⟩) | hs | ⟨ds, hs, hds⟩
  · exact hdigits rfl fun d hd' => hd d (List.mem_append_left _ hd')
  · rcases append_singleton_eq hs with ⟨rfl, -⟩ | ⟨gs, rfl, hs'⟩
    · exact absurd rfl hfs.1
    · by_cases hgs : gs = []
      · exact Or.inr (isNumberStart_iff.mpr (Or.inr ⟨ds, by rw [hs', hgs], hds⟩))
      · exact Or.inl (isNumber_iff.mpr (Or.inr ⟨ds, gs, hs', hds, hgs,
          fun d hd => hfs.2 d (List.mem_append_left _ hd)⟩))
  · have hlen := congrArg List.length hs
    have := List.length_pos_iff.mpr hne
    simp only [List.length_append, List.length_singleton] at hlen
    omega
  · rcases append_singleton_eq hs with ⟨-, hs⟩ | ⟨gs, hgs, -⟩
    · exact hdigits hs hds.2
    · simp at hgs

end Number

section Rules

variable {minusIsOperator : Bool} {s : List Char} {c : Char}

theorem isViable_iff : isViable minusIsOperator s = true ↔
    ∃ r ∈ rules, r.applies minusIsOperator s = true ∧ (r.full s = true ∨ r.growing s = true) := by
  simp [isViable]

theorem applies_append (r : Rule) (h : s ≠ []) :
    r.applies minusIsOperator (s ++ [c]) = r.applies minusIsOperator s := by
  cases s with
  | nil => exact absurd rfl h
  | cons d s => rfl

theorem applies_of_kind {r : Rule} (h : r.kind ≠ .number) : r.applies minusIsOperator s = true := by
  simp [Rule.applies, h]

theorem isIdentifier_dropLast (hne : s ≠ []) (h : isIdentifier (s ++ [c]) = true) :
    isIdentifier s = true := by
  cases s with
  | nil => exact absurd rfl hne
  | cons d s =>
    simp only [List.cons_append, isIdentifier, List.all_append, Bool.and_eq_true] at h ⊢
    exact ⟨h.1, h.2.1⟩

theorem isComment_dropLast (hne : s ≠ []) (h : isComment (s ++ [c]) = true) :
    isComment s = true := by
  cases s with
  | nil => exact absurd rfl hne
  | cons d s =>
    unfold isComment at h ⊢
    split at h
    · rename_i heq
      simp only [List.cons_append, List.cons.injEq] at heq
      obtain ⟨rfl, rfl⟩ := heq
      simp only [List.all_append, Bool.and_eq_true] at h
      exact h.1
    · cases h

theorem isWhitespace_dropLast (hne : s ≠ []) (h : isWhitespace (s ++ [c]) = true) :
    isWhitespace s = true := by
  simp only [isWhitespace, List.all_append, Bool.and_eq_true] at h ⊢
  exact ⟨by simpa using hne, h.2.1⟩

theorem stringState_append (s : List Char) (c : Char) :
    stringState (s ++ [c]) = (stringState s).next c := by
  simp [stringState, List.foldl_append]

theorem StringState.next_ne_unopened (state : StringState) (c : Char) :
    state.next c ≠ .unopened := by
  cases state <;> simp only [StringState.next] <;> repeat' split
  all_goals simp

theorem stringState_eq_unopened (h : stringState s = .unopened) : s = [] := by
  rcases List.eq_nil_or_concat s with rfl | ⟨t, d, rfl⟩
  · rfl
  · rw [List.concat_eq_append, stringState_append] at h
    exact absurd h ((stringState t).next_ne_unopened d)

/-- A literal that is not broken was open before its last character. -/
theorem string_open_dropLast (hne : s ≠ []) (h : stringState (s ++ [c]) ≠ .broken) :
    stringState s = .inside ∨ stringState s = .escape := by
  rw [stringState_append] at h
  cases ht : stringState s with
  | unopened => exact absurd (stringState_eq_unopened ht) hne
  | inside => exact Or.inl rfl
  | escape => exact Or.inr rfl
  | closed => rw [ht] at h; exact absurd rfl h
  | broken => rw [ht] at h; exact absurd rfl h

/-- All texts that stand in the table of the rules as they are. -/
def fixedTexts : List String :=
  ["let", "func", "if", "else", "while", "class", "null", "true", "false", "=", "+", "-", "**", "*",
    "/", "%", ">=", "<=", "==", "!=", ">", "<", "!", ";", ",", ".", "(", ")", "\x7b", "\x7d", "[", "]"]

theorem fixedTexts_viable_dropLast (minusIsOperator : Bool) : ∀ w ∈ fixedTexts,
    w.toList.dropLast ≠ [] → isViable minusIsOperator w.toList.dropLast = true := by
  cases minusIsOperator <;> decide

theorem oneOf_viable_dropLast {words : List String} (hwords : ∀ w ∈ words, w ∈ fixedTexts)
    (hne : s ≠ []) (h : oneOf words (s ++ [c]) = true) : isViable minusIsOperator s = true := by
  simp only [oneOf, List.any_eq_true, decide_eq_true_eq] at h
  obtain ⟨w, hw, he⟩ := h
  have hdrop : w.toList.dropLast = s := by rw [he, List.dropLast_concat]
  rw [← hdrop]
  exact fixedTexts_viable_dropLast _ w (hwords w hw) (by rwa [hdrop])

/-- The rules that are given by a list of texts, and those that are given by a class. -/
theorem rules_cases {r : Rule} (h : r ∈ rules) :
    (∃ words more : List String, (∀ w ∈ words ++ more, w ∈ fixedTexts) ∧
      r.full = oneOf words ∧ (r.growing = oneOf more ∨ r.growing = fun _ => false)) ∨
    r = { kind := .comment, full := isComment } ∨
    r = { kind := .number, full := isNumber, growing := isNumberStart } ∨
    r = { kind := .string
          full := fun s => stringState s = .closed
          growing := fun s => stringState s = .inside || stringState s = .escape } ∨
    r = { kind := .identifier, full := isIdentifier } ∨
    r = { kind := .whitespace, full := isWhitespace } := by
  simp only [rules, List.mem_cons, List.not_mem_nil, or_false] at h
  rcases h with rfl | rfl | rfl | rfl | rfl | rfl | rfl | rfl | rfl | rfl | rfl | rfl | rfl | rfl |
    rfl | rfl | rfl | rfl | rfl | rfl
  case inr.inr.inr.inr.inr.inr.inr.inr.inl =>
    exact Or.inl ⟨_, ["!"], by decide, rfl, Or.inl rfl⟩
  all_goals
    first
    | exact Or.inl ⟨_, [], by decide, rfl, Or.inr rfl⟩
    | simp only [true_or, or_true]

/-- A text that can become a token can do so before its last character too. -/
theorem isViable_dropLast (hne : s ≠ []) (h : isViable minusIsOperator (s ++ [c]) = true) :
    isViable minusIsOperator s = true := by
  obtain ⟨r, hr, happlies, h⟩ := isViable_iff.mp h
  rw [applies_append r hne] at happlies
  have hsame : (r.full s = true ∨ r.growing s = true) → isViable minusIsOperator s = true :=
    fun h => isViable_iff.mpr ⟨r, hr, happlies, h⟩
  -- each rule reads the shorter text, or may still get to a text that it reads
  rcases rules_cases hr with ⟨words, growing, hfixed, hfull, hgrow⟩ | rfl | rfl | rfl | rfl | rfl
  · have hwords : ∀ w ∈ words, w ∈ fixedTexts := fun w hw => hfixed w (List.mem_append_left _ hw)
    have hmore : ∀ w ∈ growing, w ∈ fixedTexts := fun w hw => hfixed w (List.mem_append_right _ hw)
    rw [hfull] at h
    rcases h with h | h
    · exact oneOf_viable_dropLast hwords hne h
    · rcases hgrow with hgrow | hgrow <;> rw [hgrow] at h
      · exact oneOf_viable_dropLast hmore hne h
      · cases h
  · exact hsame (h.imp (isComment_dropLast hne) id)
  · exact hsame (number_viable_dropLast hne h)
  · have hopen : stringState (s ++ [c]) ≠ .broken := by
      intro hb
      simp [hb] at h
    have := string_open_dropLast hne hopen
    exact hsame (Or.inr (by simpa using this))
  · exact hsame (h.imp (isIdentifier_dropLast hne) id)
  · exact hsame (h.imp (isWhitespace_dropLast hne) id)

/-- Every beginning of a viable text is viable, as long as it is not empty. -/
theorem isViable_of_begins {p : List Char} (hne : p ≠ []) (hp : p <+: s)
    (h : isViable minusIsOperator s = true) : isViable minusIsOperator p = true := by
  obtain ⟨rest, rfl⟩ := hp
  induction rest using List.reverseRecOn with
  | nil => rwa [List.append_nil] at h
  | append_singleton rest c ih =>
    rw [← List.append_assoc] at h
    exact ih (isViable_dropLast (by simp [hne]) h)

theorem isViable_of_fullKind {k : Kind} (h : fullKind minusIsOperator s = some k) :
    isViable minusIsOperator s = true := by
  obtain ⟨r, hr, -⟩ := Option.map_eq_some_iff.mp h
  have hmem := List.mem_of_find?_eq_some hr
  have hacc := List.find?_some hr
  simp only [Bool.and_eq_true] at hacc
  exact isViable_iff.mpr ⟨r, hmem, hacc.1, Or.inl hacc.2⟩

end Rules

end ScriptKit.Token
