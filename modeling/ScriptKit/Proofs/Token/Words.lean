import ScriptKit.Proofs.Token.Scan
import ScriptKit.Proofs.Tree.Printing
import ScriptKit.Token.Literal

namespace ScriptKit.Token

open ScriptKit.Text

variable {minusIsOperator : Bool} {s : List Char} {c : Char} {k : Kind}

section Heads

theorem fixedTexts_head : ∀ w ∈ fixedTexts,
    (w.toList.head?.all fun c => !isWhite c && c ≠ '"') = true := by
  decide

theorem not_isWhite_of_isDigit (h : isDigit c = true) : isWhite c = false ∧ c ≠ '"' := by
  refine ⟨?_, ?_⟩
  · by_contra hw
    simp only [isWhite, Bool.not_eq_false, Bool.or_eq_true, decide_eq_true_eq] at hw
    rcases hw with (((rfl | rfl) | rfl) | rfl) | rfl <;> cases h
  · rintro rfl
    cases h

theorem not_isWhite_of_isLetter (h : (isLetter c || c = '_') = true) :
    isWhite c = false ∧ c ≠ '"' := by
  refine ⟨?_, ?_⟩
  · by_contra hw
    simp only [isWhite, Bool.not_eq_false, Bool.or_eq_true, decide_eq_true_eq] at hw
    rcases hw with (((rfl | rfl) | rfl) | rfl) | rfl <;> cases h
  · rintro rfl
    cases h

theorem isNumber_head (h : isNumber (c :: s) = true) : isDigit c = true ∨ c = '-' := by
  by_cases hc : c = '-'
  · exact Or.inr hc
  · left
    have hu : unsigned (c :: s) = c :: s := by simp [unsigned, hc]
    rcases isNumber_iff.mp h with ⟨-, hd⟩ | ⟨ds, fs, hs, ⟨hne, hd⟩, -⟩
    · exact hd c (by simp [hu])
    · obtain ⟨d, ds, rfl⟩ := List.exists_cons_of_ne_nil hne
      rw [hu, List.cons_append, List.cons.injEq] at hs
      exact hs.1 ▸ hd d List.mem_cons_self

theorem foldl_next_broken (s : List Char) : s.foldl StringState.next .broken = .broken := by
  induction s with
  | nil => rfl
  | cons c s ih => exact ih

theorem stringState_cons_ne (h : c ≠ '"') (s : List Char) : stringState (c :: s) = .broken := by
  have hfirst : StringState.next .unopened c = .broken := if_neg h
  rw [stringState, List.foldl_cons, hfirst, foldl_next_broken]

/-- Only white space begins with a white character and only a string with a quote. -/
theorem rule_of_head {r : Rule} (hr : r ∈ rules) (h : r.full (c :: s) = true) :
    (isWhite c = true → r.full = isWhitespace ∧ r.kind = .whitespace) ∧
    (c = '"' → r.full = (fun s => stringState s = .closed) ∧ r.kind = .string) := by
  have hneither : isWhite c = false ∧ c ≠ '"' →
      (isWhite c = true → r.full = isWhitespace ∧ r.kind = .whitespace) ∧
      (c = '"' → r.full = (fun s => stringState s = .closed) ∧ r.kind = .string) := by
    rintro ⟨hw, hq⟩
    exact ⟨fun hw' => (Bool.eq_false_iff.mp hw hw').elim, fun hq' => absurd hq' hq⟩
  -- a token begins with a white space or a quote only by the rule for these
  rcases rules_cases hr with ⟨words, more, hfixed, hfull, -⟩ | rfl | rfl | rfl | rfl | rfl
  · rw [hfull, oneOf, List.any_eq_true] at h
    obtain ⟨w, hw, he⟩ := h
    have hhead := fixedTexts_head w (hfixed w (List.mem_append_left _ hw))
    rw [of_decide_eq_true he] at hhead
    exact hneither (by simpa using hhead)
  · by_cases hc : c = '#'
    · subst hc
      exact hneither (by decide)
    · simp [isComment, hc] at h
  · rcases isNumber_head h with hc | rfl
    · exact hneither (not_isWhite_of_isDigit hc)
    · exact hneither (by decide)
  · refine ⟨fun hw => ?_, fun _ => ⟨rfl, rfl⟩⟩
    by_cases hq : c = '"'
    · subst hq
      cases hw
    · dsimp only at h
      rw [stringState_cons_ne hq] at h
      cases h
  · simp only [isIdentifier, Bool.and_eq_true] at h
    exact hneither (not_isWhite_of_isLetter h.1)
  · refine ⟨fun _ => ⟨rfl, rfl⟩, ?_⟩
    rintro rfl
    simp [isWhitespace, isWhite] at h

/-- A word is a token that is neither white space nor a comment. -/
structure IsWord (minusIsOperator : Bool) (w : Word) : Prop where
  full : fullKind minusIsOperator w.text.toList = some w.kind
  kind : w.kind ≠ .whitespace ∧ w.kind ≠ .comment

variable {w : Word}

theorem IsWord.rule (h : IsWord minusIsOperator w) :
    ∃ r ∈ rules, r.kind = w.kind ∧ r.full w.text.toList = true := by
  obtain ⟨earlier, r, later, hsplit, hacc, hk, -⟩ := fullKind_eq_some_iff.mp h.full
  exact ⟨r, by simp [hsplit], hk, hacc.2⟩

theorem fullKind_nil (minusIsOperator : Bool) : fullKind minusIsOperator [] = none := by
  cases minusIsOperator <;> rfl

/-- The first character of a word. -/
theorem IsWord.head (h : IsWord minusIsOperator w) :
    ∃ c s, w.text.toList = c :: s ∧ isWhite c = false := by
  obtain ⟨r, hr, hk, hfull⟩ := h.rule
  cases hs : w.text.toList with
  | nil =>
    have hnone := h.full
    rw [hs, fullKind_nil] at hnone
    cases hnone
  | cons c s =>
    refine ⟨c, s, rfl, ?_⟩
    rw [hs] at hfull
    by_contra hw
    have hwhite := (rule_of_head hr hfull).1 (Bool.not_eq_false _ ▸ hw)
    exact h.kind.1 (hk.symm.trans hwhite.2)

/-- Only a negative number depends on what is before it. -/
theorem IsWord.anywhere (h : IsWord false w)
    (hw : w.kind = .number → w.text.toList.head? ≠ some '-') (minusIsOperator : Bool) :
    IsWord minusIsOperator w := by
  refine ⟨fullKind_eq_some_iff.mpr ?_, h.kind⟩
  obtain ⟨earlier, r, later, hsplit, hacc, hk, hno⟩ := fullKind_eq_some_iff.mp h.full
  refine ⟨earlier, r, later, hsplit, ⟨?_, hacc.2⟩, hk, ?_⟩
  · by_cases hnumber : r.kind = .number
    · simp [Rule.applies, hw (hk ▸ hnumber)]
    · exact applies_of_kind hnumber
  · intro r' hr' hacc'
    exact hno r' hr' ⟨by simp [Rule.applies], hacc'.2⟩

theorem isWord_of (minusIsOperator : Bool) {k : Kind} (hk : (Word.of k).text ≠ "") :
    IsWord minusIsOperator (Word.of k) := by
  cases k <;> first
    | exact absurd rfl hk
    | exact ⟨by cases minusIsOperator <;> decide, by decide⟩

theorem isWord_keyword (minusIsOperator : Bool) {x : String}
    (hx : x ∈ ["let", "func", "if", "else", "while", "class"]) :
    IsWord minusIsOperator (Word.keyword x) := by
  simp only [List.mem_cons, List.not_mem_nil, or_false] at hx
  rcases hx with rfl | rfl | rfl | rfl | rfl | rfl <;>
    exact ⟨by cases minusIsOperator <;> decide, by decide⟩

theorem fixedTexts_space : ∀ w ∈ fixedTexts, ' ' ∉ w.toList := by
  decide

theorem oneOf_space {words : List String} (hwords : ∀ w ∈ words, w ∈ fixedTexts) :
    oneOf words (s ++ [' ']) = false := by
  rw [Bool.eq_false_iff]
  intro h
  rw [oneOf, List.any_eq_true] at h
  obtain ⟨w, hw, he⟩ := h
  refine fixedTexts_space w (hwords w hw) ?_
  rw [of_decide_eq_true he]
  simp

theorem number_space (hne : s ≠ []) :
    isNumber (s ++ [' ']) = false ∧ isNumberStart (s ++ [' ']) = false := by
  -- the unsigned text ends with the space too, which is no digit
  have hspace : ∀ {ds}, unsigned s ++ [' '] = ds → (∀ d ∈ ds, isDigit d = true) → False := by
    rintro ds rfl hd
    exact absurd (hd ' ' (by simp)) (by decide)
  constructor
  · rw [Bool.eq_false_iff]
    intro h
    rw [isNumber_iff, unsigned_append hne] at h
    rcases h with ⟨-, hd⟩ | ⟨ds, fs, hs, -, hne', hfs⟩
    · exact hspace rfl hd
    · rcases append_singleton_eq hs with ⟨rfl, -⟩ | ⟨gs, rfl, -⟩
      · exact hne' rfl
      · exact absurd (hfs ' ' (by simp)) (by decide)
  · rw [Bool.eq_false_iff]
    intro h
    rw [isNumberStart_iff, unsigned_append hne] at h
    rcases h with h | ⟨ds, hs, -⟩
    · cases s with
      | nil => exact hne rfl
      | cons c s => simp at h
    · have hlast := (List.append_inj' hs rfl).2
      simp at hlast

/-- A word does not go on with a space. -/
theorem IsWord.not_viable (h : IsWord minusIsOperator w) :
    isViable minusIsOperator (w.text.toList ++ [' ']) = false := by
  obtain ⟨c, s, hs, hwhite⟩ := h.head
  have hne : w.text.toList ≠ [] := by simp [hs]
  rw [Bool.eq_false_iff]
  intro hviable
  obtain ⟨r, hr, -, hor⟩ := isViable_iff.mp hviable
  rcases rules_cases hr with ⟨words, more, hfixed, hfull, hgrow⟩ | rfl | rfl | rfl | rfl | rfl
  · have hwords : ∀ w ∈ words, w ∈ fixedTexts := fun w hw => hfixed w (List.mem_append_left _ hw)
    have hmore : ∀ w ∈ more, w ∈ fixedTexts := fun w hw => hfixed w (List.mem_append_right _ hw)
    rw [hfull, oneOf_space hwords] at hor
    rcases hgrow with hgrow | hgrow
    · rw [hgrow, oneOf_space hmore] at hor
      simp at hor
    · rw [hgrow] at hor
      simp at hor
  · -- what goes on as a comment is a comment already
    have hcomment : isComment w.text.toList = true := by
      rcases hor with hor | hor
      · exact isComment_dropLast hne hor
      · cases hor
    refine h.kind.2 (Option.some.inj ?_)
    rw [← h.full]
    simp [fullKind, rules, Rule.applies, hcomment]
  · dsimp only at hor
    rw [(number_space hne).1, (number_space hne).2] at hor
    simp at hor
  · -- what goes on as a string is an open one, but only a closed one is a word
    obtain ⟨r', hr', -, hfull⟩ := h.rule
    have hopen := string_open_dropLast (c := ' ') hne (fun hb => by simp [hb] at hor)
    have hquote : c = '"' := by
      by_contra hq
      rw [hs, stringState_cons_ne hq] at hopen
      simp at hopen
    rw [hs] at hfull
    rw [((rule_of_head hr' hfull).2 hquote).1, ← hs] at hfull
    rcases hopen with hopen | hopen <;> simp [hopen] at hfull
  · rcases hor with hor | hor
    · dsimp only at hor
      rw [hs, List.cons_append, isIdentifier, Bool.and_eq_true, List.all_append] at hor
      simp [isWordChar, isLetter, isDigit] at hor
    · cases hor
  · rcases hor with hor | hor
    · dsimp only at hor
      simp [hs, isWhitespace, hwhite] at hor
    · cases hor

end Heads

section Quoted

open Word (quoted)

theorem foldl_next_escaped (c : Char) :
    (quoted.escaped c).foldl StringState.next .inside = .inside := by
  unfold quoted.escaped
  split
  · rename_i hc
    rcases hc with rfl | rfl <;> rfl
  · rename_i hc
    simp only [not_or] at hc
    simp [StringState.next, hc.1, hc.2]

/-- What is written piece by piece inside of a literal, each piece ending inside of it, is a closed
literal between quotes. -/
theorem stringState_pieces {f : Char → List Char}
    (hf : ∀ c, (f c).foldl StringState.next .inside = .inside) (s : List Char) :
    stringState ('"' :: s.flatMap f ++ ['"']) = .closed := by
  have hinside : (s.flatMap f).foldl StringState.next .inside = .inside := by
    induction s with
    | nil => rfl
    | cons c s ih => rw [List.flatMap_cons, List.foldl_append, hf, ih]
  have hopen : StringState.next .unopened '"' = .inside := rfl
  rw [stringState, List.cons_append, List.foldl_cons, List.foldl_append, hopen, hinside]
  rfl

theorem stringState_quoted (x : String) : stringState (quoted x).text.toList = .closed := by
  rw [quoted, String.toList_ofList, stringState_pieces foldl_next_escaped]

/-- A closed text is a string literal, since no other rule accepts what begins with a quote. -/
theorem fullKind_closed (h : stringState s = .closed) :
    fullKind minusIsOperator s = some .string := by
  have haccepted : Accepted minusIsOperator s :=
    ⟨{ kind := .string
       full := fun s => stringState s = .closed
       growing := fun s => stringState s = .inside || stringState s = .escape },
      by simp [rules], applies_of_kind (by simp), by simpa using h⟩
  obtain ⟨k, hk⟩ := Option.isSome_iff_exists.mp (accepted_iff.mp haccepted)
  obtain ⟨earlier, r, later, hsplit, hacc, rfl, -⟩ := fullKind_eq_some_iff.mp hk
  cases s with
  | nil => cases h
  | cons c s =>
    have hquote : c = '"' := by
      by_contra hne
      rw [stringState_cons_ne hne] at h
      cases h
    rw [hk, ((rule_of_head (by simp [hsplit]) hacc.2).2 hquote).2]

theorem isWord_quoted (minusIsOperator : Bool) (x : String) :
    IsWord minusIsOperator (quoted x) :=
  ⟨fullKind_closed (stringState_quoted x), by simp [quoted]⟩

theorem stripQuotes_quoted (s : List Char) : stripQuotes ('"' :: s ++ ['"']) = s := by
  cases s with
  | nil => rfl
  | cons c s =>
    have hsplit : '"' :: (c :: s) ++ ['"'] = '"' :: c :: (s ++ ['"']) := rfl
    rw [hsplit, stripQuotes, ← List.cons_append, List.getLast?_concat, if_pos rfl,
      List.dropLast_concat]

theorem unescape_escaped (s : List Char) : unescape (s.flatMap quoted.escaped) = s := by
  induction s with
  | nil => rfl
  | cons c s ih =>
    rw [List.flatMap_cons, quoted.escaped]
    split
    · rename_i hc
      rcases hc with rfl | rfl <;> simp [unescape, ih]
    · rename_i hc
      simp only [not_or] at hc
      simp [unescape, hc.2, ih]

theorem unquote_quoted (x : String) : unquote (quoted x).text = x := by
  rw [unquote, quoted, String.toList_ofList, stripQuotes_quoted, unescape_escaped,
    String.ofList_toList]

end Quoted

section Spaced

/-- A word before a space is the longest token there. -/
theorem IsWord.isLongest (h : IsWord minusIsOperator w) (rest : List Char) :
    IsLongest minusIsOperator (w.text.toList ++ ' ' :: rest) w.text.toList w.kind := by
  obtain ⟨c, s, hs, -⟩ := h.head
  refine ⟨by simp [hs], List.prefix_append _ _, fullKind_eq_some_iff.mp h.full, ?_⟩
  intro p hp hacc
  by_contra hlt
  -- a longer token would begin with the word and the space
  have hbegins : w.text.toList ++ [' '] <+: p := by
    refine List.prefix_of_prefix_length_le ⟨rest, by simp⟩ hp ?_
    simp only [List.length_append, List.length_singleton]
    omega
  rw [accepted_iff] at hacc
  obtain ⟨k, hk⟩ := Option.isSome_iff_exists.mp hacc
  have hviable := isViable_of_begins (by simp) hbegins (isViable_of_fullKind hk)
  rw [h.not_viable] at hviable
  cases hviable

/-- A single space is a token where no white space follows. -/
theorem isLongest_space {rest : List Char} (hrest : ∀ c ∈ rest.head?, isWhite c = false) :
    IsLongest minusIsOperator (' ' :: rest) [' '] .whitespace := by
  have hkind : fullKind minusIsOperator [' '] = some .whitespace := by
    cases minusIsOperator <;> decide
  refine ⟨by simp, ⟨rest, rfl⟩, fullKind_eq_some_iff.mp hkind, ?_⟩
  rintro p hp ⟨r, hr, -, hfull⟩
  rcases prefix_cons_iff.mp hp with rfl | ⟨q, rfl, hq⟩
  · simp
  cases q with
  | nil => simp
  | cons d q =>
    rw [((rule_of_head hr hfull).1 (by decide)).1] at hfull
    have hd : isWhite d = true := by
      simp only [isWhitespace, List.all_cons, Bool.and_eq_true] at hfull
      exact hfull.2.2.1
    obtain ⟨tail, rfl⟩ := hq
    have hno := hrest d (by simp)
    rw [hno] at hd
    cases hd

/-- Words that can be told apart when they stand one after the other. -/
def Clear : Bool → List Word → Prop
  | _, [] => True
  | minusIsOperator, w :: ws => IsWord minusIsOperator w ∧ Clear w.kind.endsOperand ws

/-- Whether a minus sign after some words is an operator. -/
def minusAfter : Bool → List Word → Bool
  | minusIsOperator, [] => minusIsOperator
  | _, w :: ws => minusAfter w.kind.endsOperand ws

@[simp] theorem clear_append {ws ws' : List Word} : Clear minusIsOperator (ws ++ ws') ↔
    Clear minusIsOperator ws ∧ Clear (minusAfter minusIsOperator ws) ws' := by
  induction ws generalizing minusIsOperator with
  | nil => simp [Clear, minusAfter]
  | cons w ws ih => simp [Clear, minusAfter, ih, and_assoc]

@[simp] theorem minusAfter_append (ws ws' : List Word) : minusAfter minusIsOperator (ws ++ ws') =
    minusAfter (minusAfter minusIsOperator ws) ws' := by
  induction ws generalizing minusIsOperator with
  | nil => rfl
  | cons w ws ih => exact ih

/-- The words of the tokens that matter to the grammar. -/
def words (tokens : List Token) : List Word :=
  (tokens.filter fun t => !t.isBlank).map fun t => ⟨t.kind, t.text⟩

theorem words_cons (t : Token) (ts : List Token) :
    words (t :: ts) = if t.isBlank then words ts else ⟨t.kind, t.text⟩ :: words ts := by
  cases h : t.isBlank <;> simp [words, h]

theorem IsWord.isBlank (h : IsWord minusIsOperator w) (line : Nat) :
    Token.isBlank ⟨w.kind, w.text, line⟩ = false := by
  simp [Token.isBlank, h.kind]

theorem words_cons_space (h : IsWord minusIsOperator w) (line line' : Nat) (tokens : List Token) :
    words (⟨w.kind, w.text, line⟩ :: ⟨.whitespace, " ", line'⟩ :: tokens) = w :: words tokens := by
  rw [words_cons, words_cons, h.isBlank]
  rfl

/-- A scan passes over a word and the space after it. -/
theorem scanFrom_word {line : Nat} {done : List Token} {rest : List Char}
    (h : IsWord minusIsOperator w) (hrest : ∀ c ∈ rest.head?, isWhite c = false) :
    scanFrom 0 line minusIsOperator done (w.text.toList ++ ' ' :: rest) =
      scanFrom 0 (line + newlines w.text.toList + newlines [' ']) w.kind.endsOperand
        (⟨.whitespace, " ", line + newlines w.text.toList⟩ :: ⟨w.kind, w.text, line⟩ :: done)
        rest := by
  have hword := @scanFrom_token minusIsOperator line done _ _ _ _ rfl (h.isLongest rest)
  have hspace : ∀ {line done b}, scanFrom 0 line b done (' ' :: rest) =
      scanFrom 0 (line + newlines [' ']) b (⟨.whitespace, " ", line⟩ :: done) rest := by
    intro line done b
    exact scanFrom_token rfl (isLongest_space hrest)
  rw [hword, String.ofList_toList, h.isBlank, if_neg Bool.false_ne_true, hspace]

theorem scanFrom_spaced (ws : List Word) : ∀ {minusIsOperator line done},
    Clear minusIsOperator ws → ∃ tokens,
      scanFrom 0 line minusIsOperator done (Word.spaced ws) = ⟨done.reverse ++ tokens, none⟩ ∧
      words tokens = ws := by
  induction ws with
  | nil =>
    intro minusIsOperator line done _
    exact ⟨[], by simp [Word.spaced, scanFrom], rfl⟩
  | cons w ws ih =>
    rintro minusIsOperator line done ⟨hw, hclear⟩
    -- the space ends the word, since no further one follows it
    have hspace : ∀ c ∈ (Word.spaced ws).head?, isWhite c = false := by
      intro c hc
      cases ws with
      | nil => cases hc
      | cons v ws =>
        obtain ⟨d, s, hs, hd⟩ := hclear.1.head
        have : c = d := by simpa [Word.spaced, hs, eq_comm] using hc
        rwa [this]
    have hsplit : Word.spaced (w :: ws) = w.text.toList ++ ' ' :: Word.spaced ws := by
      simp [Word.spaced]
    obtain ⟨tokens, hscan, hwords⟩ := ih hclear
    refine ⟨_, ?_, (words_cons_space hw line (line + newlines w.text.toList) tokens).trans ?_⟩
    · rw [hsplit, scanFrom_word hw hspace, hscan]
      simp
    · rw [hwords]

/-- Words that can be told apart are the tokens of their text. -/
theorem scan_spaced {ws : List Word} (h : Clear false ws) :
    (scan (String.ofList (Word.spaced ws))).failure = none ∧
      words (scan (String.ofList (Word.spaced ws))).tokens = ws := by
  obtain ⟨tokens, hscan, hwords⟩ := scanFrom_spaced ws h
  rw [scan, String.toList_ofList, hscan]
  exact ⟨rfl, hwords⟩

end Spaced

end ScriptKit.Token
