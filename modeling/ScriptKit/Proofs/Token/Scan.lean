import ScriptKit.Proofs.Token.Munch

namespace ScriptKit.Token

variable {minusIsOperator : Bool} {line : Nat} {done : List Token} {s : List Char}

/-- The text of a list of tokens. -/
def written (tokens : List Token) : List Char :=
  tokens.flatMap (·.text.toList)

@[simp] theorem written_nil : written [] = [] := rfl

@[simp] theorem written_cons (t : Token) (ts : List Token) :
    written (t :: ts) = t.text.toList ++ written ts := rfl

/-- Whether a minus sign after some tokens is an operator, given whether it was one before
them: the last token that is no white space and no comment decides. -/
def operandBefore (minusIsOperator : Bool) (tokens : List Token) : Bool :=
  match (tokens.filter (!·.isBlank)).getLast? with
  | some t => t.kind.endsOperand
  | none => minusIsOperator

@[simp] theorem operandBefore_nil : operandBefore minusIsOperator [] = minusIsOperator := rfl

theorem operandBefore_cons (t : Token) (ts : List Token) :
    operandBefore minusIsOperator (t :: ts) =
      operandBefore (if t.isBlank then minusIsOperator else t.kind.endsOperand) ts := by
  unfold operandBefore
  cases hb : t.isBlank with
  | true => simp [hb]
  | false =>
    rw [List.filter_cons_of_pos (by simp [hb]), List.getLast?_cons]
    cases (ts.filter (!·.isBlank)).getLast? <;> rfl

theorem scanFrom_skip (k : Nat) : ∀ s,
    scanFrom k line minusIsOperator done s = scanFrom 0 line minusIsOperator done (s.drop k) := by
  induction k with
  | zero =>
    intro s
    rw [List.drop_zero]
  | succ k ih =>
    intro s
    cases s with
    | nil => rfl
    | cons c s =>
      rw [scanFrom, List.drop_succ_cons]
      exact ih s

/-- A scan passes over the longest accepted text. -/
theorem scanFrom_token {text rest : List Char} {k : Kind} (hs : s = text ++ rest)
    (h : IsLongest minusIsOperator s text k) :
    scanFrom 0 line minusIsOperator done s =
      scanFrom 0 (line + newlines text)
        (if Token.isBlank ⟨k, String.ofList text, line⟩ then minusIsOperator else k.endsOperand)
        (⟨k, String.ofList text, line⟩ :: done) rest := by
  have hbest : (munch minusIsOperator none [] s).best = some (k, text.length - 1) := by
    rcases munch_spec minusIsOperator s with ⟨hno, -⟩ | ⟨text', k', h', hbest⟩
    · exact absurd hno h.not_unreadable
    · obtain ⟨rfl, rfl⟩ := h.unique h'
      exact hbest
  subst hs
  obtain ⟨c, text, rfl⟩ := List.exists_cons_of_ne_nil h.1
  rw [List.cons_append] at hbest ⊢
  rw [scanFrom]
  simp only [hbest, List.length_cons, Nat.add_sub_cancel, List.take_left]
  rw [scanFrom_skip, List.drop_left]

/-- A scan ends where no rule accepts anything. -/
theorem scanFrom_stuck (hs : s ≠ []) (h : Unreadable minusIsOperator s) :
    ∃ w rest, s = w ++ rest ∧ w ≠ [] ∧ '\n' ∉ w ∧
      scanFrom 0 line minusIsOperator done s =
        ⟨done.reverse, some ⟨String.ofList w, line⟩⟩ := by
  have hbest : (munch minusIsOperator none [] s).best = none := by
    rcases munch_spec minusIsOperator s with ⟨-, hbest⟩ | ⟨text, k, h', -⟩
    · exact hbest
    · exact absurd h h'.not_unreadable
  obtain ⟨w, hw, hne, hwindow⟩ : ∃ w, w <+: s ∧ (s ≠ [] → w ≠ []) ∧
      (munch minusIsOperator none [] s).window = [] ++ w := munch_window s none []
  obtain ⟨c, s, rfl⟩ := List.exists_cons_of_ne_nil hs
  refine ⟨w.takeWhile (· ≠ '\n'), w.dropWhile (· ≠ '\n') ++ (c :: s).drop w.length, ?_, ?_, ?_, ?_⟩
  · obtain ⟨rest, hrest⟩ := hw
    rw [← List.append_assoc, List.takeWhile_append_dropWhile, ← hrest, List.drop_left]
  · -- the window begins with the first character, which is no line break
    obtain ⟨d, w, rfl⟩ := List.exists_cons_of_ne_nil (hne (by simp))
    obtain rfl : d = c := (List.cons_prefix_cons.mp hw).1
    simp [h.head_ne]
  · intro hmem
    simpa using List.mem_takeWhile_imp hmem
  · rw [scanFrom]
    simp only [hbest, hwindow, List.nil_append]

/-- The tokens and the failure of a text: each token is as long as the rules allow, and there is
a failure exactly where they allow none. -/
inductive Scanned : Nat → Bool → List Char → List Token → Option LexError → Prop
  | done (line : Nat) (minusIsOperator : Bool) : Scanned line minusIsOperator [] [] none
  | stuck {line : Nat} {minusIsOperator : Bool} {w rest : List Char} (hne : w ≠ [])
      (hline : '\n' ∉ w) (h : Unreadable minusIsOperator (w ++ rest)) :
      Scanned line minusIsOperator (w ++ rest) [] (some ⟨String.ofList w, line⟩)
  | token {line : Nat} {minusIsOperator : Bool} {text rest : List Char} {k : Kind}
      {ts : List Token} {failure : Option LexError}
      (h : IsLongest minusIsOperator (text ++ rest) text k)
      (hrest : Scanned (line + newlines text)
        (if Token.isBlank ⟨k, String.ofList text, line⟩ then minusIsOperator else k.endsOperand)
        rest ts failure) :
      Scanned line minusIsOperator (text ++ rest) (⟨k, String.ofList text, line⟩ :: ts) failure

theorem scanFrom_scanned (s : List Char) (line : Nat) (minusIsOperator : Bool) (done : List Token) :
    ∃ ts failure, scanFrom 0 line minusIsOperator done s = ⟨done.reverse ++ ts, failure⟩ ∧
      Scanned line minusIsOperator s ts failure := by
  by_cases hs : s = []
  · subst hs
    exact ⟨[], none, by rw [scanFrom, List.append_nil], .done line minusIsOperator⟩
  rcases munch_spec minusIsOperator s with ⟨hno, -⟩ | ⟨text, k, h, -⟩
  · obtain ⟨w, rest, rfl, hne, hline, hscan⟩ := scanFrom_stuck hs hno
    exact ⟨[], _, by rw [hscan, List.append_nil], .stuck hne hline hno⟩
  · obtain ⟨rest, rfl⟩ := h.2.1
    -- the rest is shorter, since a token is not empty
    have hlen : rest.length < (text ++ rest).length := by
      have := List.length_pos_iff.mpr h.1
      rw [List.length_append]
      omega
    obtain ⟨ts, failure, hscan, hrest⟩ := scanFrom_scanned rest (line + newlines text)
      (if Token.isBlank ⟨k, String.ofList text, line⟩ then minusIsOperator else k.endsOperand)
      (⟨k, String.ofList text, line⟩ :: done)
    refine ⟨⟨k, String.ofList text, line⟩ :: ts, failure, ?_, .token h hrest⟩
    rw [scanFrom_token rfl h, hscan]
    simp
termination_by s.length

theorem scan_scanned (source : String) :
    Scanned 1 false source.toList (scan source).tokens (scan source).failure := by
  obtain ⟨ts, failure, hscan, h⟩ := scanFrom_scanned source.toList 1 false []
  rw [scan, hscan]
  exact h

/-- The tokens from one place of the list on are those of the text from their place on. -/
theorem Scanned.drop {ts : List Token} {failure : Option LexError}
    (h : Scanned line minusIsOperator s ts failure) (i : Nat) :
    Scanned (line + newlines (written (ts.take i))) (operandBefore minusIsOperator (ts.take i))
      (s.drop (written (ts.take i)).length) (ts.drop i) failure := by
  induction i generalizing line minusIsOperator s ts with
  | zero => simpa [newlines] using h
  | succ i ih =>
    cases h with
    | done => exact .done _ _
    | stuck hne hline h => exact .stuck hne hline h
    | @token _ _ text rest k ts _ h hrest =>
      have := ih hrest
      rw [List.take_succ_cons, List.drop_succ_cons, operandBefore_cons, written_cons]
      simp only [String.toList_ofList, List.length_append, List.drop_length_add_append, newlines,
        List.count_append, Nat.add_assoc] at this ⊢
      exact this

theorem Scanned.written_eq {ts : List Token} {failure : Option LexError}
    (h : Scanned line minusIsOperator s ts failure) :
    s = written ts ++ s.drop (written ts).length := by
  induction h with
  | done => rfl
  | stuck => rfl
  | @token _ _ text rest k ts _ h hrest ih =>
    rw [written_cons, String.toList_ofList, List.append_assoc, List.length_append,
      List.drop_length_add_append, ← ih]

theorem Scanned.text_ne {ts : List Token} {failure : Option LexError}
    (h : Scanned line minusIsOperator s ts failure) : ∀ t ∈ ts, t.text ≠ "" := by
  induction h with
  | done => simp
  | stuck => simp
  | token h hrest ih =>
    intro t ht
    rcases List.mem_cons.mp ht with rfl | ht
    · simpa using h.1
    · exact ih t ht

theorem Scanned.head {t : Token} {ts : List Token} {failure : Option LexError}
    (h : Scanned line minusIsOperator s (t :: ts) failure) :
    t.line = line ∧ IsLongest minusIsOperator s t.text.toList t.kind := by
  cases h with
  | token h hrest => exact ⟨rfl, by simpa using h⟩

/-- What is left after the last token. -/
theorem Scanned.last {failure : Option LexError} (h : Scanned line minusIsOperator s [] failure) :
    (s = [] ∧ failure = none) ∨ ∃ w rest, s = w ++ rest ∧ w ≠ [] ∧ '\n' ∉ w ∧
      Unreadable minusIsOperator s ∧ failure = some ⟨String.ofList w, line⟩ := by
  cases h with
  | done => exact Or.inl ⟨rfl, rfl⟩
  | stuck hne hline h => exact Or.inr ⟨_, _, rfl, hne, hline, h, rfl⟩

theorem scan_from (source : String) (i : Nat) :
    Scanned (1 + newlines (written ((scan source).tokens.take i)))
      (operandBefore false ((scan source).tokens.take i))
      (source.toList.drop (written ((scan source).tokens.take i)).length)
      ((scan source).tokens.drop i) (scan source).failure :=
  (scan_scanned source).drop i

/-- Scanning loses nothing, and each token and the text of a failure stand on the line that the
text before them ends on. -/
theorem scan_lossless (source : String) :
    (∀ t ∈ (scan source).tokens, t.text ≠ "") ∧
    (∀ before t after, (scan source).tokens = before ++ t :: after →
      written before <+: source.toList ∧ t.line = 1 + newlines (written before)) ∧
    match (scan source).failure with
    | none => written (scan source).tokens = source.toList
    | some e =>
      e.text ≠ "" ∧ '\n' ∉ e.text.toList ∧ e.line = 1 + newlines (written (scan source).tokens) ∧
        ∃ rest, source.toList = written (scan source).tokens ++ e.text.toList ++ rest := by
  have hscanned := scan_scanned source
  refine ⟨hscanned.text_ne, ?_, ?_⟩
  · intro before t after hsplit
    have hfrom := scan_from source before.length
    rw [hsplit, List.take_left, List.drop_left] at hfrom
    have hbegins : written before <+: written (scan source).tokens := by
      rw [hsplit, written, written, List.flatMap_append]
      exact List.prefix_append _ _
    exact ⟨hbegins.trans ⟨_, hscanned.written_eq.symm⟩, hfrom.head.1⟩
  · have hend := scan_from source (scan source).tokens.length
    rw [List.take_length, List.drop_length] at hend
    have heq := hscanned.written_eq
    -- the scan stops at the end or where no token can be read
    rcases hend.last with ⟨hnil, hf⟩ | ⟨w, rest, hw, hne, hline, -, hf⟩
    · rw [hf]
      rw [hnil, List.append_nil] at heq
      exact heq.symm
    · rw [hf]
      refine ⟨by simpa using hne, by simpa using hline, rfl, rest, ?_⟩
      rw [String.toList_ofList, List.append_assoc, ← hw]
      exact heq

/-- Every token is the longest text that a rule accepts where it stands, of the kind that the
earliest such rule gives. A token is made wherever a rule accepts anything; where none does, the
scan fails if any text is left, and is over only if none is. -/
theorem scan_longest (source : String) (i : Nat) :
    let tokens := (scan source).tokens
    let rest := source.toList.drop (written (tokens.take i)).length
    let minusIsOperator := operandBefore false (tokens.take i)
    (∀ t, tokens[i]? = some t → IsLongest minusIsOperator rest t.text.toList t.kind) ∧
    (tokens[i]? = none ↔ Unreadable minusIsOperator rest) ∧
    ((tokens[i]? = none ∧ (scan source).failure.isSome = true) ↔
      (rest ≠ [] ∧ Unreadable minusIsOperator rest)) ∧
    ((tokens[i]? = none ∧ (scan source).failure = none) ↔ rest = []) := by
  intro tokens rest minusIsOperator
  have hfrom : Scanned _ minusIsOperator rest (tokens.drop i) (scan source).failure :=
    scan_from source i
  cases hi : tokens[i]? with
  | some t =>
    obtain ⟨hlt, rfl⟩ := List.getElem?_eq_some_iff.mp hi
    rw [List.drop_eq_getElem_cons hlt] at hfrom
    have hlongest := hfrom.head.2
    have hread := hlongest.not_unreadable
    refine ⟨by rintro _ ⟨⟩; exact hlongest, by simp [hread], by simp [hread], by simp, ?_⟩
    intro hnil
    rw [hnil] at hread
    exact absurd unreadable_nil hread
  | none =>
    rw [List.drop_eq_nil_of_le (List.getElem?_eq_none_iff.mp hi)] at hfrom
    refine ⟨by simp, ?_⟩
    -- nothing is left, or what is left begins with no token
    rcases hfrom.last with ⟨hnil, hf⟩ | ⟨w, after, hw, hne, -, hno, hf⟩
    · simp [hf, hnil, unreadable_nil]
    · have hleft : rest ≠ [] := by simp [hw, hne]
      simp [hf, hleft, hno]

end ScriptKit.Token
