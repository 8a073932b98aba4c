import ScriptKit.Proofs.Grammar.Lexemes
import ScriptKit.Proofs.Grammar.Meaning
import ScriptKit.Proofs.Tree.Lines

namespace ScriptKit.Grammar

open Tree

variable {tokens : Array Token} {pos m next : Nat} {t : Tree} {us vs : List Tree}

/-- What trees of the grammar stand for, wherever they are in the text. -/
def meanings (ts : List Tree) : List Tree :=
  (meaningAll ts).map withoutLines

theorem meanings_append (ts us : List Tree) : meanings (ts ++ us) = meanings ts ++ meanings us := by
  induction ts with
  | nil => rfl
  | cons t ts ih =>
    rw [List.cons_append]
    unfold meanings at ih ⊢
    rw [meaningAll, meaningAll]
    split
    · exact ih
    · rw [List.map_cons, ih, List.map_cons, List.cons_append]

theorem meanings_one (h : t.isSeparator = false) : meanings [t] = [t.meaning.withoutLines] := by
  rw [meanings, meaningAll, h]
  rfl

/-- What a single token stands for. -/
def mark (τ : Token) : Tree :=
  (terminal τ).meaning.withoutLines

/-- A production reads parts of a program from one position to another. -/
def Gives (tokens : Array Token) (p : Production) (pos : Nat) (us : List Tree) (next : Nat) : Prop :=
  ∃ ts, (readProduction tokens (reading tokens) p pos).outcome = .matched ts next ∧ meanings ts = us

/-- Productions one after the other read parts of a program. -/
def GivesAll (tokens : Array Token) (parts : List Production) (pos : Nat) (us : List Tree)
    (next : Nat) : Prop :=
  ∃ ts, (readParts tokens (reading tokens) parts pos).outcome = .matched ts next ∧ meanings ts = us

/-- The first alternative that matches reads parts of a program. -/
def GivesOne (tokens : Array Token) (alternatives : List (List Production)) (pos : Nat)
    (us : List Tree) (next : Nat) : Prop :=
  ∃ ts, (readChoice tokens (reading tokens) alternatives pos).outcome = .matched ts next ∧
    meanings ts = us

/-- A rule reads one part of a program. -/
def Reads (tokens : Array Token) (r : Rule) (pos : Nat) (t : Tree) (next : Nat) : Prop :=
  ∃ raw, (reading tokens r pos).outcome = .matched [raw] next ∧ raw.meaning.withoutLines = t

/-- An alternative does not match. -/
def Fails (tokens : Array Token) (parts : List Production) (pos : Nat) : Prop :=
  (readParts tokens (reading tokens) parts pos).outcome = .failed

section Parts

variable {p : Production} {parts : List Production} {alternatives : List (List Production)}
  {r : Rule} {τ : Token}

theorem givesAll_nil : GivesAll tokens [] pos [] pos :=
  ⟨[], parts_nil_matched_iff.mpr ⟨rfl, rfl⟩, rfl⟩

theorem Gives.then (h : Gives tokens p pos us m) (h' : GivesAll tokens parts m vs next) :
    GivesAll tokens (p :: parts) pos (us ++ vs) next := by
  obtain ⟨ts, hread, rfl⟩ := h
  obtain ⟨ts', hread', rfl⟩ := h'
  exact ⟨ts ++ ts', parts_cons_matched_iff.mpr ⟨ts, m, ts', hread, hread', rfl⟩,
    meanings_append ts ts'⟩

theorem GivesAll.here (h : GivesAll tokens parts pos us next) :
    GivesOne tokens (parts :: alternatives) pos us next := by
  obtain ⟨ts, hread, hmeans⟩ := h
  exact ⟨ts, choice_here hread, hmeans⟩

theorem GivesOne.there (hfails : Fails tokens parts pos)
    (h : GivesOne tokens alternatives pos us next) :
    GivesOne tokens (parts :: alternatives) pos us next := by
  obtain ⟨ts, hread, hmeans⟩ := h
  exact ⟨ts, choice_next hfails hread, hmeans⟩

theorem GivesOne.choice (h : GivesOne tokens alternatives pos us next) :
    Gives tokens (.choice alternatives) pos us next := by
  obtain ⟨ts, hread, hmeans⟩ := h
  exact ⟨ts, choice_matched_iff.mpr hread, hmeans⟩

theorem Reads.gives (h : Reads tokens r pos t next) : Gives tokens (.rule r) pos [t] next := by
  obtain ⟨raw, hread, rfl⟩ := h
  obtain ⟨raw', hraw, heq⟩ := readRule_raw _ r hread
  obtain rfl : raw = raw' := by simpa using heq
  exact ⟨[raw], rule_matched_iff.mpr hread, meanings_one hraw.isSeparator⟩

theorem Gives.reads (h : Gives tokens (.rule r) pos [t] next) : Reads tokens r pos t next := by
  obtain ⟨ts, hread, hmeans⟩ := h
  rw [rule_matched_iff] at hread
  obtain ⟨raw, hraw, rfl⟩ := readRule_raw _ r hread
  rw [meanings_one hraw.isSeparator] at hmeans
  exact ⟨raw, hread, by simpa using hmeans⟩

/-- A rule reads what its production does. -/
theorem reads_of_production (h : Gives tokens (production r) pos [t] next) :
    Reads tokens r pos t next := by
  obtain ⟨ts, hread, hmeans⟩ := h
  rw [← reading_eq] at hread
  exact Gives.reads ⟨ts, rule_matched_iff.mpr hread, hmeans⟩

/-- The next token at a position is of a kind and a text. -/
def TokenAt (tokens : Array Token) (pos : Nat) (kind : Token.Kind) (text : String) : Prop :=
  ∃ τ, tokenAt? tokens pos = some τ ∧ τ.kind = kind ∧ τ.text = text

theorem At.tokenAt {kind : Token.Kind} (h : At tokens kind pos) : ∃ x, TokenAt tokens pos kind x := by
  obtain ⟨τ, hτ, hk, -⟩ := nextIs_iff.mp h
  exact ⟨τ.text, τ, hτ, hk, rfl⟩

theorem TokenAt.at {kind : Token.Kind} {x : String} (h : TokenAt tokens pos kind x) :
    At tokens kind pos := by
  obtain ⟨τ, hτ, hk, -⟩ := h
  exact nextIs_iff.mpr ⟨τ, hτ, hk, by simp⟩

theorem TokenAt.nextIs_iff {kind k : Token.Kind} {x : String} (h : TokenAt tokens pos kind x)
    (text : Option String) :
    nextIs k text (tokenAt? tokens pos) = true ↔ kind = k ∧ ∀ w, text = some w → w = x := by
  obtain ⟨τ, hτ, rfl, rfl⟩ := h
  rw [Grammar.nextIs_iff, hτ]
  simp

theorem TokenAt.not_kind {kind k : Token.Kind} {x : String} {text : Option String}
    (h : TokenAt tokens pos kind x) (hne : kind ≠ k) :
    nextIs k text (tokenAt? tokens pos) = false := by
  rw [Bool.eq_false_iff, ne_eq, h.nextIs_iff]
  exact fun hcontra => hne hcontra.1

theorem TokenAt.not_text {kind k : Token.Kind} {x w : String} (h : TokenAt tokens pos kind x)
    (hne : w ≠ x) : nextIs k (some w) (tokenAt? tokens pos) = false := by
  rw [Bool.eq_false_iff, ne_eq, h.nextIs_iff]
  exact fun hcontra => hne (hcontra.2 w rfl)

/-- What a token stands for does not depend on its line. -/
theorem mark_of_line (τ : Token) : mark τ = mark ⟨τ.kind, τ.text, 0⟩ := by
  obtain ⟨kind, x, line⟩ := τ
  cases kind <;> rfl

/-- A token that leaves a trace. -/
theorem TokenAt.gives {kind : Token.Kind} {x : String} {text : Option String}
    (h : TokenAt tokens pos kind x) (htext : ∀ w, text = some w → w = x)
    (hsep : kind ≠ .comma ∧ kind ≠ .semicolon) :
    Gives tokens (.token kind text) pos [mark ⟨kind, x, 0⟩] (after tokens pos) := by
  have hnext := (h.nextIs_iff text).mpr ⟨rfl, htext⟩
  obtain ⟨τ, hτ, rfl, rfl⟩ := h
  have hone : (terminal τ).isSeparator = false := by
    obtain ⟨kind, x, line⟩ := τ
    obtain ⟨hcomma, hsemicolon⟩ := hsep
    cases kind <;> first | rfl | contradiction
  rw [hτ] at hnext
  refine ⟨[terminal τ], token_matched_iff.mpr ⟨τ, hτ, hnext, rfl, rfl⟩, ?_⟩
  rw [meanings_one hone, ← mark_of_line]
  rfl

/-- A comma or a semicolon leaves no trace. -/
theorem TokenAt.separator {kind : Token.Kind} {x : String} (h : TokenAt tokens pos kind x)
    (hsep : kind = .comma ∨ kind = .semicolon) :
    Gives tokens (punct kind) pos [] (after tokens pos) := by
  obtain ⟨τ, hτ, rfl, rfl⟩ := h
  have hnone : (terminal τ).isSeparator = true := by
    rw [terminal]
    rcases hsep with h | h <;> rw [h] <;> rfl
  refine ⟨[terminal τ], token_matched_iff.mpr ⟨τ, hτ, by simp [accepts], rfl, rfl⟩, ?_⟩
  rw [meanings, meaningAll, hnone]
  rfl

/-- A token and what is after it. -/
theorem TokenAt.then {kind : Token.Kind} {x : String} (h : TokenAt tokens pos kind x)
    (hsep : kind ≠ .comma ∧ kind ≠ .semicolon)
    (h' : GivesAll tokens parts (after tokens pos) vs next) :
    GivesAll tokens (punct kind :: parts) pos (mark ⟨kind, x, 0⟩ :: vs) next :=
  (h.gives (by simp) hsep).then h'

/-- A word of the grammar and what is after it. -/
theorem TokenAt.word {kind : Token.Kind} {x : String} (h : TokenAt tokens pos kind x)
    (hsep : kind ≠ .comma ∧ kind ≠ .semicolon)
    (h' : GivesAll tokens parts (after tokens pos) vs next) :
    GivesAll tokens (.token kind (some x) :: parts) pos (mark ⟨kind, x, 0⟩ :: vs) next :=
  (h.gives (by simp) hsep).then h'

theorem Reads.then (h : Reads tokens r pos t m) (h' : GivesAll tokens parts m vs next) :
    GivesAll tokens (.rule r :: parts) pos (t :: vs) next :=
  h.gives.then h'

theorem fails_of_start (h : partsStart (tokenAt? tokens pos) parts = false) :
    Fails tokens parts pos :=
  readParts_failed h

/-- An alternative fails where its second part does. -/
theorem Reads.fails_token {kind : Token.Kind} {text : Option String} (h : Reads tokens r pos t m)
    (hno : nextIs kind text (tokenAt? tokens m) = false) :
    Fails tokens (.rule r :: .token kind text :: parts) pos := by
  obtain ⟨raw, hread, -⟩ := h
  exact parts_failed_after_rule hread (parts_failed_of_token hno)

theorem Gives.optional (h : Gives tokens p pos us next) : Gives tokens (.optional p) pos us next := by
  obtain ⟨ts, hread, hmeans⟩ := h
  exact ⟨ts, optional_matched_iff.mpr (Or.inl hread), hmeans⟩

theorem gives_optional_none
    (h : (readProduction tokens (reading tokens) p pos).outcome = .failed) :
    Gives tokens (.optional p) pos [] pos :=
  ⟨[], optional_matched_iff.mpr (Or.inr ⟨h, rfl, rfl⟩), rfl⟩

/-- A round more makes no difference where the rounds are enough. -/
theorem readMany_succ {step : Nat → Attempt} (hstep : ∀ q, (step q).Proper tokens q true)
    (rounds : Nat) : ∀ q, tokens.size + 1 - q ≤ rounds → 0 < rounds →
    readMany step (rounds + 1) q = readMany step rounds q := by
  induction rounds with
  | zero => intro q _ h; omega
  | succ rounds ih =>
    intro q hle _
    rw [readMany, readMany]
    cases h : (step q).outcome with
    | exhausted => rfl
    | failed => rfl
    | matched ts n =>
      have hlt := (hstep q).moves h rfl
      have hin := (hstep q).inside h
      simp only
      rw [ih n (by omega) (by omega)]

theorem gives_many_none (h : Fails tokens parts pos) : Gives tokens (.many parts) pos [] pos := by
  refine ⟨[], ?_, rfl⟩
  simp only [readProduction, readMany, show (readParts tokens (reading tokens) parts pos).outcome =
    .failed from h]

theorem parts_proper (hd : partsDescend 10 parts = true) (q : Nat) :
    (readParts tokens (reading tokens) parts q).Proper tokens q (partsTake parts) :=
  (readParts_proper parts 10 q hd fun r q' _ => ⟨rfl, reading_proper r q'⟩).2

theorem many_parts_proper (hd : (Production.many parts).descends 10 = true) (q : Nat) :
    (readParts tokens (reading tokens) parts q).Proper tokens q true := by
  rw [Production.descends, Bool.and_eq_true] at hd
  rw [← hd.2]
  exact parts_proper hd.1 q

/-- One more repetition, as it is read. -/
theorem many_more (hd : (Production.many parts).descends 10 = true)
    (h : (readParts tokens (reading tokens) parts pos).outcome = .matched us m)
    (h' : (readProduction tokens (reading tokens) (.many parts) m).outcome = .matched vs next) :
    (readProduction tokens (reading tokens) (.many parts) pos).outcome =
      .matched (us ++ vs) next := by
  have hproper : ∀ q, (readParts tokens (reading tokens) parts q).Proper tokens q true :=
    many_parts_proper hd
  have hlt := (hproper pos).moves h rfl
  have hin := (hproper pos).inside h
  simp only [readProduction] at h' ⊢
  rw [readMany_succ hproper tokens.size m (by omega) (by omega)] at h'
  rw [readMany]
  simp only [h]
  rw [if_neg (by omega), Attempt.outcome_reaching, Attempt.outcome_map_eq_matched]
  exact ⟨vs, h', rfl⟩

/-- A repetition takes nothing or begins with its parts. -/
theorem many_matched_iff (hd : (Production.many parts).descends 10 = true) :
    (readProduction tokens (reading tokens) (.many parts) pos).outcome = .matched us next ↔
      ((readParts tokens (reading tokens) parts pos).outcome = .failed ∧ us = [] ∧ next = pos) ∨
        ∃ ts m vs, (readParts tokens (reading tokens) parts pos).outcome = .matched ts m ∧ pos < m ∧
          (readProduction tokens (reading tokens) (.many parts) m).outcome = .matched vs next ∧
          us = ts ++ vs := by
  constructor
  · intro h
    -- a round takes a token, so the rounds left are enough for the tokens left
    have hproper : ∀ q, (readParts tokens (reading tokens) parts q).Proper tokens q true :=
      many_parts_proper hd
    simp only [readProduction] at h ⊢
    rw [readMany] at h
    cases ho : (readParts tokens (reading tokens) parts pos).outcome with
    | exhausted => exact absurd ho (hproper pos).decided
    | failed =>
      simp only [ho] at h
      cases h
      exact Or.inl ⟨rfl, rfl, rfl⟩
    | matched ts m =>
      have hlt := (hproper pos).moves ho rfl
      have hin := (hproper pos).inside ho
      simp only [ho] at h
      rw [if_neg (by omega), Attempt.outcome_reaching, Attempt.outcome_map_eq_matched,
        ← readMany_succ hproper tokens.size m (by omega) (by omega)] at h
      obtain ⟨vs, h, rfl⟩ := h
      exact Or.inr ⟨ts, m, vs, rfl, hlt, h, rfl⟩
  · rintro (⟨h, rfl, rfl⟩ | ⟨ts, m, vs, h, -, h', rfl⟩)
    · exact many_of_failed h
    · exact many_more hd h h'

/-- One more repetition. -/
theorem GivesAll.many (hd : (Production.many parts).descends 10 = true)
    (h : GivesAll tokens parts pos us m) (h' : Gives tokens (.many parts) m vs next) :
    Gives tokens (.many parts) pos (us ++ vs) next := by
  obtain ⟨ts, hread, rfl⟩ := h
  obtain ⟨ts', hread', rfl⟩ := h'
  exact ⟨ts ++ ts', many_more hd hread hread', meanings_append ts ts'⟩

end Parts

section Nodes

variable {alternatives : List (List Production)}

theorem gives_node (kind : Tree.Kind) {ts : List Tree} (hk : kind ≠ .comma ∧ kind ≠ .semicolon)
    (h : (readChoice tokens (reading tokens) alternatives pos).outcome = .matched ts next) :
    Gives tokens (.node kind alternatives) pos
      [(Tree.branch kind (lineAt tokens pos) ts).meaning.withoutLines] next := by
  refine ⟨_, node_matched_iff.mpr ⟨ts, h, rfl⟩, meanings_one ?_⟩
  simp [branch, hk.1, hk.2]

theorem GivesOne.expression (h : GivesOne tokens alternatives pos us next) :
    Gives tokens (.node .expression alternatives) pos [expressionOf 0 us] next := by
  obtain ⟨ts, hread, rfl⟩ := h
  have hnode := gives_node .expression (by simp) hread
  rwa [meaning_expression, expressionOf_withoutLines] at hnode

theorem GivesOne.statement (h : GivesOne tokens alternatives pos us next) :
    Gives tokens (.node .statement alternatives) pos [statementOf 0 us] next := by
  obtain ⟨ts, hread, rfl⟩ := h
  have hnode := gives_node .statement (by simp) hread
  rwa [meaning_statement, statementOf_withoutLines] at hnode

/-- A node that only holds its parts together. -/
theorem GivesOne.list {kind : Tree.Kind}
    (hk : kind = .block ∨ kind = .expressionList ∨ kind = .argumentList)
    (h : GivesOne tokens alternatives pos us next) :
    Gives tokens (.node kind alternatives) pos [.node kind "" false 0 us] next := by
  obtain ⟨ts, hread, rfl⟩ := h
  have hsep : kind ≠ .comma ∧ kind ≠ .semicolon := by
    rcases hk with rfl | rfl | rfl <;> simp
  have hnode := gives_node kind hsep hread
  have hmeans : (Tree.branch kind (lineAt tokens pos) ts).meaning =
      .node kind "" false (lineAt tokens pos) (meaningAll ts) := by
    rcases hk with rfl | rfl | rfl <;> rfl
  rwa [hmeans, withoutLines_node] at hnode

theorem GivesOne.array {a list b : Tree} (h : GivesOne tokens alternatives pos [a, list, b] next) :
    Gives tokens (.node .array alternatives) pos [.node .array "" false 0 [list]] next := by
  obtain ⟨ts, hread, hmeans⟩ := h
  have hnode := gives_node .array (by simp) hread
  rw [meanings] at hmeans
  rcases hts : meaningAll ts with _ | ⟨x, _ | ⟨y, _ | ⟨z, _ | ⟨w, rest⟩⟩⟩⟩ <;>
    rw [hts] at hmeans <;> simp at hmeans
  obtain ⟨-, rfl, -⟩ := hmeans
  rwa [meaning_array hts, withoutLines_node] at hnode

end Nodes

section Operands

variable {u : Tree}

/-- No suffix of an operand follows. -/
def Unsuffixed (tokens : Array Token) (pos : Nat) : Prop :=
  ¬ At tokens .leftParen pos ∧ ¬ At tokens .leftBracket pos ∧ ¬ At tokens .dot pos

/-- An operand with the suffixes up to a position: reading goes on there as it would from a raw tree
of the operand. -/
def Operand (tokens : Array Token) (pos : Nat) (t : Tree) (next : Nat) : Prop :=
  ∃ first m raw, (reading tokens .primary pos).outcome = .matched [first] m ∧
    (readSuffixes (readProduction tokens (reading tokens) suffix) (tokens.size + 1) first m).outcome =
      (readSuffixes (readProduction tokens (reading tokens) suffix) (tokens.size + 1) raw
        next).outcome ∧
    raw.isSeparator = false ∧ raw.meaning.withoutLines = t

theorem Reads.operand (h : Reads tokens .primary pos t next) : Operand tokens pos t next := by
  obtain ⟨raw, hread, hmeans⟩ := h
  obtain ⟨raw', hraw, heq⟩ := readRule_raw _ .primary hread
  obtain rfl : raw = raw' := by simpa using heq
  exact ⟨raw, next, raw, hread, rfl, hraw.isSeparator, hmeans⟩

/-- One more suffix. -/
theorem Operand.suffix (h : Operand tokens pos t m) (hs : Gives tokens suffix m us next) :
    Operand tokens pos (expressionOf 0 (t :: us)) next := by
  obtain ⟨first, k, raw, hread, hsame, hsep, rfl⟩ := h
  obtain ⟨parts, hparts, rfl⟩ := hs
  refine ⟨first, k, wrap raw parts, hread, hsame.trans (readSuffixes_more hparts), rfl, ?_⟩
  · rw [wrap, meaning_expression, meaningAll, hsep, expressionOf_withoutLines]
    rfl

theorem suffix_failed (h : Unsuffixed tokens pos) :
    (readProduction tokens (reading tokens) suffix pos).outcome = .failed := by
  obtain ⟨hparen, hbracket, hdot⟩ := h
  rw [suffix, choice_failed_iff]
  refine readChoice_failed ?_
  unfold At at hparen hbracket hdot
  simp [choiceStarts, partsStart, parenthesised, bracketed, punct, Production.starts, hparen,
    hbracket, hdot]

theorem Operand.reads (h : Operand tokens pos t next) (hend : Unsuffixed tokens next) :
    Reads tokens .suffixed pos t next := by
  obtain ⟨first, m, raw, hread, hsame, -, hmeans⟩ := h
  refine ⟨raw, suffixed_matched_iff.mpr ⟨first, [], m, hread, hsame.trans ?_⟩, hmeans⟩
  rw [readSuffixes]
  simp only [suffix_failed hend]

theorem Operand.call {x y : String} (h : Operand tokens pos t m)
    (hopen : TokenAt tokens m .leftParen x)
    (hlist : Reads tokens .expressionList (after tokens m) u next)
    (hclose : TokenAt tokens next .rightParen y) :
    Operand tokens pos (.node .call "" false 0 [t, u]) (after tokens next) :=
  h.suffix (hopen.then (by simp) (hlist.then (hclose.then (by simp) givesAll_nil))).here.choice

theorem Operand.index {x y : String} (h : Operand tokens pos t m)
    (hopen : TokenAt tokens m .leftBracket x)
    (hindex : Reads tokens .expression (after tokens m) u next)
    (hclose : TokenAt tokens next .rightBracket y) :
    Operand tokens pos (.node .index "" false 0 [t, u]) (after tokens next) := by
  refine h.suffix (GivesOne.choice (.there (fails_of_start ?_) (GivesAll.here
    (hopen.then (by simp) (hindex.then (hclose.then (by simp) givesAll_nil))))))
  have hno : nextIs .leftParen none (tokenAt? tokens m) = false := hopen.not_kind (by simp)
  simpa [partsStart, parenthesised, punct, Production.starts] using hno

theorem Operand.member {x y : String} (h : Operand tokens pos t m) (hdot : TokenAt tokens m .dot x)
    (hname : TokenAt tokens (after tokens m) .identifier y) :
    Operand tokens pos (.node .member "" false 0 [t, .leaf .identifier y 0])
      (after tokens (after tokens m)) := by
  have hno : ∀ k, k ≠ .dot → nextIs k none (tokenAt? tokens m) = false :=
    fun k hk => hdot.not_kind hk.symm
  refine h.suffix (GivesOne.choice (.there (fails_of_start ?_) (.there (fails_of_start ?_)
    (GivesAll.here (hdot.then (by simp) (hname.then (by simp) givesAll_nil))))))
  · simpa [partsStart, parenthesised, punct, Production.starts] using hno .leftParen (by simp)
  · simpa [partsStart, bracketed, punct, Production.starts] using hno .leftBracket (by simp)

/-- A literal or a name. -/
theorem TokenAt.primary {kind : Token.Kind} {x : String} (h : TokenAt tokens pos kind x)
    (hk : (terminalKind kind).isLiteral = true) :
    Reads tokens .primary pos (mark ⟨kind, x, 0⟩) (after tokens pos) := by
  have hno : ∀ {k : Token.Kind} {text : Option String}, kind ≠ k →
      nextIs k text (tokenAt? tokens pos) = false := h.not_kind
  have hliteral : kind ≠ .leftParen ∧ kind ≠ .keyword ∧ kind ≠ .leftBracket ∧ kind ≠ .comma ∧
      kind ≠ .semicolon := by
    refine ⟨?_, ?_, ?_, ?_, ?_⟩ <;> rintro rfl <;> cases hk
  obtain ⟨hparen, hkeyword, hbracket, hcomma, hsemicolon⟩ := hliteral
  have hhere : GivesAll tokens [punct kind] pos [mark ⟨kind, x, 0⟩] (after tokens pos) :=
    h.then ⟨hcomma, hsemicolon⟩ givesAll_nil
  have hother : ∀ {k : Token.Kind}, kind ≠ k → Fails tokens [punct k] pos := by
    intro k hne
    refine fails_of_start ?_
    simpa [partsStart, punct, Production.starts] using hno hne
  refine reads_of_production (GivesOne.choice ?_)
  -- none of the operands of several tokens begins with a literal
  refine .there (fails_of_start ?_) (.there (fails_of_start ?_) (.there (fails_of_start ?_)
    (.there (fails_of_start ?_) ?_)))
  · simpa [partsStart, choiceStarts, parenthesised, punct, Production.starts] using hno hparen
  · simpa [partsStart, Production.starts, Rule.starts] using hno hkeyword
  · simpa [partsStart, Production.starts, Rule.starts] using hno hkeyword
  · simpa [partsStart, Production.starts, Rule.starts] using hno hbracket
  · cases kind <;> try { cases hk }
    · exact .there (hother (by simp)) (.there (hother (by simp)) (.there (hother (by simp))
        hhere.here))
    · exact hhere.here
    · exact .there (hother (by simp)) hhere.here
    · exact .there (hother (by simp)) (.there (hother (by simp)) hhere.here)
    · exact .there (hother (by simp)) (.there (hother (by simp)) (.there (hother (by simp))
        (.there (hother (by simp)) hhere.here)))

/-- An expression in parentheses. -/
theorem reads_parenthesised {x y : String} (hopen : TokenAt tokens pos .leftParen x)
    (h : Reads tokens .expression (after tokens pos) t m) (hclose : TokenAt tokens m .rightParen y)
    (hvalue : t.isValue = true) : Reads tokens .primary pos t (after tokens m) := by
  have hnode : GivesOne tokens [parenthesised (.rule .expression)] pos
      [mark ⟨.leftParen, x, 0⟩, t, mark ⟨.rightParen, y, 0⟩] (after tokens m) :=
    (hopen.then (by simp) (h.then (hclose.then (by simp) givesAll_nil))).here
  have hgives := hnode.expression
  rw [expressionOf_value hvalue] at hgives
  exact reads_of_production (GivesOne.choice (GivesAll.here (hgives.then givesAll_nil)))

/-- What an expression stands for has a value. -/
theorem Reads.value {r : Rule} (hr : r.isOperand = true) (h : Reads tokens r pos t next) :
    t.isValue = true := by
  obtain ⟨raw, hread, rfl⟩ := h
  obtain ⟨raw', hraw, heq⟩ := readRule_raw _ r hread
  obtain rfl : raw = raw' := by simpa using heq
  have hvalue := (hraw.translated (Nat.le_refl _)).value hr
  rwa [isValue, kind_withoutLines]

end Operands

section Levels

variable {u : Tree} {x : String}

theorem Reads.power (h : Reads tokens .suffixed pos t next)
    (hno : nextIs .operator (some "**") (tokenAt? tokens next) = false) :
    Reads tokens .power pos t next :=
  reads_of_production (GivesOne.expression
    (.there (h.fails_token hno) (GivesAll.here (h.then givesAll_nil))))

theorem Reads.raised (h : Reads tokens .suffixed pos t m) (ho : TokenAt tokens m .operator "**")
    (h' : Reads tokens .power (after tokens m) u next) :
    Reads tokens .power pos (.node .binary "**" false 0 [t, u]) next :=
  reads_of_production (GivesOne.expression
    (GivesAll.here (h.then (ho.word (by simp) (h'.then givesAll_nil)))))

theorem Reads.comparison (h : Reads tokens .additive pos t next)
    (hno : ¬ At tokens .comparator next) : Reads tokens .comparison pos t next :=
  reads_of_production (GivesOne.expression
    (.there (h.fails_token (Bool.eq_false_iff.mpr hno)) (GivesAll.here (h.then givesAll_nil))))

theorem Reads.compared (h : Reads tokens .additive pos t m) (hc : TokenAt tokens m .comparator x)
    (h' : Reads tokens .additive (after tokens m) u next) :
    Reads tokens .comparison pos (.node .comparison x false 0 [t, u]) next :=
  reads_of_production (GivesOne.expression
    (GivesAll.here (h.then (hc.then (by simp) (h'.then givesAll_nil)))))

/-- An expression without an assignment. Its first operand is read on its own before it is read as
the beginning of a comparison. -/
theorem Reads.expression (h : Reads tokens .suffixed pos t m) (hno : ¬ At tokens .assignment m)
    (h' : Reads tokens .comparison pos u next) : Reads tokens .expression pos u next :=
  reads_of_production (GivesOne.expression
    (.there (h.fails_token (Bool.eq_false_iff.mpr hno)) (GivesAll.here (h'.then givesAll_nil))))

theorem Reads.assigned (h : Reads tokens .suffixed pos t m) (ha : TokenAt tokens m .assignment x)
    (h' : Reads tokens .expression (after tokens m) u next) :
    Reads tokens .expression pos (assignmentOf 0 t (.leaf .assignment x 0) u) next :=
  reads_of_production (GivesOne.expression
    (GivesAll.here (h.then (ha.then (by simp) (h'.then givesAll_nil)))))

/-- One of several operators. -/
theorem TokenAt.operator {symbols : List String} (h : TokenAt tokens pos .operator x)
    (hx : x ∈ symbols) : Gives tokens (.choice (symbols.map fun s => [op s])) pos
      [.leaf .operator x 0] (after tokens pos) := by
  refine GivesOne.choice ?_
  induction symbols with
  | nil => cases hx
  | cons s symbols ih =>
    by_cases hs : x = s
    · subst hs
      exact (h.word (by simp) givesAll_nil).here
    · have hmem : x ∈ symbols := (List.mem_cons.mp hx).resolve_left hs
      refine .there (fails_of_start ?_) (ih hmem)
      have hno : nextIs .operator (some s) (tokenAt? tokens pos) = false := h.not_text (Ne.symm hs)
      simpa [partsStart, op, Production.starts] using hno

/-- Operands with operators of one level between them. -/
theorem Reads.loop {r r' : Rule} {parts : List Production} (h : Reads tokens r pos t m)
    (hp : production r' = .node .expression [[.rule r, .many parts]])
    (hmany : Gives tokens (.many parts) m us next) :
    Reads tokens r' pos (expressionOf 0 (t :: us)) next := by
  refine reads_of_production ?_
  rw [hp]
  have hall := h.then (hmany.then givesAll_nil)
  rw [List.append_nil] at hall
  exact hall.here.expression

end Levels

section Lists

/-- The items after the first of a list. -/
theorem Gives.comma {item : Production} {x : String}
    (hd : (Production.many [punct .comma, item]).descends 10 = true)
    (hcomma : TokenAt tokens pos .comma x) (h : Gives tokens item (after tokens pos) [t] m)
    (h' : Gives tokens (.many [punct .comma, item]) m us next) :
    Gives tokens (.many [punct .comma, item]) pos (t :: us) next :=
  GivesAll.many hd ((hcomma.separator (Or.inl rfl)).then (h.then givesAll_nil)) h'

theorem gives_comma_none {item : Production} (h : ¬ At tokens .comma pos) :
    Gives tokens (.many [punct .comma, item]) pos [] pos := by
  refine gives_many_none (fails_of_start ?_)
  simpa [partsStart, punct, Production.starts] using Bool.eq_false_iff.mpr h

theorem Gives.commaList {kind : Tree.Kind} {item : Production}
    (hk : kind = .block ∨ kind = .expressionList ∨ kind = .argumentList)
    (h : Gives tokens item pos [t] m) (h' : Gives tokens (.many [punct .comma, item]) m us next) :
    Gives tokens (commaList kind item) pos [.node kind "" false 0 (t :: us)] next := by
  have hall := h.then (h'.then givesAll_nil)
  rw [List.append_nil] at hall
  exact hall.here.list hk

theorem gives_commaList_none {kind : Tree.Kind} {item : Production}
    (hk : kind = .block ∨ kind = .expressionList ∨ kind = .argumentList)
    (h : item.starts (tokenAt? tokens pos) = false) :
    Gives tokens (commaList kind item) pos [.node kind "" false 0 []] pos :=
  GivesOne.list hk (.there (fails_of_start h) givesAll_nil.here)

end Lists

section Statements

theorem Reads.more (h : Reads tokens .statement pos t m)
    (h' : Gives tokens (.many [.rule .statement]) m us next) :
    Gives tokens (.many [.rule .statement]) pos (t :: us) next :=
  GivesAll.many rfl (h.then givesAll_nil) h'

theorem gives_statements_none (h : Rule.starts (tokenAt? tokens pos) .statement = false) :
    Gives tokens (.many [.rule .statement]) pos [] pos :=
  gives_many_none (fails_of_start (by simpa [partsStart, Production.starts] using h))

theorem Gives.block (h : Gives tokens (.many [.rule .statement]) pos us next) :
    Reads tokens .block pos (.node .block "" false 0 us) next := by
  have hall := h.then givesAll_nil
  rw [List.append_nil] at hall
  exact reads_of_production (hall.here.list (Or.inl rfl))

/-- An expression with a semicolon is a statement. -/
theorem Reads.statement {kind : Token.Kind} {x y : String} (hfirst : TokenAt tokens pos kind x)
    (hk : kind ≠ .keyword) (h : Reads tokens .expression pos t m)
    (hend : TokenAt tokens m .semicolon y) :
    Reads tokens .statement pos (statementOf 0 [t]) (after tokens m) := by
  have hno : ∀ w, nextIs .keyword (some w) (tokenAt? tokens pos) = false :=
    fun w => hfirst.not_kind hk
  have hparts : GivesAll tokens [.rule .expression, semicolon] pos [t] (after tokens m) :=
    h.then ((hend.separator (Or.inr rfl)).then givesAll_nil)
  refine reads_of_production (GivesOne.statement ?_)
  -- every other statement begins with a keyword
  refine .there (fails_of_start ?_) (.there (fails_of_start ?_) (.there (fails_of_start ?_)
    (.there (fails_of_start ?_) (.there (fails_of_start ?_) (.there (fails_of_start ?_)
    hparts.here)))))
  all_goals
    simp [partsStart, ifParts, whileParts, kw, choiceStarts, Production.starts, Rule.starts, hno]

end Statements

/-- A block up to the end of the tokens is the whole program. -/
theorem Reads.program {list : List Token} (file : String)
    (h : Reads list.toArray .block 0 t next) (hstart : tokenAt? list.toArray 0 ≠ none)
    (hend : tokenAt? list.toArray next = none) :
    (parseTokens list file).diagnostic = none ∧
      (parseTokens list file).root.meaning.withoutLines = .node .program "" false 0 [t] := by
  obtain ⟨raw, hread, rfl⟩ := h
  have hsize : ∀ q, tokenAt? list.toArray q = none ↔ list.toArray.size ≤ skip list.toArray q := by
    intro q
    rw [tokenAt?, Array.getElem?_eq_none_iff]
  obtain ⟨trees, n, b, hrun, ho, -, -, -⟩ := build_program list.toArray file
  rw [hread] at ho
  cases ho
  have hblank : ¬ list.toArray.size ≤ skip list.toArray 0 := by
    rwa [← hsize]
  constructor
  · unfold parseTokens
    dsimp only
    rw [if_neg hblank, hrun]
    have hle := (hsize next).mp hend
    simp only [leftOver]
    rw [if_neg (by omega)]
  · rw [parseTokens_root, readProgram, if_neg hblank, hread]
    dsimp only
    obtain ⟨raw', hraw, heq⟩ := readRule_raw _ .block hread
    -- the tree that has been built is the one that is read, with the block below it
    obtain rfl : raw = raw' := by simpa using heq
    rw [programTree, branch, show meaning (.node .program "" false 1 [raw]) =
      .node .program "" false 1 (meaningAll [raw]) from rfl, withoutLines_node]
    have hone := meanings_one hraw.isSeparator
    rw [meanings] at hone
    rw [hone]

end ScriptKit.Grammar
