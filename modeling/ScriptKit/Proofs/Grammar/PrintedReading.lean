import ScriptKit.Proofs.Grammar.Printed

namespace ScriptKit.Grammar

open Tree Word Token

variable {tokens : Array Token} {pos m next : Nat} {t u : Tree} {ts us : List Tree}
  {w ws : List Word}

/-- Words one after the other, from one position to another. -/
def WordsAt (tokens : Array Token) : Nat → List Word → Nat → Prop
  | pos, [], next => pos = next
  | pos, w :: ws, next => TokenAt tokens pos w.kind w.text ∧ WordsAt tokens (after tokens pos) ws next

theorem wordsAt_append : WordsAt tokens pos (w ++ ws) next ↔
    ∃ m, WordsAt tokens pos w m ∧ WordsAt tokens m ws next := by
  induction w generalizing pos with
  | nil => simp [WordsAt]
  | cons v w ih =>
    rw [List.cons_append, WordsAt, ih]
    simp only [WordsAt, and_assoc, exists_and_left]

theorem wordsAt_one {v : Word} (h : WordsAt tokens pos [v] next) :
    TokenAt tokens pos v.kind v.text ∧ next = after tokens pos :=
  ⟨h.1, h.2.symm⟩

/-- Words between two signs. -/
theorem wordsAt_between {first last : Token.Kind}
    (h : WordsAt tokens pos (between first last ws) next) :
    ∃ m, TokenAt tokens pos first (of first).text ∧ WordsAt tokens (after tokens pos) ws m ∧
      TokenAt tokens m last (of last).text ∧ next = after tokens m := by
  obtain ⟨hfirst, h⟩ := h
  obtain ⟨m, hws, hend⟩ := wordsAt_append.mp h
  obtain ⟨hlast, hnext⟩ := wordsAt_one hend
  exact ⟨m, hfirst, hws, hlast, hnext⟩

section Expressions

/-- The words of a value are read as an expression where no expression goes on after them. -/
def ReadsValue (tokens : Array Token) (t : Tree) (ws : List Word) : Prop :=
  ∀ {pos next}, WordsAt tokens pos ws next → Closed tokens next → Reads tokens .expression pos t next

/-- An operand is an expression of its own. -/
theorem Operand.expression (h : Operand tokens pos t next) (hend : Closed tokens next) :
    Reads tokens .expression pos t next := by
  obtain ⟨f, ⟨-, -, -, honly⟩, hreads⟩ := (SequenceAt.one h).reads hend
  rwa [← honly (.operand t) rfl rfl trivial] at hreads

/-- The words of an operand, with parentheses where they are needed. -/
theorem Printed.asOperand (h : Printed .value [t] w) (hreads : ReadsValue tokens t w)
    (hw : WordsAt tokens pos (t.asOperand w) next) : Operand tokens pos t next := by
  rw [Tree.asOperand] at hw
  split at hw
  · rename_i hs
    obtain ⟨v, rfl, -, hk, rfl⟩ := h.simple hs
    obtain ⟨hv, rfl⟩ := wordsAt_one hw
    exact (hv.primary hk).operand
  · obtain ⟨m, hopen, hinner, hclose, rfl⟩ := wordsAt_between hw
    have hreads := hreads hinner (hclose.at.closed (by simp))
    exact (reads_parenthesised hopen hreads hclose (hreads.value rfl)).operand

theorem level_pos {x : String} (h : IsWord false ⟨.operator, x⟩) : 0 < level x := by
  obtain ⟨r, hr, hk, hfull⟩ := h.rule
  have hrule : ∀ r ∈ rules, r.kind = .operator → r.full = oneOf ["+", "-", "**", "*", "/", "%"] := by
    simp [rules]
  rw [hrule r hr hk, oneOf, List.any_eq_true] at hfull
  obtain ⟨v, hv, he⟩ := hfull
  obtain rfl : v = x := String.toList_inj.mp (of_decide_eq_true he)
  have hlevels : ∀ v ∈ ["+", "-", "**", "*", "/", "%"], 0 < level v := by decide
  exact hlevels v hv

theorem reads_binary {x : String} {l r : Tree} (hl : Operand tokens pos l m)
    (hx : TokenAt tokens m .operator x) (hlevel : 0 < level x)
    (hr : Operand tokens (after tokens m) r next) (hend : Closed tokens next) :
    Reads tokens .expression pos (.node .binary x false 0 [l, r]) next := by
  obtain ⟨f, ⟨-, -, -, honly⟩, hreads⟩ := (SequenceAt.more hl hx hlevel (.one hr)).reads hend
  have hbinds : (Formula.apply x (.operand l) (.operand r)).Binds := by
    have hmax := level_le x
    refine ⟨trivial, trivial, ?_⟩
    simp only [Formula.level]
    split <;> omega
  rwa [← honly (.apply x (.operand l) (.operand r)) rfl rfl hbinds] at hreads

theorem reads_comparison {x : String} {l r : Tree} (hl : Operand tokens pos l m)
    (hx : TokenAt tokens m .comparator x) (hr : Operand tokens (after tokens m) r next)
    (hend : Closed tokens next) :
    Reads tokens .expression pos (.node .comparison x false 0 [l, r]) next := by
  obtain ⟨f, g, ⟨-, -, -, hf⟩, ⟨-, -, -, hg⟩, hreads⟩ :=
    (SequenceAt.one hl).compared hx (.one hr) hend.stops
  rwa [← hf (.operand l) rfl rfl trivial, ← hg (.operand r) rfl rfl trivial] at hreads

/-- The sign of an assignment follows an operand. -/
theorem TokenAt.unsuffixed {k : Token.Kind} {x : String} (h : TokenAt tokens pos k x)
    (hk : k ≠ .leftParen ∧ k ≠ .leftBracket ∧ k ≠ .dot) : Unsuffixed tokens pos :=
  ⟨h.not_at hk.1, h.not_at hk.2.1, h.not_at hk.2.2⟩

theorem Operand.assigned {x : String} {v : Tree} (h : Operand tokens pos t m)
    (hx : TokenAt tokens m .assignment x) (hv : Reads tokens .expression (after tokens m) v next) :
    Reads tokens .expression pos (assignmentOf 0 t (.leaf .assignment x 0) v) next :=
  (h.reads (hx.unsuffixed (by simp))).assigned hx hv

theorem assignmentOf_target {line : Nat} {s v : Tree} (h : t.kind = .identifier ∨ t.kind = .member) :
    assignmentOf line t s v = .node .assign "" false line [t, v] := by
  unfold assignmentOf
  rcases h with h | h <;> rw [h]

/-- An operand with indices after it. -/
def indexed (t : Tree) (ts : List Tree) : Tree :=
  ts.foldl (fun t i => .node .index "" false 0 [t, i]) t

theorem indexChain_indexed (ts indices : List Tree) :
    ∀ t, (indexed t ts).indexChain indices = t.indexChain (ts ++ indices) := by
  induction ts with
  | nil => intro t; rfl
  | cons i ts ih =>
    intro t
    rw [indexed, List.foldl_cons]
    exact ih _

theorem indexChain_of_kind (h : t.kind ≠ .index) (indices : List Tree) :
    t.indexChain indices = (t, indices) := by
  obtain ⟨k, x, e, l, children⟩ := t
  cases k <;> first | exact absurd rfl h | rfl

theorem indexed_node (hne : ts ≠ []) : ∃ a, indexed t ts = .node .index "" false 0 a := by
  obtain ⟨init, last, rfl⟩ := List.eq_nil_or_concat ts |>.resolve_left hne
  refine ⟨[indexed t init, last], ?_⟩
  rw [List.concat_eq_append, indexed, List.foldl_append]
  rfl

theorem assignmentOf_indexed {s v : Tree} (ht : t.kind ≠ .index) (hne : ts ≠ []) :
    assignmentOf 0 (indexed t ts) s v =
      .node .indexWrite "" false 0 [t, .node .expressionList "" false 0 ts, v] := by
  obtain ⟨a, ha⟩ := indexed_node (t := t) hne
  have hchain : (indexed t ts).indexChain [] = (t, ts) := by
    rw [indexChain_indexed, List.append_nil, indexChain_of_kind ht]
  unfold assignmentOf
  rw [hchain, ha]
  rfl

end Expressions

section Lists

/-- The end of a list. -/
def ListEnds (tokens : Array Token) (pos : Nat) : Prop :=
  At tokens .rightParen pos ∨ At tokens .rightBracket pos

theorem ListEnds.not_at {k : Token.Kind} (h : ListEnds tokens pos) (hk : k ≠ .rightParen)
    (hk' : k ≠ .rightBracket) : ¬ At tokens k pos := by
  intro hat
  rcases h with h | h
  · exact hk (hat.eq h)
  · exact hk' (hat.eq h)

theorem ListEnds.closed (h : ListEnds tokens pos) : Closed tokens pos := by
  rcases h with h | h
  · exact h.closed (by simp)
  · exact h.closed (by simp)

/-- Items of a list: the first, and then each after a comma. -/
def ReadsItems (tokens : Array Token) : List Tree → List Word → Prop
  | [], ws => ws = []
  | t :: ts, ws => ∀ {pos next}, WordsAt tokens pos ws next → ListEnds tokens next →
    ∃ m, Reads tokens .expression pos t m ∧
      Gives tokens (.many [punct .comma, .rule .expression]) m ts next

theorem ReadsItems.list (h : ReadsItems tokens ts ws) (hw : WordsAt tokens pos ws next)
    (hend : ListEnds tokens next) :
    Reads tokens .expressionList pos (.node .expressionList "" false 0 ts) next := by
  refine reads_of_production ?_
  cases ts with
  | nil =>
    obtain rfl : ws = [] := h
    obtain rfl : pos = next := hw
    refine gives_commaList_none (by simp) ?_
    rcases hend with hend | hend <;> obtain ⟨x, hend⟩ := hend.tokenAt <;>
      simp [Production.starts, Rule.starts, startsOperand, hend.not_kind]
  | cons t ts =>
    obtain ⟨m, hfirst, hmore⟩ := h hw hend
    exact Gives.commaList (by simp) hfirst.gives hmore

theorem TokenAt.name {x : String} (h : TokenAt tokens pos .identifier x) :
    Gives tokens name pos [nameTree x] (after tokens pos) :=
  h.gives (by simp) (by simp)

/-- The names of the parameters of a function: the first, and then each after a comma. -/
theorem gives_names (names : List String) : ∀ {n : String} {pos : Nat},
    WordsAt tokens pos (itemWords ((n :: names).map nameTree)) next → At tokens .rightParen next →
    TokenAt tokens pos .identifier n ∧
      Gives tokens (.many [punct .comma, name]) (after tokens pos) (names.map nameTree) next := by
  induction names with
  | nil =>
    intro n pos h hend
    obtain ⟨hn, rfl⟩ := wordsAt_one h
    obtain ⟨x, hend⟩ := hend.tokenAt
    exact ⟨hn, gives_comma_none (hend.not_at (by simp))⟩
  | cons n' names ih =>
    intro n pos h hend
    obtain ⟨hn, hcomma, hrest⟩ := h
    obtain ⟨hn', hmore⟩ := ih hrest hend
    exact ⟨hn, Gives.comma rfl hcomma hn'.name hmore⟩

theorem reads_names {names : List String}
    (h : WordsAt tokens pos (itemWords (names.map nameTree)) next)
    (hend : At tokens .rightParen next) :
    Reads tokens .argumentList pos (.node .argumentList "" false 0 (names.map nameTree)) next := by
  refine reads_of_production ?_
  cases names with
  | nil =>
    obtain rfl : pos = next := h
    obtain ⟨x, hend⟩ := hend.tokenAt
    exact gives_commaList_none (by simp) (hend.not_kind (by simp))
  | cons n names =>
    obtain ⟨hn, hmore⟩ := gives_names names h hend
    exact Gives.commaList (by simp) hn.name hmore

end Lists

section Parts

variable {parts : List Production} {p : Production} {vs : List Tree} {e : Nat}

/-- A sign as a tree. -/
def sign (k : Token.Kind) : Tree := mark ⟨k, (of k).text, 0⟩

/-- The statements of a block as a tree. -/
def blockOf (ts : List Tree) : Tree := .node .block "" false 0 ts

/-- An alternative fails where a later part of it does. -/
theorem Gives.fails_then (h : Gives tokens p pos us m) (hfails : Fails tokens parts m) :
    Fails tokens (p :: parts) pos := by
  obtain ⟨ts, hread, -⟩ := h
  exact parts_failed_later hread hfails

/-- The end of a block. -/
def BlockEnds (tokens : Array Token) (pos : Nat) : Prop :=
  At tokens .rightCurly pos ∨ tokenAt? tokens pos = none

/-- No other branch of a conditional follows. -/
def NoElse (tokens : Array Token) (pos : Nat) : Prop :=
  nextIs .keyword (some "else") (tokenAt? tokens pos) = false

theorem BlockEnds.noElse (h : BlockEnds tokens pos) : NoElse tokens pos := by
  rcases h with h | h
  · obtain ⟨x, h⟩ := h.tokenAt
    exact h.not_kind (by simp)
  · rw [NoElse, h]
    rfl

theorem BlockEnds.starts (h : BlockEnds tokens pos) :
    Rule.starts (tokenAt? tokens pos) .statement = false := by
  rcases h with h | h
  · obtain ⟨x, h⟩ := h.tokenAt
    simp [Rule.starts, startsOperand, h.not_kind]
  · rw [h]
    rfl

theorem not_else {v : Word} (h : TokenAt tokens pos v.kind v.text) (hv : v ≠ keyword "else") :
    NoElse tokens pos := by
  obtain ⟨k, x⟩ := v
  by_cases hk : k = .keyword
  · subst hk
    refine h.not_text fun hx => hv ?_
    rw [keyword, hx]
  · exact h.not_kind hk

/-- Statements are read up to the end of their block. -/
def ReadsStatements (tokens : Array Token) (ts : List Tree) (ws : List Word) : Prop :=
  ∀ {pos next}, WordsAt tokens pos ws next → BlockEnds tokens next →
    Gives tokens (.many [.rule .statement]) pos ts next

theorem ReadsStatements.braced (h : ReadsStatements tokens ts ws)
    (hw : WordsAt tokens pos (inBraces ws) next) (hrest : GivesAll tokens parts next vs e) :
    GivesAll tokens (Grammar.braced ++ parts) pos
      (sign .leftCurly :: blockOf ts :: sign .rightCurly :: vs) e := by
  obtain ⟨m, hopen, hinner, hclose, rfl⟩ := wordsAt_between hw
  have hblock : Reads tokens .block (after tokens pos) (blockOf ts) m :=
    (h hinner (Or.inl hclose.at)).block
  exact hopen.then (by simp) (hblock.then (hclose.then (by simp) hrest))

/-- A keyword, a test in parentheses and a block. -/
theorem gives_test {x : String} (hx : TokenAt tokens pos .keyword x) (hv : ReadsValue tokens t w)
    (hs : ReadsStatements tokens ts ws)
    (hw : WordsAt tokens (after tokens pos) (inParens w ++ inBraces ws) next)
    (hrest : GivesAll tokens parts next vs e) :
    GivesAll tokens (kw x :: parenthesised (.rule .expression) ++ Grammar.braced ++ parts) pos
      (mark ⟨.keyword, x, 0⟩ :: sign .leftParen :: t :: sign .rightParen :: sign .leftCurly ::
        blockOf ts :: sign .rightCurly :: vs) e := by
  obtain ⟨m, htest, hbody⟩ := wordsAt_append.mp hw
  obtain ⟨k, hopen, hinner, hclose, rfl⟩ := wordsAt_between htest
  have hexpression := hv hinner (hclose.at.closed (by simp))
  exact hx.word (by simp) (hopen.then (by simp) (hexpression.then (hclose.then (by simp)
    (hs.braced hbody hrest))))

/-- The parameters of a function and its body. -/
theorem gives_signature {names : List String} (hs : ReadsStatements tokens ts ws)
    (hw : WordsAt tokens pos (inParens (itemWords (names.map nameTree)) ++ inBraces ws) next) :
    GivesAll tokens (parenthesised (.rule .argumentList) ++ Grammar.braced) pos
      [sign .leftParen, .node .argumentList "" false 0 (names.map nameTree), sign .rightParen,
        sign .leftCurly, blockOf ts, sign .rightCurly] next := by
  obtain ⟨m, hnames, hbody⟩ := wordsAt_append.mp hw
  obtain ⟨k, hopen, hinner, hclose, rfl⟩ := wordsAt_between hnames
  have hlist := reads_names hinner hclose.at
  exact hopen.then (by simp) (hlist.then (hclose.then (by simp) (hs.braced hbody givesAll_nil)))

end Parts

section Definitions

variable {x : String} {names : List String}

/-- A function as a tree. -/
def functionOf (x : String) (names : List String) (ts : List Tree) : Tree :=
  .node .function x false 0 [.node .argumentList "" false 0 (names.map nameTree), blockOf ts]

/-- A named function stands for the same with the name in parts of its own. -/
theorem gives_named (hs : ReadsStatements tokens ts ws) (hkey : TokenAt tokens pos .keyword "func")
    (hname : TokenAt tokens (after tokens pos) .identifier x)
    (hw : WordsAt tokens (after tokens (after tokens pos))
      (inParens (itemWords (names.map nameTree)) ++ inBraces ws) next) :
    Gives tokens namedFunction pos [functionOf x names ts] next :=
  (hkey.word (by simp) (hname.name.then (gives_signature hs hw))).here.expression

theorem reads_named (hs : ReadsStatements tokens ts ws) (hkey : TokenAt tokens pos .keyword "func")
    (hname : TokenAt tokens (after tokens pos) .identifier x)
    (hw : WordsAt tokens (after tokens (after tokens pos))
      (inParens (itemWords (names.map nameTree)) ++ inBraces ws) next) :
    Reads tokens .function pos (functionOf x names ts) next := by
  have hparts := hkey.word (by simp) (hname.name.optional.then (gives_signature hs hw))
  exact reads_of_production hparts.here.expression

theorem reads_anonymous (hs : ReadsStatements tokens ts ws)
    (hkey : TokenAt tokens pos .keyword "func")
    (hw : WordsAt tokens (after tokens pos)
      (inParens (itemWords (names.map nameTree)) ++ inBraces ws) next) :
    Reads tokens .function pos (functionOf "" names ts) next := by
  have hno : Gives tokens (.optional name) (after tokens pos) [] (after tokens pos) :=
    gives_optional_none (token_failed_iff.mpr (hw.1.not_kind (by decide)))
  have hparts := hkey.word (by simp) (hno.then (gives_signature hs hw))
  exact reads_of_production hparts.here.expression

theorem Reads.primary_function (h : Reads tokens .function pos t next) :
    Reads tokens .primary pos t next := by
  obtain ⟨raw, hread, hmeans⟩ := h
  exact ⟨raw, primary_of_function hread, hmeans⟩

theorem reads_class (hs : ReadsStatements tokens ts ws) (hkey : TokenAt tokens pos .keyword "class")
    (hname : TokenAt tokens (after tokens pos) .identifier x)
    (hw : WordsAt tokens (after tokens (after tokens pos)) (inBraces ws) next) :
    Reads tokens .classLiteral pos (.node .classLiteral x false 0 [blockOf ts]) next := by
  have hparts := hkey.word (by simp) (hname.name.then (hs.braced hw givesAll_nil))
  exact reads_of_production hparts.here.expression

theorem Reads.primary_class (hkey : TokenAt tokens pos .keyword "class")
    (h : Reads tokens .classLiteral pos t next) : Reads tokens .primary pos t next := by
  refine reads_of_production (GivesOne.choice (.there (fails_of_start ?_) (.there (fails_of_start ?_)
    (h.then givesAll_nil).here)))
  · simp [partsStart, choiceStarts, parenthesised, punct, Production.starts, hkey.not_kind]
  · simp [partsStart, Production.starts, Rule.starts, hkey.not_text]

theorem reads_array (h : ReadsItems tokens ts ws) (hw : WordsAt tokens pos (inBrackets ws) next) :
    Reads tokens .primary pos (.node .array "" false 0 [.node .expressionList "" false 0 ts])
      next := by
  obtain ⟨m, hopen, hinner, hclose, rfl⟩ := wordsAt_between hw
  have hlist := h.list hinner (Or.inr hclose.at)
  have harray : Reads tokens .array pos (.node .array "" false 0 [.node .expressionList "" false 0 ts])
      (after tokens m) :=
    reads_of_production (hopen.then (by simp) (hlist.then (hclose.then (by simp)
      givesAll_nil))).here.array
  refine reads_of_production (GivesOne.choice (.there (fails_of_start ?_) (.there (fails_of_start ?_)
    (.there (fails_of_start ?_) (harray.then givesAll_nil).here))))
  · simp [partsStart, choiceStarts, parenthesised, punct, Production.starts, hopen.not_kind]
  · simp [partsStart, Production.starts, Rule.starts, hopen.not_kind]
  · simp [partsStart, Production.starts, Rule.starts, hopen.not_kind]

/-- A semicolon after a definition leaves no trace. -/
theorem gives_semicolon (h : At tokens .semicolon pos) :
    GivesAll tokens [.optional semicolon] pos [] (after tokens pos) := by
  obtain ⟨x, h⟩ := h.tokenAt
  exact (h.separator (Or.inr rfl)).optional.then givesAll_nil

end Definitions

section Statements

variable {x : String} {parts : List Production}

/-- Statements that begin with a keyword, by the alternative of theirs. -/
theorem reads_statement_while (hkey : TokenAt tokens pos .keyword "while")
    (h : GivesAll tokens whileParts pos us next) :
    Reads tokens .statement pos (statementOf 0 us) next := by
  refine reads_of_production (GivesOne.statement (.there (fails_of_start ?_) h.here))
  simp [partsStart, ifParts, kw, Production.starts, hkey.not_text]

theorem reads_statement_function (hkey : TokenAt tokens pos .keyword "func")
    (h : Gives tokens namedFunction pos [t] m) (hend : At tokens .semicolon m) :
    Reads tokens .statement pos (statementOf 0 [t]) (after tokens m) := by
  refine reads_of_production (GivesOne.statement (.there (fails_of_start ?_) (.there (fails_of_start ?_)
    (GivesAll.here (h.then (gives_semicolon hend))))))
  · simp [partsStart, ifParts, kw, Production.starts, hkey.not_text]
  · simp [partsStart, whileParts, kw, Production.starts, hkey.not_text]

theorem reads_statement_class (hkey : TokenAt tokens pos .keyword "class")
    (h : Reads tokens .classLiteral pos t m) (hend : At tokens .semicolon m) :
    Reads tokens .statement pos (statementOf 0 [t]) (after tokens m) := by
  refine reads_of_production (GivesOne.statement (.there (fails_of_start ?_) (.there (fails_of_start ?_)
    (.there (fails_of_start ?_) (GivesAll.here (h.gives.then (gives_semicolon hend)))))))
  · simp [partsStart, ifParts, kw, Production.starts, hkey.not_text]
  · simp [partsStart, whileParts, kw, Production.starts, hkey.not_text]
  · simp [partsStart, choiceStarts, kw, Production.starts, hkey.not_text]

/-- A function without a name is read as an expression. -/
theorem reads_statement_anonymous (hkey : TokenAt tokens pos .keyword "func")
    (hno : nextIs .identifier none (tokenAt? tokens (after tokens pos)) = false)
    (h : Reads tokens .expression pos t m) (hend : At tokens .semicolon m) :
    Reads tokens .statement pos (statementOf 0 [t]) (after tokens m) := by
  obtain ⟨y, hend⟩ := hend.tokenAt
  have hparts : GivesAll tokens [.rule .expression, semicolon] pos [t] (after tokens m) :=
    h.then ((hend.separator (Or.inr rfl)).then givesAll_nil)
  have hnamed : Fails tokens [.node .expression [kw "func" :: name ::
      parenthesised (.rule .argumentList) ++ Grammar.braced], .optional semicolon] pos := by
    refine parts_failed_here (node_failed_iff.mpr ?_)
    refine choice_cons_failed_iff.mpr ⟨?_, choice_nil_failed⟩
    exact (hkey.gives (by simp) (by simp)).fails_then (fails_of_start hno)
  refine reads_of_production (GivesOne.statement (.there (fails_of_start ?_) (.there (fails_of_start ?_)
    (.there hnamed (.there (fails_of_start ?_) (.there (fails_of_start ?_) (.there (fails_of_start ?_)
    hparts.here)))))))
  · simp [partsStart, ifParts, kw, Production.starts, hkey.not_text]
  · simp [partsStart, whileParts, kw, Production.starts, hkey.not_text]
  · simp [partsStart, Production.starts, Rule.starts, hkey.not_text]
  · simp [partsStart, kw, Production.starts, hkey.not_text]
  · simp [partsStart, kw, Production.starts, hkey.not_text]

/-- The alternatives before those that begin with a keyword of their own. -/
theorem reads_statement_let (hkey : TokenAt tokens pos .keyword "let")
    (h : GivesOne tokens [[kw "let", name, punct .assignment, .rule .expression, semicolon],
      [kw "let", name, semicolon], [.rule .expression, semicolon],
      [.rule .function, .optional semicolon]] pos us next) :
    Reads tokens .statement pos (statementOf 0 us) next := by
  refine reads_of_production (GivesOne.statement (.there (fails_of_start ?_) (.there (fails_of_start ?_)
    (.there (fails_of_start ?_) (.there (fails_of_start ?_) h)))))
  · simp [partsStart, ifParts, kw, Production.starts, hkey.not_text]
  · simp [partsStart, whileParts, kw, Production.starts, hkey.not_text]
  · simp [partsStart, choiceStarts, kw, Production.starts, hkey.not_text]
  · simp [partsStart, Production.starts, Rule.starts, hkey.not_text]

theorem reads_declaration (hkey : TokenAt tokens pos .keyword "let")
    (hname : TokenAt tokens (after tokens pos) .identifier x)
    (hend : At tokens .semicolon (after tokens (after tokens pos))) :
    Reads tokens .statement pos (.node .declaration "" false 0 [nameTree x])
      (after tokens (after tokens (after tokens pos))) := by
  obtain ⟨y, hend⟩ := hend.tokenAt
  have hvalue :
      Fails tokens [kw "let", name, punct .assignment, .rule .expression, semicolon] pos := by
    refine (hkey.gives (by simp) (by simp)).fails_then (hname.name.fails_then (fails_of_start ?_))
    exact hend.not_kind (by simp)
  have hparts := hkey.word (by simp)
    (hname.name.then ((hend.separator (Or.inr rfl)).then givesAll_nil))
  exact reads_statement_let hkey (.there hvalue hparts.here)

theorem reads_initialisation {v : Tree} {y : String} (hkey : TokenAt tokens pos .keyword "let")
    (hname : TokenAt tokens (after tokens pos) .identifier x)
    (hsign : TokenAt tokens (after tokens (after tokens pos)) .assignment y)
    (hv : Reads tokens .expression (after tokens (after tokens (after tokens pos))) v m)
    (hend : At tokens .semicolon m) :
    Reads tokens .statement pos (.node .initialisation "" false 0 [nameTree x, v])
      (after tokens m) := by
  obtain ⟨z, hend⟩ := hend.tokenAt
  have hparts := hkey.word (by simp) (hname.name.then (hsign.then (by simp) (hv.then
    ((hend.separator (Or.inr rfl)).then givesAll_nil))))
  exact reads_statement_let hkey hparts.here

/-- What may follow the block of a conditional. -/
def otherwise : Production :=
  .optional (.choice [[kw "else", .rule .ifStatement], kw "else" :: Grammar.braced])

theorem gives_otherwise_none (h : NoElse tokens pos) : Gives tokens otherwise pos [] pos := by
  refine gives_optional_none (choice_failed_iff.mpr (readChoice_failed ?_))
  rw [NoElse] at h
  simp [choiceStarts, partsStart, kw, Production.starts, h]

theorem gives_otherwise_block (hkey : TokenAt tokens pos .keyword "else")
    (hs : ReadsStatements tokens ts ws)
    (hw : WordsAt tokens (after tokens pos) (inBraces ws) next) :
    Gives tokens otherwise pos [mark ⟨.keyword, "else", 0⟩, sign .leftCurly, blockOf ts,
      sign .rightCurly] next := by
  have hif : Fails tokens [kw "else", .rule .ifStatement] pos := by
    refine (hkey.gives (by simp) (by simp)).fails_then (fails_of_start ?_)
    exact hw.1.not_kind (by decide)
  have hparts := hkey.word (by simp) (hs.braced hw givesAll_nil)
  exact (GivesOne.there hif hparts.here).choice.optional

theorem gives_otherwise_if (hkey : TokenAt tokens pos .keyword "else")
    (h : Reads tokens .ifStatement (after tokens pos) t next) :
    Gives tokens otherwise pos [mark ⟨.keyword, "else", 0⟩, t] next :=
  (hkey.word (by simp) (h.then givesAll_nil)).here.choice.optional

/-- A conditional is read where no other branch follows it. -/
def ReadsConditional (tokens : Array Token) (t : Tree) (ws : List Word) : Prop :=
  ∀ {pos next}, WordsAt tokens pos ws next → NoElse tokens next →
    ∃ us, GivesAll tokens ifParts pos us next ∧ statementOf 0 us = t

theorem ReadsConditional.ifStatement (h : ReadsConditional tokens t ws)
    (hw : WordsAt tokens pos ws next) (hno : NoElse tokens next) :
    Reads tokens .ifStatement pos t next := by
  obtain ⟨us, hparts, rfl⟩ := h hw hno
  exact reads_of_production hparts.here.statement

theorem ReadsConditional.statement (h : ReadsConditional tokens t ws)
    (hw : WordsAt tokens pos ws next) (hno : NoElse tokens next) :
    Reads tokens .statement pos t next := by
  obtain ⟨us, hparts, rfl⟩ := h hw hno
  exact reads_of_production hparts.here.statement

end Statements

section Heads

theorem Printed.operand_head (h : Printed .value [t] w) :
    ∃ v rest, t.asOperand w = v :: rest ∧ v.kind ≠ .keyword := by
  rw [Tree.asOperand]
  split
  · rename_i hs
    obtain ⟨v, rfl, -, hk, -⟩ := h.simple hs
    refine ⟨v, [], rfl, ?_⟩
    intro hkeyword
    rw [hkeyword] at hk
    cases hk
  · exact ⟨of .leftParen, _, rfl, by decide⟩

/-- Only a function or a class begins with a keyword. -/
theorem Printed.head (h : Printed .value [t] w) (ht : t.kind ≠ .function ∧ t.kind ≠ .classLiteral) :
    ∃ v rest, w = v :: rest ∧ v.kind ≠ .keyword := by
  have hoperand : ∀ {t w}, Printed .operand [t] w → t.kind ≠ .function ∧ t.kind ≠ .classLiteral →
      ∃ v rest, w = v :: rest ∧ v.kind ≠ .keyword := by
    intro t w h ht
    cases h with
    | literal hw hk =>
      refine ⟨_, [], rfl, ?_⟩
      intro hkeyword
      rw [hkeyword] at hk
      cases hk
    | call h hs | member h hx | index h hi =>
      obtain ⟨v, rest, hv, hk⟩ := h.operand_head
      exact ⟨v, _, by rw [hv, List.cons_append], hk⟩
    | array hs => exact ⟨of .leftBracket, _, rfl, by decide⟩
    | defined h => cases h <;> simp at ht
  -- what a value begins with is what its first operand begins with
  cases h with
  | operand h => exact hoperand h ht
  | binary hx hl hr | comparison hx hl hr =>
    obtain ⟨v, rest, hv, hk⟩ := hl.operand_head
    exact ⟨v, _, by rw [hv, List.cons_append], hk⟩
  | assign hk h hv =>
    obtain ⟨v, rest, rfl, hk⟩ := hoperand h (by rcases hk with hk | hk <;> simp [hk])
    exact ⟨v, _, List.cons_append, hk⟩
  | indexWrite hk h hne hs hv =>
    obtain ⟨v, rest, hv, hk⟩ := h.operand_head
    exact ⟨v, _, by rw [hv, List.append_assoc, List.cons_append], hk⟩

theorem Printed.statement_head (h : Printed .statement [t] w) :
    ∃ v rest, w = v :: rest ∧ v ≠ keyword "else" := by
  cases h with
  | expression ht h =>
    obtain ⟨v, rest, rfl, hk⟩ := h.head ht
    refine ⟨v, _, List.cons_append, ?_⟩
    rintro rfl
    exact hk rfl
  | definition h =>
    cases h with
    | function hx hnames hs => exact ⟨keyword "func", _, rfl, by decide⟩
    | classLiteral hx hs => exact ⟨keyword "class", _, rfl, by decide⟩
  | declaration hx | initialisation hx hv => exact ⟨keyword "let", _, rfl, by decide⟩
  | loop h hs => exact ⟨keyword "while", _, rfl, by decide⟩
  | conditional h =>
    cases h with
    | plain h hs | withElse h hs hu | withElseIf h hs hu => exact ⟨keyword "if", _, rfl, by decide⟩

end Heads

section Printed

/-- A definition is read as an operand, and as a statement where a semicolon follows. -/
def ReadsDefinition (tokens : Array Token) (t : Tree) (ws : List Word) : Prop :=
  ∀ {pos next}, WordsAt tokens pos ws next → Reads tokens .primary pos t next ∧
    (At tokens .semicolon next → Reads tokens .statement pos (statementOf 0 [t]) (after tokens next))

/-- A statement is read where no other branch of a conditional follows it. -/
def ReadsStatement (tokens : Array Token) (t : Tree) (ws : List Word) : Prop :=
  ∀ {pos next}, WordsAt tokens pos ws next → NoElse tokens next → Reads tokens .statement pos t next

/-- The words of a part are read as the part. -/
def ReadAs (tokens : Array Token) : Role → List Tree → List Word → Prop
  | .value, [t], ws => ReadsValue tokens t ws
  | .operand, [t], ws => ∀ {pos next}, WordsAt tokens pos ws next → Operand tokens pos t next
  | .definition, [t], ws => ReadsDefinition tokens t ws
  | .statement, [t], ws => ReadsStatement tokens t ws
  | .conditional, [t], ws => ReadsConditional tokens t ws
  | .statements, ts, ws => ReadsStatements tokens ts ws
  | .items, ts, ws => ReadsItems tokens ts ws
  | .indices, ts, ws => ∀ {t pos m next}, Operand tokens pos t m → WordsAt tokens m ws next →
    Operand tokens pos (indexed t ts) next
  | _, _, _ => True

theorem Printed.readAs {role : Role} (h : Printed role ts ws) : ReadAs tokens role ts ws := by
  induction h with
  | operand h ih =>
    intro pos next hw hend
    exact (ih hw).expression hend
  | literal hw hk =>
    intro pos next h
    obtain ⟨hv, rfl⟩ := wordsAt_one h
    exact (hv.primary hk).operand
  | binary hx hl hr ihl ihr =>
    intro pos next h hend
    obtain ⟨m, hleft, hop, hright⟩ := wordsAt_append.mp h
    exact reads_binary (hl.asOperand ihl hleft) hop (level_pos hx) (hr.asOperand ihr hright) hend
  | comparison hx hl hr ihl ihr =>
    intro pos next h hend
    obtain ⟨m, hleft, hop, hright⟩ := wordsAt_append.mp h
    exact reads_comparison (hl.asOperand ihl hleft) hop (hr.asOperand ihr hright) hend
  | call h hs ih ihs =>
    intro pos next hw
    obtain ⟨m, hcallee, hlist⟩ := wordsAt_append.mp hw
    obtain ⟨k, hopen, hinner, hclose, rfl⟩ := wordsAt_between hlist
    have hitems := ReadsItems.list ihs hinner (Or.inl hclose.at)
    exact (h.asOperand ih hcallee).call hopen hitems hclose
  | member h hx ih =>
    intro pos next hw
    obtain ⟨m, hobject, hdot, hname, rfl⟩ := wordsAt_append.mp hw
    exact (h.asOperand ih hobject).member hdot hname
  | index h hi ih ihi =>
    intro pos next hw
    obtain ⟨m, htarget, hindex⟩ := wordsAt_append.mp hw
    obtain ⟨k, hopen, hinner, hclose, rfl⟩ := wordsAt_between hindex
    have hread := ihi hinner (hclose.at.closed (by simp))
    exact (h.asOperand ih htarget).index hopen hread hclose
  | array hs ihs =>
    intro pos next hw
    exact (reads_array ihs hw).operand
  | assign ht h hv ih ihv =>
    intro pos next hw hend
    obtain ⟨m, htarget, hsign, hvalue⟩ := wordsAt_append.mp hw
    rw [← assignmentOf_target ht]
    exact (ih htarget).assigned hsign (ihv hvalue hend)
  | indexWrite ht h hne hs hv ih ihs ihv =>
    intro pos next hw hend
    obtain ⟨m, htarget, hsign, hvalue⟩ := wordsAt_append.mp hw
    obtain ⟨k, hbase, hindices⟩ := wordsAt_append.mp htarget
    rw [← assignmentOf_indexed ht hne]
    exact (ihs (h.asOperand ih hbase) hindices).assigned hsign (ihv hvalue hend)
  | defined h ih =>
    intro pos next hw
    exact (ih hw).1.operand
  | @function x names ts ws hx hnames hs ihs =>
    intro pos next hw
    rw [List.cons_append, List.cons_append, List.append_assoc] at hw
    obtain ⟨hkey, hw⟩ := hw
    -- without a name the literal is read as an expression is, and with one as a definition
    by_cases hempty : x = ""
    · subst hempty
      have hread := reads_anonymous ihs hkey hw
      refine ⟨hread.primary_function, fun hend => ?_⟩
      have hexpression := hread.primary_function.operand.expression (hend.closed (Or.inl rfl))
      exact reads_statement_anonymous hkey (hw.1.not_kind (by decide)) hexpression hend
    · rw [nameOf, if_neg hempty] at hw
      obtain ⟨hname, hw⟩ := hw
      exact ⟨(reads_named ihs hkey hname hw).primary_function,
        reads_statement_function hkey (gives_named ihs hkey hname hw)⟩
  | classLiteral hx hs ihs =>
    intro pos next hw
    obtain ⟨hkey, hname, hbody⟩ := hw
    have hread := reads_class ihs hkey hname hbody
    exact ⟨hread.primary_class hkey, reads_statement_class hkey hread⟩
  | expression ht h ih =>
    intro pos next hw _
    obtain ⟨m, hvalue, hlast⟩ := wordsAt_append.mp hw
    obtain ⟨hend, rfl⟩ := wordsAt_one hlast
    have hread := ih hvalue (hend.at.closed (Or.inl rfl))
    obtain ⟨v, rest, rfl, hk⟩ := h.head ht
    have hstatement := hread.statement hvalue.1 hk hend
    rwa [statementOf_plain ht] at hstatement
  | definition h ih =>
    intro pos next hw _
    obtain ⟨m, hdefinition, hlast⟩ := wordsAt_append.mp hw
    obtain ⟨hend, rfl⟩ := wordsAt_one hlast
    exact (ih hdefinition).2 hend.at
  | declaration hx =>
    intro pos next hw _
    obtain ⟨hkey, hname, hend, rfl⟩ := hw
    exact reads_declaration hkey hname hend.at
  | initialisation hx hv ihv =>
    intro pos next hw _
    obtain ⟨m, ⟨hkey, hname, hsign, hvalue⟩, hlast⟩ := wordsAt_append.mp hw
    obtain ⟨hend, rfl⟩ := wordsAt_one hlast
    exact reads_initialisation hkey hname hsign (ihv hvalue (hend.at.closed (Or.inl rfl))) hend.at
  | loop h hs ih ihs =>
    intro pos next hw _
    obtain ⟨hkey, hrest⟩ := hw
    exact reads_statement_while hkey (gives_test hkey ih ihs hrest givesAll_nil)
  | conditional h ih =>
    intro pos next hw hno
    exact ReadsConditional.statement ih hw hno
  | plain h hs ih ihs =>
    intro pos next hw hno
    obtain ⟨hkey, hrest⟩ := hw
    exact ⟨_, gives_test hkey ih ihs hrest ((gives_otherwise_none hno).then givesAll_nil), rfl⟩
  | withElse h hs hu ih ihs ihu =>
    intro pos next hw hno
    obtain ⟨m, ⟨hkey, hrest⟩, helse, hother⟩ := wordsAt_append.mp hw
    have hblock := gives_otherwise_block helse ihu hother
    exact ⟨_, gives_test hkey ih ihs hrest (hblock.then givesAll_nil), rfl⟩
  | withElseIf h hs hu ih ihs ihu =>
    intro pos next hw hno
    obtain ⟨m, ⟨hkey, hrest⟩, helse, hother⟩ := wordsAt_append.mp hw
    have hread := ReadsConditional.ifStatement ihu hother hno
    exact ⟨_, gives_test hkey ih ihs hrest ((gives_otherwise_if helse hread).then givesAll_nil), rfl⟩
  | noStatements =>
    intro pos next hw hend
    obtain rfl : pos = next := hw
    exact gives_statements_none hend.starts
  | moreStatements h hs ih ihs =>
    intro pos next hw hend
    obtain ⟨m, hfirst, hrest⟩ := wordsAt_append.mp hw
    -- the statement is followed by another one or by the end, and neither begins with else
    have hno : NoElse tokens m := by
      cases hs with
      | noStatements =>
        obtain rfl : m = next := hrest
        exact hend.noElse
      | moreStatements h' hs' =>
        obtain ⟨v, rest, rfl, hv⟩ := h'.statement_head
        exact not_else hrest.1 hv
    exact (ih hfirst hno).more (ihs hrest hend)
  | noItems => rfl
  | lastItem h ih =>
    intro pos next hw hend
    exact ⟨next, ih hw hend.closed, gives_comma_none (hend.not_at (by simp) (by simp))⟩
  | moreItems h hs ih ihs =>
    intro pos next hw hend
    obtain ⟨m, hfirst, hcomma, hrest⟩ := wordsAt_append.mp hw
    obtain ⟨k, hsecond, hmore⟩ := ihs hrest hend
    exact ⟨m, ih hfirst (hcomma.at.closed (Or.inr (Or.inl rfl))),
      Gives.comma rfl hcomma hsecond.gives hmore⟩
  | noIndices =>
    intro t pos m next h hw
    obtain rfl : m = next := hw
    exact h
  | moreIndices h hs ih ihs =>
    intro t pos m next ht hw
    obtain ⟨k, hindex, hrest⟩ := wordsAt_append.mp hw
    obtain ⟨n, hopen, hinner, hclose, rfl⟩ := wordsAt_between hindex
    have hread := ih hinner (hclose.at.closed (by simp))
    exact ihs (ht.index hopen hread hclose) hrest

end Printed

end ScriptKit.Grammar
