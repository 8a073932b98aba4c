import ScriptKit.Proofs.Grammar.Outcomes

namespace ScriptKit.Grammar

/-- A tree with a suffix. -/
def wrap (t : Tree) (parts : List Tree) : Tree :=
  .branch .expression t.line (t :: parts)

mutual

/-- The trees that a production can make of some tokens or other, where `R` says which trees a rule
makes. -/
def Makes (R : Rule → Tree → Prop) : Production → List Tree → Prop
  | .token kind text, ts =>
    ∃ x line, (kind ≠ .string → ∀ word ∈ text, x = word) ∧
      ts = [.leaf (terminalKind kind) x line]
  | .rule r, ts => ∃ t, R r t ∧ ts = [t]
  | .node kind alternatives, ts =>
    ∃ us line, MakesOne R alternatives us ∧ ts = [.branch kind line us]
  | .choice alternatives, ts => MakesOne R alternatives ts
  | .many parts, ts => ∃ rounds : List (List Tree), (∀ us ∈ rounds, MakesAll R parts us) ∧
      ts = rounds.flatten
  | .optional p, ts => Makes R p ts ∨ ts = []
  | .chain head suffix, ts => ∃ t us, Makes R head (t :: us) ∧
      ∃ rounds : List (List Tree), (∀ vs ∈ rounds, Makes R suffix vs) ∧ ts = [rounds.foldl wrap t]

def MakesAll (R : Rule → Tree → Prop) : List Production → List Tree → Prop
  | [], ts => ts = []
  | p :: parts, ts => ∃ us, Makes R p us ∧ ∃ vs, MakesAll R parts vs ∧ ts = us ++ vs

def MakesOne (R : Rule → Tree → Prop) : List (List Production) → List Tree → Prop
  | [], _ => False
  | parts :: alternatives, ts => MakesAll R parts ts ∨ MakesOne R alternatives ts

end

section Reading

variable {tokens : Array Token} {rule : Rule → Nat → Attempt} {R : Rule → Tree → Prop}

theorem readMany_makes {step : Nat → Attempt} {P : List Tree → Prop}
    (hstep : ∀ {pos ts next}, (step pos).outcome = .matched ts next → P ts) (fuel : Nat) :
    ∀ {pos ts next}, (readMany step fuel pos).outcome = .matched ts next →
      ∃ rounds : List (List Tree), (∀ us ∈ rounds, P us) ∧ ts = rounds.flatten := by
  induction fuel with
  | zero => intro pos ts next h; cases h
  | succ fuel ih =>
    intro pos ts next h
    rw [readMany] at h
    cases ho : (step pos).outcome with
    | exhausted => simp [ho] at h
    | failed =>
      simp only [ho, Outcome.matched.injEq] at h
      exact ⟨[], by simp, h.1.symm⟩
    | matched us m =>
      simp only [ho] at h
      split at h
      -- a round that takes nothing is the last, and its trees count
      · rw [ho] at h
        cases h
        exact ⟨[ts], by simpa using hstep ho, by simp⟩
      · obtain ⟨vs, hrest, rfl⟩ := Attempt.outcome_map_eq_matched.mp h
        obtain ⟨rounds, hall, rfl⟩ := ih hrest
        refine ⟨us :: rounds, ?_, rfl⟩
        intro vs hvs
        rcases List.mem_cons.mp hvs with rfl | hvs
        · exact hstep ho
        · exact hall vs hvs

theorem readSuffixes_makes {step : Nat → Attempt} {P : List Tree → Prop}
    (hstep : ∀ {pos ts next}, (step pos).outcome = .matched ts next → P ts) (fuel : Nat) :
    ∀ {pos target ts next}, (readSuffixes step fuel target pos).outcome = .matched ts next →
      ∃ rounds : List (List Tree), (∀ us ∈ rounds, P us) ∧ ts = [rounds.foldl wrap target] := by
  induction fuel with
  | zero => intro pos target ts next h; cases h
  | succ fuel ih =>
    intro pos target ts next h
    rw [readSuffixes] at h
    cases ho : (step pos).outcome with
    | exhausted => simp [ho] at h
    | failed =>
      simp only [ho, Outcome.matched.injEq] at h
      exact ⟨[], by simp, h.1.symm⟩
    | matched us m =>
      simp only [ho, Attempt.outcome_reaching] at h
      obtain ⟨rounds, hall, rfl⟩ := ih h
      refine ⟨us :: rounds, ?_, rfl⟩
      intro vs hvs
      rcases List.mem_cons.mp hvs with rfl | hvs
      · exact hstep ho
      · exact hall vs hvs

mutual

/-- What a production reads is what it can make. -/
theorem readProduction_makes
    (hrule : ∀ {r pos ts next}, (rule r pos).outcome = .matched ts next → ∃ t, R r t ∧ ts = [t]) :
    ∀ (p : Production) {pos ts next},
    (readProduction tokens rule p pos).outcome = .matched ts next → Makes R p ts
  | .token kind text, pos, ts, next, h => by
    obtain ⟨t, -, hacc, rfl, -⟩ := token_matched_iff.mp h
    simp only [accepts, Bool.and_eq_true, decide_eq_true_eq] at hacc
    obtain ⟨rfl, htext⟩ := hacc
    rw [Makes]
    refine ⟨terminalText t, t.line, ?_, rfl⟩
    intro hkind word hword
    cases hword
    rw [terminalText, if_neg hkind]
    simpa [eq_comm] using htext
  | .rule r, pos, ts, next, h => by
    rw [Makes]
    exact hrule (rule_matched_iff.mp h)
  | .node k alternatives, pos, ts, next, h => by
    obtain ⟨us, h', rfl⟩ := node_matched_iff.mp h
    rw [Makes]
    exact ⟨us, _, readChoice_makes hrule alternatives h', rfl⟩
  | .choice alternatives, pos, ts, next, h => by
    rw [Makes]
    exact readChoice_makes hrule alternatives (choice_matched_iff.mp h)
  | .many parts, pos, ts, next, h => by
    simp only [readProduction] at h
    rw [Makes]
    exact readMany_makes (fun h => readParts_makes hrule parts h) _ h
  | .optional p, pos, ts, next, h => by
    rw [Makes]
    rcases optional_matched_iff.mp h with h | ⟨-, rfl, rfl⟩
    · exact Or.inl (readProduction_makes hrule p h)
    · exact Or.inr rfl
  | .chain head suffix, pos, ts, next, h => by
    obtain ⟨t, us, m, hhead, hsuffixes⟩ := chain_matched_iff.mp h
    rw [Makes]
    exact ⟨t, us, readProduction_makes hrule head hhead,
      readSuffixes_makes (fun h => readProduction_makes hrule suffix h) _ hsuffixes⟩

theorem readParts_makes
    (hrule : ∀ {r pos ts next}, (rule r pos).outcome = .matched ts next → ∃ t, R r t ∧ ts = [t]) :
    ∀ (parts : List Production) {pos ts next},
    (readParts tokens rule parts pos).outcome = .matched ts next → MakesAll R parts ts
  | [], pos, ts, next, h => (parts_nil_matched_iff.mp h).1
  | p :: parts, pos, ts, next, h => by
    obtain ⟨us, m, vs, h₁, h₂, rfl⟩ := parts_cons_matched_iff.mp h
    exact ⟨us, readProduction_makes hrule p h₁, vs, readParts_makes hrule parts h₂, rfl⟩

theorem readChoice_makes
    (hrule : ∀ {r pos ts next}, (rule r pos).outcome = .matched ts next → ∃ t, R r t ∧ ts = [t]) :
    ∀ (alternatives : List (List Production)) {pos ts next},
    (readChoice tokens rule alternatives pos).outcome = .matched ts next →
      MakesOne R alternatives ts
  | [], pos, ts, next, h => absurd h not_choice_nil_matched
  | parts :: alternatives, pos, ts, next, h => by
    rcases choice_cons_matched_iff.mp h with h | ⟨-, h⟩
    · exact Or.inl (readParts_makes hrule parts h)
    · exact Or.inr (readChoice_makes hrule alternatives h)

end

end Reading

/-- Trees with pairs of trees after them: an operator or a comma, and the next operand. -/
def interleaved (t : Tree) (rest : List (Tree × Tree)) : List Tree :=
  t :: rest.flatMap fun p => [p.1, p.2]

/-- The end of a statement that may have a semicolon. -/
def Ending (ts : List Tree) : Prop :=
  ts = [] ∨ ∃ x line, ts = [.leaf .semicolon x line]

/-- The trees that the rules of the grammar make. -/
inductive Raw : Rule → Tree → Prop
  | block {line : Nat} {ts : List Tree} (h : ∀ t ∈ ts, Raw .statement t) :
    Raw .block (.branch .block line ts)
  | ifThen (he : Raw .expression e) (hb : Raw .block b) :
    Raw .ifStatement (.branch .statement line [.leaf .keyword "if" l₁, .leaf .leftParen x₂ l₂, e,
      .leaf .rightParen x₃ l₃, .leaf .leftCurly x₄ l₄, b, .leaf .rightCurly x₅ l₅])
  | ifElseIf (he : Raw .expression e) (hb : Raw .block b) (hs : Raw .ifStatement s) :
    Raw .ifStatement (.branch .statement line [.leaf .keyword "if" l₁, .leaf .leftParen x₂ l₂, e,
      .leaf .rightParen x₃ l₃, .leaf .leftCurly x₄ l₄, b, .leaf .rightCurly x₅ l₅,
      .leaf .keyword "else" l₆, s])
  | ifElse (he : Raw .expression e) (hb : Raw .block b) (hc : Raw .block c) :
    Raw .ifStatement (.branch .statement line [.leaf .keyword "if" l₁, .leaf .leftParen x₂ l₂, e,
      .leaf .rightParen x₃ l₃, .leaf .leftCurly x₄ l₄, b, .leaf .rightCurly x₅ l₅,
      .leaf .keyword "else" l₆, .leaf .leftCurly x₇ l₇, c, .leaf .rightCurly x₈ l₈])
  | conditional (h : Raw .ifStatement t) : Raw .statement t
  | whileLoop (he : Raw .expression e) (hb : Raw .block b) :
    Raw .statement (.branch .statement line [.leaf .keyword "while" l₁, .leaf .leftParen x₂ l₂, e,
      .leaf .rightParen x₃ l₃, .leaf .leftCurly x₄ l₄, b, .leaf .rightCurly x₅ l₅])
  | functionStatement (hf : Raw .function f) (he : Ending ends) :
    Raw .statement (.branch .statement line (f :: ends))
  | classStatement (hc : Raw .classLiteral c) (he : Ending ends) :
    Raw .statement (.branch .statement line (c :: ends))
  | initialisation (he : Raw .expression e) :
    Raw .statement (.branch .statement line [.leaf .keyword "let" l₁, .leaf .identifier x₂ l₂,
      .leaf .assignment x₃ l₃, e, .leaf .semicolon x₄ l₄])
  | declaration :
    Raw .statement (.branch .statement line [.leaf .keyword "let" l₁, .leaf .identifier x₂ l₂,
      .leaf .semicolon x₃ l₃])
  | expressionStatement (he : Raw .expression e) :
    Raw .statement (.branch .statement line [e, .leaf .semicolon x₁ l₁])
  | assignment (ht : Raw .suffixed t) (hv : Raw .expression v) :
    Raw .expression (.branch .expression line [t, .leaf .assignment x₁ l₁, v])
  | compared (h : Raw .comparison t) : Raw .expression (.branch .expression line [t])
  | comparison (ht : Raw .additive t) (hu : Raw .additive u) :
    Raw .comparison (.branch .expression line [t, .leaf .comparator x₁ l₁, u])
  | uncompared (h : Raw .additive t) : Raw .comparison (.branch .expression line [t])
  | additive {line : Nat} {t : Tree} {rest : List (Tree × Tree)} (ht : Raw .multiplicative t)
    (ho : ∀ p ∈ rest, ∃ x l, p.1 = .leaf .operator x l)
    (hr : ∀ p ∈ rest, Raw .multiplicative p.2) :
    Raw .additive (.branch .expression line (interleaved t rest))
  | multiplicative {line : Nat} {t : Tree} {rest : List (Tree × Tree)} (ht : Raw .power t)
    (ho : ∀ p ∈ rest, ∃ x l, p.1 = .leaf .operator x l) (hr : ∀ p ∈ rest, Raw .power p.2) :
    Raw .multiplicative (.branch .expression line (interleaved t rest))
  | power (ht : Raw .suffixed t) (hu : Raw .power u) :
    Raw .power (.branch .expression line [t, .leaf .operator "**" l₁, u])
  | unpowered (h : Raw .suffixed t) : Raw .power (.branch .expression line [t])
  | plain (h : Raw .primary t) : Raw .suffixed t
  | call (ht : Raw .suffixed t) (hl : Raw .expressionList l) :
    Raw .suffixed (.branch .expression line [t, .leaf .leftParen x₁ l₁, l, .leaf .rightParen x₂ l₂])
  | index (ht : Raw .suffixed t) (hi : Raw .expression i) :
    Raw .suffixed
      (.branch .expression line [t, .leaf .leftBracket x₁ l₁, i, .leaf .rightBracket x₂ l₂])
  | member (ht : Raw .suffixed t) :
    Raw .suffixed (.branch .expression line [t, .leaf .dot x₁ l₁, .leaf .identifier x₂ l₂])
  | parenthesised (he : Raw .expression e) :
    Raw .primary (.branch .expression line [.leaf .leftParen x₁ l₁, e, .leaf .rightParen x₂ l₂])
  | functionOperand (h : Raw .function t) : Raw .primary t
  | classOperand (h : Raw .classLiteral t) : Raw .primary t
  | arrayOperand (h : Raw .array t) : Raw .primary t
  | literal {k : Tree.Kind} {x : String} {line : Nat} (hk : k.isLiteral = true) :
    Raw .primary (.leaf k x line)
  | anonymous (ha : Raw .argumentList a) (hb : Raw .block b) :
    Raw .function (.branch .expression line [.leaf .keyword "func" l₁, .leaf .leftParen x₃ l₃, a,
      .leaf .rightParen x₄ l₄, .leaf .leftCurly x₅ l₅, b, .leaf .rightCurly x₆ l₆])
  | named (ha : Raw .argumentList a) (hb : Raw .block b) :
    Raw .function (.branch .expression line [.leaf .keyword "func" l₁, .leaf .identifier x₂ l₂,
      .leaf .leftParen x₃ l₃, a, .leaf .rightParen x₄ l₄, .leaf .leftCurly x₅ l₅, b,
      .leaf .rightCurly x₆ l₆])
  | classLiteral (hb : Raw .block b) :
    Raw .classLiteral (.branch .expression line [.leaf .keyword "class" l₁,
      .leaf .identifier x₂ l₂, .leaf .leftCurly x₃ l₃, b, .leaf .rightCurly x₄ l₄])
  | array (hl : Raw .expressionList l) :
    Raw .array (.branch .array line [.leaf .leftBracket x₁ l₁, l, .leaf .rightBracket x₂ l₂])
  | noExpressions : Raw .expressionList (.branch .expressionList line [])
  | expressions {line : Nat} {t : Tree} {rest : List (Tree × Tree)} (ht : Raw .expression t)
    (hc : ∀ p ∈ rest, ∃ x l, p.1 = .leaf .comma x l) (hr : ∀ p ∈ rest, Raw .expression p.2) :
    Raw .expressionList (.branch .expressionList line (interleaved t rest))
  | noArguments : Raw .argumentList (.branch .argumentList line [])
  | arguments {line : Nat} {t : Tree} {rest : List (Tree × Tree)}
    (ht : ∃ x l, t = .leaf .identifier x l) (hc : ∀ p ∈ rest, ∃ x l, p.1 = .leaf .comma x l)
    (hr : ∀ p ∈ rest, ∃ x l, p.2 = .leaf .identifier x l) :
    Raw .argumentList (.branch .argumentList line (interleaved t rest))

section Rules

variable {ts : List Tree}

theorem makes_kw {R : Rule → Tree → Prop} {word : String} (h : Makes R (kw word) ts) :
    ∃ line, ts = [.leaf .keyword word line] := by
  rw [kw, Makes] at h
  obtain ⟨x, line, hx, rfl⟩ := h
  rw [hx (by simp) word rfl]
  exact ⟨line, rfl⟩

theorem makes_op {R : Rule → Tree → Prop} {symbol : String} (h : Makes R (op symbol) ts) :
    ∃ line, ts = [.leaf .operator symbol line] := by
  rw [op, Makes] at h
  obtain ⟨x, line, hx, rfl⟩ := h
  rw [hx (by simp) symbol rfl]
  exact ⟨line, rfl⟩

theorem makes_punct {R : Rule → Tree → Prop} {kind : Token.Kind} (h : Makes R (punct kind) ts) :
    ∃ x line, ts = [.leaf (terminalKind kind) x line] := by
  rw [punct, Makes] at h
  obtain ⟨x, line, -, rfl⟩ := h
  exact ⟨x, line, rfl⟩

theorem makes_rule {R : Rule → Tree → Prop} {r : Rule} (h : Makes R (.rule r) ts) :
    ∃ t, R r t ∧ ts = [t] := by
  rwa [Makes] at h

/-- A rule between two marks, and what comes after it. -/
theorem makesAll_enclosed {R : Rule → Tree → Prop} {left right : Token.Kind} {r : Rule}
    {parts : List Production} (h : MakesAll R (punct left :: .rule r :: punct right :: parts) ts) :
    ∃ x₁ l₁ t x₂ l₂ us, R r t ∧ MakesAll R parts us ∧
      ts = .leaf (terminalKind left) x₁ l₁ :: t :: .leaf (terminalKind right) x₂ l₂ :: us := by
  obtain ⟨_, h₁, _, ⟨_, h₂, _, ⟨_, h₃, us, h₄, rfl⟩, rfl⟩, rfl⟩ := h
  obtain ⟨x₁, l₁, rfl⟩ := makes_punct h₁
  obtain ⟨t, ht, rfl⟩ := makes_rule h₂
  obtain ⟨x₂, l₂, rfl⟩ := makes_punct h₃
  exact ⟨x₁, l₁, t, x₂, l₂, us, ht, h₄, rfl⟩

theorem makes_node {R : Rule → Tree → Prop} {kind : Tree.Kind}
    {alternatives : List (List Production)} (h : Makes R (.node kind alternatives) ts) :
    ∃ us line, MakesOne R alternatives us ∧ ts = [.branch kind line us] := by
  rwa [Makes] at h

/-- Repetitions of two parts each are a list of pairs. -/
theorem makes_pairs {R : Rule → Tree → Prop} {p q : Production} {P Q : Tree → Prop}
    (hp : ∀ {us}, Makes R p us → ∃ t, P t ∧ us = [t])
    (hq : ∀ {us}, Makes R q us → ∃ t, Q t ∧ us = [t]) (h : Makes R (.many [p, q]) ts) :
    ∃ rest : List (Tree × Tree), (∀ u ∈ rest, P u.1) ∧ (∀ u ∈ rest, Q u.2) ∧
      ts = rest.flatMap fun u => [u.1, u.2] := by
  rw [Makes] at h
  obtain ⟨rounds, hall, rfl⟩ := h
  -- each round makes the two trees of one pair
  induction rounds with
  | nil => exact ⟨[], by simp, by simp, rfl⟩
  | cons us rounds ih =>
    obtain ⟨rest, hP, hQ, he⟩ := ih fun vs hvs => hall vs (List.mem_cons_of_mem _ hvs)
    obtain ⟨_, h₁, _, ⟨_, h₂, _, h₃, rfl⟩, rfl⟩ := hall us List.mem_cons_self
    obtain rfl : _ = [] := h₃
    obtain ⟨t, ht, rfl⟩ := hp h₁
    obtain ⟨u, hu, rfl⟩ := hq h₂
    refine ⟨(t, u) :: rest, ?_, ?_, ?_⟩
    · intro v hv
      rcases List.mem_cons.mp hv with rfl | hv
      · exact ht
      · exact hP v hv
    · intro v hv
      rcases List.mem_cons.mp hv with rfl | hv
      · exact hu
      · exact hQ v hv
    · simp [he]

theorem makes_leaf {R : Rule → Tree → Prop} {kind : Token.Kind} (h : Makes R (punct kind) ts) :
    ∃ t, (∃ x l, t = Tree.leaf (terminalKind kind) x l) ∧ ts = [t] := by
  obtain ⟨x, l, rfl⟩ := makes_punct h
  exact ⟨_, ⟨x, l, rfl⟩, rfl⟩

theorem makes_ending {R : Rule → Tree → Prop} (h : Makes R (.optional semicolon) ts) :
    Ending ts := by
  rw [Makes] at h
  rcases h with h | rfl
  · exact Or.inr (makes_punct h)
  · exact Or.inl rfl

theorem makesAll_one {R : Rule → Tree → Prop} {p : Production} (h : MakesAll R [p] ts) :
    Makes R p ts := by
  obtain ⟨us, hu, _, rfl, rfl⟩ := h
  rwa [List.append_nil]

theorem raw_ifParts {line : Nat} (h : MakesAll Raw ifParts ts) :
    Raw .ifStatement (.branch .statement line ts) := by
  obtain ⟨_, hw, _, htest, rfl⟩ := h
  obtain ⟨l₁, rfl⟩ := makes_kw hw
  obtain ⟨x₂, l₂, e, x₃, l₃, _, he, hbody, rfl⟩ := makesAll_enclosed htest
  obtain ⟨x₄, l₄, b, x₅, l₅, _, hb, hrest, rfl⟩ := makesAll_enclosed hbody
  have helse := makesAll_one hrest
  rw [Makes, Makes] at helse
  rcases helse with (helse | helse | helse) | rfl
  · obtain ⟨_, hw, _, hnext, rfl⟩ := helse
    obtain ⟨l₆, rfl⟩ := makes_kw hw
    obtain ⟨s, hs, rfl⟩ := makes_rule (makesAll_one hnext)
    exact .ifElseIf he hb hs
  · obtain ⟨_, hw, _, hnext, rfl⟩ := helse
    obtain ⟨l₆, rfl⟩ := makes_kw hw
    obtain ⟨x₇, l₇, c, x₈, l₈, _, hc, rfl, rfl⟩ := makesAll_enclosed hnext
    exact .ifElse he hb hc
  · exact helse.elim
  · exact .ifThen he hb

theorem raw_whileParts {line : Nat} (h : MakesAll Raw whileParts ts) :
    Raw .statement (.branch .statement line ts) := by
  obtain ⟨_, hw, _, htest, rfl⟩ := h
  obtain ⟨l₁, rfl⟩ := makes_kw hw
  obtain ⟨x₂, l₂, e, x₃, l₃, _, he, hbody, rfl⟩ := makesAll_enclosed htest
  obtain ⟨x₄, l₄, b, x₅, l₅, _, hb, rfl, rfl⟩ := makesAll_enclosed hbody
  exact .whileLoop he hb

theorem raw_function {name : Production} {line : Nat}
    (hname : ∀ {us}, Makes Raw name us → us = [] ∨ ∃ x l, us = [.leaf .identifier x l])
    (h : MakesAll Raw (kw "func" :: name :: parenthesised (.rule .argumentList) ++ braced) ts) :
    Raw .function (.branch .expression line ts) := by
  obtain ⟨_, hw, _, ⟨_, hn, _, hparams, rfl⟩, rfl⟩ := h
  obtain ⟨l₁, rfl⟩ := makes_kw hw
  obtain ⟨x₃, l₃, a, x₄, l₄, _, ha, hbody, rfl⟩ := makesAll_enclosed hparams
  obtain ⟨x₅, l₅, b, x₆, l₆, _, hb, rfl, rfl⟩ := makesAll_enclosed hbody
  rcases hname hn with rfl | ⟨x₂, l₂, rfl⟩
  · exact .anonymous ha hb
  · exact .named ha hb

theorem raw_statement (h : Makes Raw (production .statement) ts) :
    ∃ t, Raw .statement t ∧ ts = [t] := by
  obtain ⟨us, line, hone, rfl⟩ := makes_node h
  refine ⟨_, ?_, rfl⟩
  clear h
  -- one case for each alternative, in their order
  rcases hone with h | h | h | h | h | h | h | h | h
  · exact .conditional (raw_ifParts h)
  · exact raw_whileParts h
  · obtain ⟨_, mf, _, h, rfl⟩ := h
    obtain ⟨_, line', hf, rfl⟩ := makes_node mf
    clear mf
    rcases hf with hf | hf
    · exact .functionStatement
        (raw_function (fun (hn : Makes Raw name _) => Or.inr (makes_punct hn)) hf)
        (makes_ending (makesAll_one h))
    · exact hf.elim
  · obtain ⟨_, mc, _, h, rfl⟩ := h
    obtain ⟨c, hc, rfl⟩ := makes_rule mc
    exact .classStatement hc (makes_ending (makesAll_one h))
  · obtain ⟨_, hw, _, ⟨_, hn, _, ⟨_, ha, _, ⟨_, me, _, hend, rfl⟩, rfl⟩, rfl⟩, rfl⟩ := h
    obtain ⟨l₁, rfl⟩ := makes_kw hw
    obtain ⟨x₂, l₂, rfl⟩ := makes_punct hn
    obtain ⟨x₃, l₃, rfl⟩ := makes_punct ha
    obtain ⟨e, he, rfl⟩ := makes_rule me
    obtain ⟨x₄, l₄, rfl⟩ := makes_punct (makesAll_one hend)
    exact .initialisation he
  · obtain ⟨_, hw, _, ⟨_, hn, _, h, rfl⟩, rfl⟩ := h
    obtain ⟨l₁, rfl⟩ := makes_kw hw
    obtain ⟨x₂, l₂, rfl⟩ := makes_punct hn
    obtain ⟨x₃, l₃, rfl⟩ := makes_punct (makesAll_one h)
    exact .declaration
  · obtain ⟨_, me, _, h, rfl⟩ := h
    obtain ⟨e, he, rfl⟩ := makes_rule me
    obtain ⟨x₁, l₁, rfl⟩ := makes_punct (makesAll_one h)
    exact .expressionStatement he
  · obtain ⟨_, mf, _, h, rfl⟩ := h
    obtain ⟨f, hf, rfl⟩ := makes_rule mf
    exact .functionStatement hf (makes_ending (makesAll_one h))
  · exact h.elim

theorem raw_suffix {t : Tree} {us : List Tree} (ht : Raw .suffixed t) (h : Makes Raw suffix us) :
    Raw .suffixed (wrap t us) := by
  rw [suffix, Makes] at h
  rcases h with h | h | h | h
  · obtain ⟨x₁, l₁, l, x₂, l₂, _, hl, rfl, rfl⟩ := makesAll_enclosed h
    exact .call ht hl
  · obtain ⟨x₁, l₁, i, x₂, l₂, _, hi, rfl, rfl⟩ := makesAll_enclosed h
    exact .index ht hi
  · obtain ⟨_, hd, _, h, rfl⟩ := h
    obtain ⟨x₁, l₁, rfl⟩ := makes_punct hd
    obtain ⟨x₂, l₂, rfl⟩ := makes_punct (makesAll_one h)
    exact .member ht
  · exact h.elim

theorem raw_primary (h : Makes Raw (production .primary) ts) : ∃ t, Raw .primary t ∧ ts = [t] := by
  rw [production, Makes] at h
  rcases h with h | h | h | h | h | h | h | h | h | h
  · obtain ⟨us, line, hone, rfl⟩ := makes_node (makesAll_one h)
    refine ⟨_, ?_, rfl⟩
    clear h
    rcases hone with h | h
    · obtain ⟨x₁, l₁, e, x₂, l₂, _, he, rfl, rfl⟩ := makesAll_enclosed h
      exact .parenthesised he
    · exact h.elim
  · obtain ⟨t, ht, rfl⟩ := makes_rule (makesAll_one h)
    exact ⟨t, .functionOperand ht, rfl⟩
  · obtain ⟨t, ht, rfl⟩ := makes_rule (makesAll_one h)
    exact ⟨t, .classOperand ht, rfl⟩
  · obtain ⟨t, ht, rfl⟩ := makes_rule (makesAll_one h)
    exact ⟨t, .arrayOperand ht, rfl⟩
  case inr.inr.inr.inr.inr.inr.inr.inr.inr => exact h.elim
  all_goals
    obtain ⟨x, line, rfl⟩ := makes_punct (makesAll_one h)
    exact ⟨_, .literal rfl, rfl⟩

theorem makes_operator (symbols : List String)
    (h : Makes Raw (.choice (symbols.map fun s => [op s])) ts) :
    ∃ t, (∃ x l, t = Tree.leaf .operator x l) ∧ ts = [t] := by
  rw [Makes] at h
  induction symbols with
  | nil => exact h.elim
  | cons symbol symbols ih =>
    rcases h with h | h
    · obtain ⟨l, rfl⟩ := makes_op (makesAll_one h)
      exact ⟨_, ⟨symbol, l, rfl⟩, rfl⟩
    · exact ih h

theorem makes_separated {kind : Tree.Kind} {item : Production} {P : Tree → Prop}
    (hitem : ∀ {us}, Makes Raw item us → ∃ t, P t ∧ us = [t])
    (h : Makes Raw (commaList kind item) ts) : ∃ line us, ts = [.branch kind line us] ∧
      (us = [] ∨ ∃ t rest, P t ∧ (∀ p ∈ rest, ∃ x l, p.1 = Tree.leaf .comma x l) ∧
        (∀ p ∈ rest, P p.2) ∧ us = interleaved t rest) := by
  obtain ⟨us, line, hone, rfl⟩ := makes_node h
  refine ⟨line, us, rfl, ?_⟩
  clear h
  rcases hone with h | h | h
  · obtain ⟨_, hi, _, h, rfl⟩ := h
    obtain ⟨t, ht, rfl⟩ := hitem hi
    obtain ⟨rest, hc, hr, rfl⟩ := makes_pairs makes_leaf hitem (makesAll_one h)
    exact Or.inr ⟨t, rest, ht, hc, hr, rfl⟩
  · exact Or.inl h
  · exact h.elim

theorem makes_alternative {R : Rule → Tree → Prop} {kind : Tree.Kind} {parts : List Production}
    (h : Makes R (.node kind [parts]) ts) :
    ∃ us line, MakesAll R parts us ∧ ts = [.branch kind line us] := by
  obtain ⟨us, line, hone, rfl⟩ := makes_node h
  rcases hone with h | h
  · exact ⟨us, line, h, rfl⟩
  · exact h.elim

theorem makes_alternatives {R : Rule → Tree → Prop} {kind : Tree.Kind}
    {parts parts' : List Production} (h : Makes R (.node kind [parts, parts']) ts) :
    ∃ us line, (MakesAll R parts us ∨ MakesAll R parts' us) ∧ ts = [.branch kind line us] := by
  obtain ⟨us, line, hone, rfl⟩ := makes_node h
  rcases hone with h | h | h
  · exact ⟨us, line, Or.inl h, rfl⟩
  · exact ⟨us, line, Or.inr h, rfl⟩
  · exact h.elim

/-- Two operands with a sign between them. -/
theorem makes_operation {R : Rule → Tree → Prop} {r r' : Rule} {sign : Production}
    (h : MakesAll R [.rule r, sign, .rule r'] ts) :
    ∃ t us u, R r t ∧ Makes R sign us ∧ R r' u ∧ ts = t :: (us ++ [u]) := by
  obtain ⟨_, mt, _, ⟨us, hsign, _, h, rfl⟩, rfl⟩ := h
  obtain ⟨t, ht, rfl⟩ := makes_rule mt
  obtain ⟨u, hu, rfl⟩ := makes_rule (makesAll_one h)
  exact ⟨t, us, u, ht, hsign, hu, rfl⟩

/-- An operand with any number of others, each after an operator. -/
theorem makes_operations {r : Rule} (symbols : List String)
    (h : MakesAll Raw [.rule r, .many [.choice (symbols.map fun s => [op s]), .rule r]] ts) :
    ∃ t rest, Raw r t ∧ (∀ p ∈ rest, ∃ x l, p.1 = Tree.leaf .operator x l) ∧
      (∀ p ∈ rest, Raw r p.2) ∧ ts = interleaved t rest := by
  obtain ⟨_, mt, _, h, rfl⟩ := h
  obtain ⟨t, ht, rfl⟩ := makes_rule mt
  obtain ⟨rest, ho, hr, rfl⟩ :=
    makes_pairs (fun h => makes_operator symbols h) makes_rule (makesAll_one h)
  exact ⟨t, rest, ht, ho, hr, rfl⟩

/-- The suffixes are wrapped one after the other, each with what is before it. -/
theorem raw_suffixes {t : Tree} {rounds : List (List Tree)} (ht : Raw .suffixed t)
    (hall : ∀ us ∈ rounds, Makes Raw suffix us) : Raw .suffixed (rounds.foldl wrap t) := by
  induction rounds generalizing t with
  | nil => exact ht
  | cons us rounds ih =>
    exact ih (raw_suffix ht (hall us List.mem_cons_self))
      fun vs hvs => hall vs (List.mem_cons_of_mem _ hvs)

theorem raw_statements {line : Nat} (h : MakesAll Raw [.many [.rule .statement]] ts) :
    Raw .block (.branch .block line ts) := by
  have h := makesAll_one h
  rw [Makes] at h
  obtain ⟨rounds, hall, rfl⟩ := h
  refine .block ?_
  intro t ht
  obtain ⟨us, hus, htus⟩ := List.mem_flatten.mp ht
  obtain ⟨u, hu, rfl⟩ := makes_rule (makesAll_one (hall us hus))
  rw [List.mem_singleton.mp htus]
  exact hu

/-- What a production of the grammar makes is a tree of its rule. -/
theorem raw_of_makes (r : Rule) (h : Makes Raw (production r) ts) : ∃ t, Raw r t ∧ ts = [t] := by
  cases r with
  | block =>
    obtain ⟨us, line, hone, rfl⟩ := makes_alternative h
    exact ⟨_, raw_statements hone, rfl⟩
  | statement => exact raw_statement h
  | ifStatement =>
    obtain ⟨us, line, hone, rfl⟩ := makes_alternative h
    exact ⟨_, raw_ifParts hone, rfl⟩
  | expression =>
    -- an assignment, or what is on its right side otherwise
    obtain ⟨us, line, hone | hone, rfl⟩ := makes_alternatives h
    · obtain ⟨t, _, v, ht, hsign, hv, rfl⟩ := makes_operation hone
      obtain ⟨x₁, l₁, rfl⟩ := makes_punct hsign
      exact ⟨_, .assignment ht hv, rfl⟩
    · obtain ⟨t, ht, rfl⟩ := makes_rule (makesAll_one hone)
      exact ⟨_, .compared ht, rfl⟩
  | comparison =>
    obtain ⟨us, line, hone | hone, rfl⟩ := makes_alternatives h
    · obtain ⟨t, _, u, ht, hsign, hu, rfl⟩ := makes_operation hone
      obtain ⟨x₁, l₁, rfl⟩ := makes_punct hsign
      exact ⟨_, .comparison ht hu, rfl⟩
    · obtain ⟨t, ht, rfl⟩ := makes_rule (makesAll_one hone)
      exact ⟨_, .uncompared ht, rfl⟩
  | additive =>
    obtain ⟨us, line, hone, rfl⟩ := makes_alternative h
    obtain ⟨t, rest, ht, ho, hr, rfl⟩ := makes_operations ["+", "-"] hone
    exact ⟨_, .additive ht ho hr, rfl⟩
  | multiplicative =>
    obtain ⟨us, line, hone, rfl⟩ := makes_alternative h
    obtain ⟨t, rest, ht, ho, hr, rfl⟩ := makes_operations ["*", "/", "%"] hone
    exact ⟨_, .multiplicative ht ho hr, rfl⟩
  | power =>
    obtain ⟨us, line, hone | hone, rfl⟩ := makes_alternatives h
    · obtain ⟨t, _, u, ht, hsign, hu, rfl⟩ := makes_operation hone
      obtain ⟨l₁, rfl⟩ := makes_op hsign
      exact ⟨_, .power ht hu, rfl⟩
    · obtain ⟨t, ht, rfl⟩ := makes_rule (makesAll_one hone)
      exact ⟨_, .unpowered ht, rfl⟩
  | suffixed =>
    rw [production, Makes] at h
    obtain ⟨t, us, hp, rounds, hall, rfl⟩ := h
    obtain ⟨t', ht, he⟩ := makes_rule hp
    cases he
    exact ⟨_, raw_suffixes (.plain ht) hall, rfl⟩
  | primary => exact raw_primary h
  | function =>
    obtain ⟨us, line, hone, rfl⟩ := makes_alternative h
    refine ⟨_, raw_function ?_ hone, rfl⟩
    intro us hn
    rw [Makes] at hn
    rcases hn with hn | rfl
    · exact Or.inr (makes_punct hn)
    · exact Or.inl rfl
  | classLiteral =>
    obtain ⟨us, line, ⟨_, hw, _, ⟨_, hn, _, hbody, rfl⟩, rfl⟩, rfl⟩ := makes_alternative h
    obtain ⟨l₁, rfl⟩ := makes_kw hw
    obtain ⟨x₂, l₂, rfl⟩ := makes_punct hn
    obtain ⟨x₃, l₃, b, x₄, l₄, _, hb, rfl, rfl⟩ := makesAll_enclosed hbody
    exact ⟨_, .classLiteral hb, rfl⟩
  | array =>
    obtain ⟨us, line, hone, rfl⟩ := makes_alternative h
    obtain ⟨x₁, l₁, l, x₂, l₂, _, hl, rfl, rfl⟩ := makesAll_enclosed hone
    exact ⟨_, .array hl, rfl⟩
  | expressionList =>
    obtain ⟨line, us, rfl, rfl | ⟨t, rest, ht, hc, hr, rfl⟩⟩ := makes_separated makes_rule h
    · exact ⟨_, .noExpressions, rfl⟩
    · exact ⟨_, .expressions ht hc hr, rfl⟩
  | argumentList =>
    obtain ⟨line, us, rfl, rfl | ⟨t, rest, ht, hc, hr, rfl⟩⟩ := makes_separated makes_leaf h
    · exact ⟨_, .noArguments, rfl⟩
    · exact ⟨_, .arguments ht hc hr, rfl⟩

/-- What the plain reading of a rule makes is a tree of the rule. -/
theorem readRule_raw {tokens : Array Token} (fuel : Nat) : ∀ (r : Rule) {pos next : Nat}
    {ts : List Tree}, (readRule tokens fuel r pos).outcome = .matched ts next →
      ∃ t, Raw r t ∧ ts = [t] := by
  induction fuel with
  | zero => intro r pos next ts h; cases h
  | succ fuel ih =>
    intro r pos next ts h
    rw [readRule] at h
    exact raw_of_makes r (readProduction_makes (fun h => ih _ h) (production r) h)

end Rules

end ScriptKit.Grammar
