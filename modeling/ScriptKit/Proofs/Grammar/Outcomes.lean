import ScriptKit.Proofs.Grammar.FirstToken

namespace ScriptKit.Grammar

variable {tokens : Array Token}

/-- A function with a name, where a statement begins with it. -/
abbrev namedFunction : Production :=
  .node .expression [kw "func" :: name :: parenthesised (.rule .argumentList) ++ braced]

/-- What a statement can be, in the order in which it is tried. -/
abbrev statementParts : List (List Production) :=
  [ifParts, whileParts,
    [namedFunction, .optional semicolon],
    [.rule .classLiteral, .optional semicolon],
    [kw "let", name, punct .assignment, .rule .expression, semicolon],
    [kw "let", name, semicolon],
    [.rule .expression, semicolon],
    [.rule .function, .optional semicolon]]

section Inversion

variable {rule : Rule → Nat → Attempt} {p : Production} {parts : List Production}
  {alternatives : List (List Production)} {pos next : Nat} {ts : List Tree}

theorem token_matched_iff {kind : Token.Kind} {text : Option String} :
    (readProduction tokens rule (.token kind text) pos).outcome = .matched ts next ↔
      ∃ t, tokenAt? tokens pos = some t ∧ accepts kind text t = true ∧ ts = [terminal t] ∧
        next = skip tokens pos + 1 := by
  simp only [readProduction, readToken]
  cases tokenAt? tokens pos with
  | none => simp
  | some t =>
    by_cases hacc : accepts kind text t = true
    · simp only [hacc, if_true, Outcome.matched.injEq]
      constructor
      · rintro ⟨rfl, rfl⟩
        exact ⟨t, rfl, hacc, rfl, rfl⟩
      · rintro ⟨_, ⟨rfl⟩, -, rfl, rfl⟩
        exact ⟨rfl, rfl⟩
    · simp [hacc]

theorem token_failed_iff {kind : Token.Kind} {text : Option String} :
    (readProduction tokens rule (.token kind text) pos).outcome = .failed ↔
      nextIs kind text (tokenAt? tokens pos) = false := by
  simp only [readProduction, readToken]
  cases tokenAt? tokens pos with
  | none => simp [nextIs]
  | some t => by_cases hacc : accepts kind text t = true <;> simp [hacc, nextIs]

@[simp] theorem rule_matched_iff {r : Rule} :
    (readProduction tokens rule (.rule r) pos).outcome = .matched ts next ↔
      (rule r pos).outcome = .matched ts next := by
  simp only [readProduction]

@[simp] theorem rule_failed_iff {r : Rule} :
    (readProduction tokens rule (.rule r) pos).outcome = .failed ↔
      (rule r pos).outcome = .failed := by
  simp only [readProduction]

theorem node_matched_iff {kind : Tree.Kind} :
    (readProduction tokens rule (.node kind alternatives) pos).outcome = .matched ts next ↔
      ∃ us, (readChoice tokens rule alternatives pos).outcome = .matched us next ∧
        ts = [.branch kind (lineAt tokens pos) us] := by
  simp only [readProduction]
  exact Attempt.outcome_map_eq_matched

@[simp] theorem node_failed_iff {kind : Tree.Kind} :
    (readProduction tokens rule (.node kind alternatives) pos).outcome = .failed ↔
      (readChoice tokens rule alternatives pos).outcome = .failed := by
  simp only [readProduction]
  exact Attempt.outcome_map_eq_failed

@[simp] theorem choice_matched_iff :
    (readProduction tokens rule (.choice alternatives) pos).outcome = .matched ts next ↔
      (readChoice tokens rule alternatives pos).outcome = .matched ts next := by
  simp only [readProduction]

@[simp] theorem choice_failed_iff :
    (readProduction tokens rule (.choice alternatives) pos).outcome = .failed ↔
      (readChoice tokens rule alternatives pos).outcome = .failed := by
  simp only [readProduction]

theorem optional_matched_iff :
    (readProduction tokens rule (.optional p) pos).outcome = .matched ts next ↔
      (readProduction tokens rule p pos).outcome = .matched ts next ∨
        ((readProduction tokens rule p pos).outcome = .failed ∧ ts = [] ∧ next = pos) := by
  simp only [readProduction]
  cases h : (readProduction tokens rule p pos).outcome with
  | exhausted => simp [Attempt.orElse_exhausted h, h]
  | failed => simp [Attempt.orElse_failed h, eq_comm]
  | matched us m => simp [Attempt.orElse_matched h, h]

@[simp] theorem not_optional_failed :
    (readProduction tokens rule (.optional p) pos).outcome ≠ .failed := by
  simp only [readProduction]
  cases h : (readProduction tokens rule p pos).outcome with
  | exhausted => simp [Attempt.orElse_exhausted h, h]
  | failed => simp [Attempt.orElse_failed h]
  | matched us m => simp [Attempt.orElse_matched h, h]

@[simp] theorem not_many_failed :
    (readProduction tokens rule (.many parts) pos).outcome ≠ .failed := by
  simp only [readProduction]
  exact readMany_ne_failed _ _ pos

@[simp] theorem parts_nil_matched_iff :
    (readParts tokens rule [] pos).outcome = .matched ts next ↔ ts = [] ∧ next = pos := by
  simp [readParts, eq_comm]

@[simp] theorem not_parts_nil_failed : (readParts tokens rule [] pos).outcome ≠ .failed := by
  simp [readParts]

theorem parts_cons_matched_iff :
    (readParts tokens rule (p :: parts) pos).outcome = .matched ts next ↔
      ∃ us m vs, (readProduction tokens rule p pos).outcome = .matched us m ∧
        (readParts tokens rule parts m).outcome = .matched vs next ∧ ts = us ++ vs := by
  simp only [readParts]
  cases h : (readProduction tokens rule p pos).outcome with
  | exhausted => simp [Attempt.andThen_exhausted h, h]
  | failed => simp [Attempt.andThen_failed h, h]
  | matched us m =>
    rw [Attempt.andThen_matched h, Attempt.outcome_reaching, Attempt.outcome_map_eq_matched]
    constructor
    · rintro ⟨vs, hvs, rfl⟩
      exact ⟨us, m, vs, rfl, hvs, rfl⟩
    · rintro ⟨_, _, vs, ⟨rfl, rfl⟩, hvs, rfl⟩
      exact ⟨vs, hvs, rfl⟩

theorem parts_cons_failed_iff :
    (readParts tokens rule (p :: parts) pos).outcome = .failed ↔
      (readProduction tokens rule p pos).outcome = .failed ∨
        ∃ us m, (readProduction tokens rule p pos).outcome = .matched us m ∧
          (readParts tokens rule parts m).outcome = .failed := by
  simp only [readParts]
  cases h : (readProduction tokens rule p pos).outcome with
  | exhausted => simp [Attempt.andThen_exhausted h, h]
  | failed => simp [Attempt.andThen_failed h, h]
  | matched us m =>
    rw [Attempt.andThen_matched h, Attempt.outcome_reaching, Attempt.outcome_map_eq_failed]
    constructor
    · intro hf
      exact Or.inr ⟨us, m, rfl, hf⟩
    · rintro (hf | ⟨_, _, heq, hf⟩)
      · cases hf
      · cases heq
        exact hf

@[simp] theorem not_choice_nil_matched :
    (readChoice tokens rule [] pos).outcome ≠ .matched ts next := by
  simp [readChoice]

@[simp] theorem choice_nil_failed : (readChoice tokens rule [] pos).outcome = .failed := rfl

theorem choice_cons_matched_iff :
    (readChoice tokens rule (parts :: alternatives) pos).outcome = .matched ts next ↔
      (readParts tokens rule parts pos).outcome = .matched ts next ∨
        ((readParts tokens rule parts pos).outcome = .failed ∧
          (readChoice tokens rule alternatives pos).outcome = .matched ts next) := by
  simp only [readChoice]
  cases h : (readParts tokens rule parts pos).outcome with
  | exhausted => simp [Attempt.orElse_exhausted h, h]
  | failed => simp [Attempt.orElse_failed h]
  | matched us m => simp [Attempt.orElse_matched h, h]

theorem choice_cons_failed_iff :
    (readChoice tokens rule (parts :: alternatives) pos).outcome = .failed ↔
      (readParts tokens rule parts pos).outcome = .failed ∧
        (readChoice tokens rule alternatives pos).outcome = .failed := by
  simp only [readChoice]
  cases h : (readParts tokens rule parts pos).outcome with
  | exhausted => simp [Attempt.orElse_exhausted h, h]
  | failed => simp [Attempt.orElse_failed h]
  | matched us m => simp [Attempt.orElse_matched h, h]

theorem choice_here (h : (readParts tokens rule parts pos).outcome = .matched ts next) :
    (readChoice tokens rule (parts :: alternatives) pos).outcome = .matched ts next :=
  choice_cons_matched_iff.mpr (Or.inl h)

theorem choice_next (hfail : (readParts tokens rule parts pos).outcome = .failed)
    (h : (readChoice tokens rule alternatives pos).outcome = .matched ts next) :
    (readChoice tokens rule (parts :: alternatives) pos).outcome = .matched ts next :=
  choice_cons_matched_iff.mpr (Or.inr ⟨hfail, h⟩)

theorem parts_failed_here (h : (readProduction tokens rule p pos).outcome = .failed) :
    (readParts tokens rule (p :: parts) pos).outcome = .failed :=
  parts_cons_failed_iff.mpr (Or.inl h)

theorem parts_failed_later {m : Nat}
    (hfirst : (readProduction tokens rule p pos).outcome = .matched ts m)
    (h : (readParts tokens rule parts m).outcome = .failed) :
    (readParts tokens rule (p :: parts) pos).outcome = .failed :=
  parts_cons_failed_iff.mpr (Or.inr ⟨ts, m, hfirst, h⟩)

theorem parts_failed_of_token {kind : Token.Kind} {text : Option String}
    (h : nextIs kind text (tokenAt? tokens pos) = false) :
    (readParts tokens rule (.token kind text :: parts) pos).outcome = .failed :=
  parts_failed_here (token_failed_iff.mpr h)

theorem parts_failed_of_rule {r : Rule} (h : (rule r pos).outcome = .failed) :
    (readParts tokens rule (.rule r :: parts) pos).outcome = .failed :=
  parts_failed_here (rule_failed_iff.mpr h)

theorem parts_failed_after_rule {r : Rule} {m : Nat} (hfirst : (rule r pos).outcome = .matched ts m)
    (h : (readParts tokens rule parts m).outcome = .failed) :
    (readParts tokens rule (.rule r :: parts) pos).outcome = .failed :=
  parts_failed_later (rule_matched_iff.mpr hfirst) h

/-- A part that need not be there does not fail. -/
theorem parts_optional_failed_iff {q : Production} :
    (readParts tokens rule [p, .optional q] pos).outcome = .failed ↔
      (readProduction tokens rule p pos).outcome = .failed := by
  simp [parts_cons_failed_iff]

end Inversion

/-- The outcome of a reading without its trees. -/
def Attempt.shape (a : Attempt) : Result :=
  match a.outcome with
  | .matched _ next => .matched next
  | .failed => .failed
  | .exhausted => .exhausted

section Shape

variable {rule : Rule → Nat → Attempt} {p : Production} {parts : List Production}
  {alternatives : List (List Production)} {s q : Nat}

theorem shape_matched_iff {a : Attempt} {next : Nat} :
    a.shape = .matched next ↔ ∃ ts, a.outcome = .matched ts next := by
  cases h : a.outcome <;> simp [Attempt.shape, h]

theorem shape_failed_iff {a : Attempt} : a.shape = .failed ↔ a.outcome = .failed := by
  cases h : a.outcome <;> simp [Attempt.shape, h]

theorem shape_map (a : Attempt) (f : List Tree → List Tree) : (a.map f).shape = a.shape := by
  cases h : a.outcome with
  | exhausted => rw [Attempt.map_exhausted h]
  | failed => rw [Attempt.map_failed h]
  | matched ts m => simp [Attempt.map_matched h, Attempt.shape, h]

theorem shape_reaching (a : Attempt) (n : Nat) : (a.reaching n).shape = a.shape := rfl

/-- Parts that begin alike at two positions end alike. -/
theorem shape_parts_cons
    (h : (readProduction tokens rule p s).shape = (readProduction tokens rule p q).shape) :
    (readParts tokens rule (p :: parts) s).shape = (readParts tokens rule (p :: parts) q).shape := by
  simp only [readParts]
  cases hs : (readProduction tokens rule p s).outcome with
  | exhausted =>
    have hq : (readProduction tokens rule p q).outcome = .exhausted := by
      cases hq : (readProduction tokens rule p q).outcome <;> simp_all [Attempt.shape]
    rw [Attempt.andThen_exhausted hs, Attempt.andThen_exhausted hq]
    exact h
  | failed =>
    have hq : (readProduction tokens rule p q).outcome = .failed := by
      rw [← shape_failed_iff, ← h, shape_failed_iff]
      exact hs
    rw [Attempt.andThen_failed hs, Attempt.andThen_failed hq]
    exact h
  | matched ts m =>
    obtain ⟨us, hq⟩ : ∃ us, (readProduction tokens rule p q).outcome = .matched us m := by
      rw [← shape_matched_iff, ← h, shape_matched_iff]
      exact ⟨ts, hs⟩
    rw [Attempt.andThen_matched hs, Attempt.andThen_matched hq]
    simp only [shape_reaching, shape_map]

theorem shape_choice_cons
    (h : (readParts tokens rule parts s).shape = (readParts tokens rule parts q).shape)
    (h' : (readChoice tokens rule alternatives s).shape =
      (readChoice tokens rule alternatives q).shape) :
    (readChoice tokens rule (parts :: alternatives) s).shape =
      (readChoice tokens rule (parts :: alternatives) q).shape := by
  simp only [readChoice]
  -- the two positions agree on the first alternative, and on the others where it fails
  cases hs : (readParts tokens rule parts s).outcome with
  | exhausted =>
    have hq : (readParts tokens rule parts q).outcome = .exhausted := by
      cases hq : (readParts tokens rule parts q).outcome <;> simp_all [Attempt.shape]
    rw [Attempt.orElse_exhausted hs, Attempt.orElse_exhausted hq]
    exact h
  | failed =>
    have hq : (readParts tokens rule parts q).outcome = .failed := by
      rw [← shape_failed_iff, ← h, shape_failed_iff]
      exact hs
    rw [Attempt.orElse_failed hs, Attempt.orElse_failed hq]
    exact h'
  | matched ts m =>
    obtain ⟨us, hq⟩ : ∃ us, (readParts tokens rule parts q).outcome = .matched us m := by
      rw [← shape_matched_iff, ← h, shape_matched_iff]
      exact ⟨ts, hs⟩
    rw [Attempt.orElse_matched hs, Attempt.orElse_matched hq]
    exact h

theorem shape_node {kind : Tree.Kind}
    (h : (readChoice tokens rule alternatives s).shape =
      (readChoice tokens rule alternatives q).shape) :
    (readProduction tokens rule (.node kind alternatives) s).shape =
      (readProduction tokens rule (.node kind alternatives) q).shape := by
  simp only [readProduction, shape_map]
  exact h

end Shape

/-- The plain reading of a rule matches at a position. -/
def Matches (tokens : Array Token) (r : Rule) (q : Nat) : Prop :=
  ∃ ts e, (reading tokens r q).outcome = .matched ts e

theorem not_matches_iff {r : Rule} {q : Nat} :
    ¬ Matches tokens r q ↔ (reading tokens r q).outcome = .failed := by
  have hd : (reading tokens r q).outcome ≠ .exhausted := (reading_proper r q).decided
  unfold Matches
  cases h : (reading tokens r q).outcome with
  | exhausted => exact absurd h hd
  | failed => simp
  | matched ts e => simp

section Operands

variable {q : Nat}

theorem power_failed_iff : (reading tokens .power q).outcome = .failed ↔
    (reading tokens .suffixed q).outcome = .failed := by
  rw [reading_eq, production, node_failed_iff, choice_cons_failed_iff, choice_cons_failed_iff,
    parts_cons_failed_iff, parts_cons_failed_iff]
  simp only [rule_failed_iff, not_parts_nil_failed, and_false, exists_false, or_false,
    choice_nil_failed, and_true]
  exact ⟨fun h => h.2, fun h => ⟨Or.inl h, h⟩⟩

theorem multiplicative_failed_iff : (reading tokens .multiplicative q).outcome = .failed ↔
    (reading tokens .suffixed q).outcome = .failed := by
  rw [reading_eq, production, node_failed_iff, choice_cons_failed_iff, parts_cons_failed_iff]
  simp only [rule_failed_iff, parts_cons_failed_iff, not_many_failed, not_parts_nil_failed,
    and_false, exists_false, or_false, choice_nil_failed, and_true, power_failed_iff]

theorem additive_failed_iff : (reading tokens .additive q).outcome = .failed ↔
    (reading tokens .suffixed q).outcome = .failed := by
  rw [reading_eq, production, node_failed_iff, choice_cons_failed_iff, parts_cons_failed_iff]
  simp only [rule_failed_iff, parts_cons_failed_iff, not_many_failed, not_parts_nil_failed,
    and_false, exists_false, or_false, choice_nil_failed, and_true, multiplicative_failed_iff]

theorem comparison_failed_iff : (reading tokens .comparison q).outcome = .failed ↔
    (reading tokens .suffixed q).outcome = .failed := by
  rw [reading_eq, production, node_failed_iff, choice_cons_failed_iff, choice_cons_failed_iff,
    parts_cons_failed_iff, parts_cons_failed_iff]
  simp only [rule_failed_iff, not_parts_nil_failed, and_false, exists_false, or_false,
    choice_nil_failed, and_true, additive_failed_iff]
  exact ⟨fun h => h.2, fun h => ⟨Or.inl h, h⟩⟩

theorem expression_failed_iff : (reading tokens .expression q).outcome = .failed ↔
    (reading tokens .suffixed q).outcome = .failed := by
  rw [reading_eq, production, node_failed_iff, choice_cons_failed_iff, choice_cons_failed_iff,
    parts_cons_failed_iff, parts_cons_failed_iff]
  simp only [rule_failed_iff, not_parts_nil_failed, and_false, exists_false, or_false,
    choice_nil_failed, and_true, comparison_failed_iff]
  exact ⟨fun h => h.2, fun h => ⟨Or.inl h, h⟩⟩

variable {s : Nat}

theorem shape_rule {r : Rule} : (readProduction tokens (reading tokens) (.rule r) q).shape =
    (reading tokens r q).shape := by
  simp only [readProduction]

/-- Expressions whose first operands end alike end alike. -/
theorem expression_shape
    (h : (reading tokens .suffixed s).shape = (reading tokens .suffixed q).shape) :
    (reading tokens .expression s).shape = (reading tokens .expression q).shape := by
  have hpower : (reading tokens .power s).shape = (reading tokens .power q).shape := by
    rw [reading_eq, reading_eq .power q, production]
    exact shape_node (shape_choice_cons (shape_parts_cons (by simpa only [shape_rule] using h))
      (shape_choice_cons (shape_parts_cons (by simpa only [shape_rule] using h)) rfl))
  have hmul : (reading tokens .multiplicative s).shape =
      (reading tokens .multiplicative q).shape := by
    rw [reading_eq, reading_eq .multiplicative q, production]
    exact shape_node (shape_choice_cons
      (shape_parts_cons (by simpa only [shape_rule] using hpower)) rfl)
  have hadd : (reading tokens .additive s).shape = (reading tokens .additive q).shape := by
    rw [reading_eq, reading_eq .additive q, production]
    exact shape_node (shape_choice_cons
      (shape_parts_cons (by simpa only [shape_rule] using hmul)) rfl)
  have hcmp : (reading tokens .comparison s).shape = (reading tokens .comparison q).shape := by
    rw [reading_eq, reading_eq .comparison q, production]
    exact shape_node (shape_choice_cons (shape_parts_cons (by simpa only [shape_rule] using hadd))
      (shape_choice_cons (shape_parts_cons (by simpa only [shape_rule] using hadd)) rfl))
  rw [reading_eq, reading_eq .expression q, production]
  exact shape_node (shape_choice_cons (shape_parts_cons (by simpa only [shape_rule] using h))
    (shape_choice_cons (shape_parts_cons (by simpa only [shape_rule] using hcmp)) rfl))

end Operands

theorem nextIs_iff {kind : Token.Kind} {text : Option String} {t : Option Token} :
    nextIs kind text t = true ↔
      ∃ u, t = some u ∧ u.kind = kind ∧ ∀ w, text = some w → w = u.text := by
  cases t with
  | none => simp [nextIs]
  | some u => cases text <;> simp [nextIs, accepts]

theorem part_proper {p : Production} (h : p.descends 10 = true) (q : Nat) :
    (readProduction tokens (reading tokens) p q).Proper tokens q p.takes :=
  (readProduction_proper p 10 q h fun r q' _ => ⟨rfl, reading_proper r q'⟩).2

section Suffixes

/-- What can follow an operand: arguments, an index or a member. -/
def suffix : Production :=
  .choice [
    parenthesised (.rule .expressionList),
    bracketed (.rule .expression),
    [punct .dot, name]]

theorem suffix_proper (q : Nat) :
    (readProduction tokens (reading tokens) suffix q).Proper tokens q true :=
  part_proper rfl q

theorem suffixed_matched_iff {s e : Nat} {ts : List Tree} :
    (reading tokens .suffixed s).outcome = .matched ts e ↔
      ∃ t us m, (reading tokens .primary s).outcome = .matched (t :: us) m ∧
        (readSuffixes (readProduction tokens (reading tokens) suffix) (tokens.size + 1) t m).outcome =
          .matched ts e := by
  rw [reading_eq, production, chain_matched_iff]
  simp only [rule_matched_iff]
  rfl

/-- Suffixes end where they do whatever they are suffixes of. -/
theorem shape_suffixes {step : Nat → Attempt} (rounds : Nat) :
    ∀ (t u : Tree) (q : Nat),
      (readSuffixes step rounds t q).shape = (readSuffixes step rounds u q).shape := by
  induction rounds with
  | zero => intro t u q; rfl
  | succ rounds ih =>
    intro t u q
    simp only [readSuffixes]
    cases h : (step q).outcome with
    | exhausted => rfl
    | failed => rfl
    | matched parts m =>
      simp only [shape_reaching]
      exact ih _ _ m

/-- A round more makes no difference where the rounds are enough. -/
theorem readSuffixes_succ (rounds : Nat) :
    ∀ (t : Tree) (q : Nat), tokens.size + 1 - q ≤ rounds → 0 < rounds →
      readSuffixes (readProduction tokens (reading tokens) suffix) (rounds + 1) t q =
        readSuffixes (readProduction tokens (reading tokens) suffix) rounds t q := by
  induction rounds with
  | zero => intro t q _ h; omega
  | succ rounds ih =>
    intro t q hle _
    rw [readSuffixes, readSuffixes]
    cases h : (readProduction tokens (reading tokens) suffix q).outcome with
    | exhausted => rfl
    | failed => rfl
    | matched parts m =>
      have hlt := (suffix_proper q).moves h rfl
      have hin := (suffix_proper q).inside h
      simp only
      rw [ih _ m (by omega) (by omega)]

theorem readSuffixes_forward (rounds : Nat) :
    ∀ {t : Tree} {q e : Nat} {ts : List Tree},
      (readSuffixes (readProduction tokens (reading tokens) suffix) rounds t q).outcome =
        .matched ts e → q ≤ e := by
  induction rounds with
  | zero => intro t q e ts h; cases h
  | succ rounds ih =>
    intro t q e ts h
    rw [readSuffixes] at h
    cases ho : (readProduction tokens (reading tokens) suffix q).outcome with
    | exhausted => simp [ho] at h
    | failed =>
      simp only [ho] at h
      cases h
      exact Nat.le_refl q
    | matched parts m =>
      simp only [ho, Attempt.outcome_reaching] at h
      have := ih h
      have := (suffix_proper q).forward ho
      omega

/-- One more suffix of an operand. -/
theorem readSuffixes_more {t : Tree} {parts : List Tree} {q m : Nat}
    (h : (readProduction tokens (reading tokens) suffix q).outcome = .matched parts m) :
    (readSuffixes (readProduction tokens (reading tokens) suffix) (tokens.size + 1) t q).outcome =
      (readSuffixes (readProduction tokens (reading tokens) suffix) (tokens.size + 1)
        (.branch .expression t.line (t :: parts)) m).outcome := by
  have hlt := (suffix_proper q).moves h rfl
  have hin := (suffix_proper q).inside h
  rw [readSuffixes]
  simp only [h, Attempt.outcome_reaching]
  rw [← readSuffixes_succ tokens.size _ m (by omega) (by omega)]

end Suffixes

section Single

variable {s e : Nat} {ts : List Tree}

theorem node_single {r : Rule} {kind : Tree.Kind} {alternatives : List (List Production)}
    (hp : production r = .node kind alternatives)
    (h : (reading tokens r s).outcome = .matched ts e) : ∃ t, ts = [t] := by
  rw [reading_eq, hp] at h
  obtain ⟨us, -, rfl⟩ := node_matched_iff.mp h
  exact ⟨_, rfl⟩

theorem parts_one_iff {p : Production} : (readParts tokens (reading tokens) [p] s).outcome =
    .matched ts e ↔ (readProduction tokens (reading tokens) p s).outcome = .matched ts e := by
  simp only [parts_cons_matched_iff, parts_nil_matched_iff]
  constructor
  · rintro ⟨us, m, vs, h, ⟨rfl, rfl⟩, rfl⟩
    rwa [List.append_nil]
  · intro h
    exact ⟨ts, e, [], h, ⟨rfl, rfl⟩, (List.append_nil ts).symm⟩

theorem choice_single {productions : List Production}
    (hone : ∀ p ∈ productions, ∀ ts e,
      (readProduction tokens (reading tokens) p s).outcome = .matched ts e → ∃ t, ts = [t])
    (h : (readChoice tokens (reading tokens) (productions.map fun p => [p]) s).outcome =
      .matched ts e) : ∃ t, ts = [t] := by
  induction productions with
  | nil => exact absurd h not_choice_nil_matched
  | cons p productions ih =>
    rcases choice_cons_matched_iff.mp h with h | ⟨-, h⟩
    · exact hone p List.mem_cons_self ts e (parts_one_iff.mp h)
    · exact ih (fun p hp => hone p (List.mem_cons_of_mem _ hp)) h

theorem primary_single (h : (reading tokens .primary s).outcome = .matched ts e) :
    ∃ t, ts = [t] := by
  rw [reading_eq, production, choice_matched_iff] at h
  let operands : List Production := [.node .expression [parenthesised (.rule .expression)],
    .rule .function, .rule .classLiteral, .rule .array, punct .number, punct .string,
    punct .boolean, punct .null, name]
  refine choice_single (show ∀ p ∈ operands, _ from ?_) h
  have htoken : ∀ kind ts e, (readProduction tokens (reading tokens) (punct kind) s).outcome =
      .matched ts e → ∃ t, ts = [t] := by
    intro kind ts e ho
    obtain ⟨t, -, -, rfl, -⟩ := token_matched_iff.mp ho
    exact ⟨_, rfl⟩
  intro p hp ts e ho
  simp only [operands, List.mem_cons, List.not_mem_nil, or_false] at hp
  rcases hp with rfl | rfl | rfl | rfl | rfl | rfl | rfl | rfl | rfl
  · obtain ⟨us, -, rfl⟩ := node_matched_iff.mp ho
    exact ⟨_, rfl⟩
  · exact node_single (r := .function) rfl (rule_matched_iff.mp ho)
  · exact node_single (r := .classLiteral) rfl (rule_matched_iff.mp ho)
  · exact node_single (r := .array) rfl (rule_matched_iff.mp ho)
  · exact htoken .number ts e ho
  · exact htoken .string ts e ho
  · exact htoken .boolean ts e ho
  · exact htoken .null ts e ho
  · exact htoken .identifier ts e ho

end Single

/-- A function is the first thing that an operand at its place consists of. -/
theorem primary_of_function {s f : Nat} {ts : List Tree}
    (h : (reading tokens .function s).outcome = .matched ts f) :
    (reading tokens .primary s).outcome = .matched ts f := by
  have hstart : nextIs .keyword (some "func") (tokenAt? tokens s) = true := by
    by_contra hne
    rw [reading_failed (r := .function) (Bool.eq_false_iff.mpr hne)] at h
    cases h
  obtain ⟨u, hu, hk, -⟩ := nextIs_iff.mp hstart
  rw [reading_eq, production, choice_matched_iff, choice_cons_matched_iff]
  refine Or.inr ⟨readParts_failed ?_, ?_⟩
  · simp [hu, partsStart, Production.starts, choiceStarts, parenthesised, punct, nextIs, accepts, hk]
  · rw [choice_cons_matched_iff]
    refine Or.inl (parts_cons_matched_iff.mpr ⟨ts, f, [], ?_, ?_, ?_⟩)
    · exact rule_matched_iff.mpr h
    · exact parts_nil_matched_iff.mpr ⟨rfl, rfl⟩
    · rw [List.append_nil]

/-- A function with no suffix behind it is all of the operand. -/
theorem suffixed_of_function {s f : Nat} {ts : List Tree}
    (h : (reading tokens .function s).outcome = .matched ts f)
    (hs : (readProduction tokens (reading tokens) suffix f).outcome = .failed) :
    (reading tokens .suffixed s).outcome = .matched ts f := by
  obtain ⟨t, rfl⟩ := reading_single (r := .function) rfl h
  refine suffixed_matched_iff.mpr ⟨t, [], f, primary_of_function h, ?_⟩
  rw [readSuffixes]
  simp only [hs]

theorem function_le_suffixed {s f e : Nat} {ts us : List Tree}
    (h : (reading tokens .function s).outcome = .matched ts f)
    (hx : (reading tokens .suffixed s).outcome = .matched us e) : f ≤ e := by
  obtain ⟨t, vs, m, hp, hs⟩ := suffixed_matched_iff.mp hx
  rw [primary_of_function h] at hp
  cases hp
  exact readSuffixes_forward _ hs

end ScriptKit.Grammar
