import ScriptKit.Proofs.Tree.Translation

namespace ScriptKit.Grammar

open Tree

/-- The rules for expressions and their operands. -/
def Rule.isOperand : Rule → Bool
  | .block | .statement | .ifStatement | .expressionList | .argumentList => false
  | _ => true

theorem Raw.isSeparator {r : Rule} {t : Tree} (h : Raw r t) : t.isSeparator = false := by
  induction h with
  | literal hk =>
    rename_i k x line
    cases k <;> first | rfl | cases hk
  | conditional _ ih | plain _ ih | functionOperand _ ih | classOperand _ ih | arrayOperand _ ih =>
    exact ih
  | _ => rfl

section Structure

theorem structured_terminal (n : Nat) {k : Tree.Kind} (hk : k.isTerminal = true) (x : String)
    (line : Nat) : structured n (.leaf k x line) = .leaf k x line := by
  rw [leaf, structured, structuredAll]
  cases k <;> first | rfl | cases hk

theorem structuredAll_interleaved (n : Nat) {t : Tree} {rest : List (Tree × Tree)}
    (ht : t.isSeparator = false) (ho : ∀ p ∈ rest, ∃ x l, p.1 = .leaf .operator x l)
    (hr : ∀ p ∈ rest, p.2.isSeparator = false) :
    structuredAll n (interleaved t rest) =
      interleaved (structured n t) (rest.map fun p => (p.1, structured n p.2)) := by
  induction rest generalizing t with
  | nil => simp [interleaved, structuredAll, ht]
  | cons p rest ih =>
    obtain ⟨x, l, hx⟩ := ho p List.mem_cons_self
    have hoperator : p.1.isSeparator = false := by rw [hx]; rfl
    rw [interleaved_cons, structuredAll, structuredAll,
      ih (hr p List.mem_cons_self) (fun q hq => ho q (List.mem_cons_of_mem _ hq))
        fun q hq => hr q (List.mem_cons_of_mem _ hq),
      ht, hoperator, hx, structured_terminal n rfl, List.map_cons, interleaved_cons, hx]
    rfl

theorem isChain_of_raw {n : Nat} {t : Tree} {rest : List (Tree × Tree)}
    (ht : (structured n t).isOperand = true) (ho : ∀ p ∈ rest, ∃ x l, p.1 = .leaf .operator x l)
    (hr : ∀ p ∈ rest, (structured n p.2).isOperand = true) :
    IsChain (structured n t) (rest.map fun p => (p.1, structured n p.2)) := by
  refine ⟨ht, ?_, ?_⟩
  · intro q hq
    obtain ⟨p, hp, rfl⟩ := List.mem_map.mp hq
    obtain ⟨x, l, hx⟩ := ho p hp
    simp [hx, hasKind]
  · intro q hq
    obtain ⟨p, hp, rfl⟩ := List.mem_map.mp hq
    exact hr p hp

theorem isOperand_interleaved {n line : Nat} {t : Tree} {rest : List (Tree × Tree)} {r : Rule}
    (hr : r.isOperand = true) (ht : Raw r t) (ho : ∀ p ∈ rest, ∃ x l, p.1 = .leaf .operator x l)
    (hrest : ∀ p ∈ rest, Raw r p.2)
    (iht : r.isOperand = true → ∀ n, (structured n t).isOperand = true)
    (ihrest : ∀ p ∈ rest, r.isOperand = true → ∀ n, (structured n p.2).isOperand = true) :
    (structured n (.branch .expression line (interleaved t rest))).isOperand = true := by
  have hchain := isChain_of_raw (iht hr n) ho fun p hp => ihrest p hp hr n
  rw [branch, structured, structuredAll_interleaved n ht.isSeparator ho
    fun p hp => (hrest p hp).isSeparator]
  exact hchain.isOperand_collapse

/-- An operand is still one after it is stripped. -/
theorem Raw.isOperand_structured {r : Rule} {t : Tree} (h : Raw r t) :
    r.isOperand = true → ∀ n, (structured n t).isOperand = true := by
  induction h with
  -- the rules that read no operand
  | block | ifThen | ifElseIf | ifElse | conditional | whileLoop | functionStatement
  | classStatement | initialisation | declaration | expressionStatement | noExpressions
  | expressions | noArguments | arguments => intro h; cases h
  -- a node around one operand collapses to that operand
  | compared ht ih | uncompared ht ih | unpowered ht ih =>
    intro _ n
    simp only [branch, structured, structuredAll, ht.isSeparator]
    exact ih rfl n
  | plain _ ih | functionOperand _ ih | classOperand _ ih | arrayOperand _ ih =>
    intro _ n
    exact ih rfl n
  -- the first of three children is an operand here, not a parenthesis, so the node stays
  | assignment ht hv iht _ | comparison ht hv iht _ | power ht hv iht _ =>
    intro _ n
    simp only [branch, structured, structuredAll, ht.isSeparator, hv.isSeparator, leaf]
    exact (congrArg Tree.isOperand (collapse_three n (iht rfl n))).trans rfl
  | member ht iht =>
    intro _ n
    simp only [branch, structured, structuredAll, ht.isSeparator, leaf]
    exact (congrArg Tree.isOperand (collapse_three n (iht rfl n))).trans rfl
  | additive ht ho hr iht ihr => intro _ n; exact isOperand_interleaved rfl ht ho hr iht ihr
  | multiplicative ht ho hr iht ihr => intro _ n; exact isOperand_interleaved rfl ht ho hr iht ihr
  | call ht hl | index ht hl | anonymous ht hl | named ht hl =>
    intro _ n
    simp only [branch, structured, structuredAll, ht.isSeparator, hl.isSeparator]
    rfl
  | classLiteral hb =>
    intro _ n
    simp only [branch, structured, structuredAll, hb.isSeparator]
    rfl
  | parenthesised he ih =>
    intro _ n
    simp only [branch, structured, structuredAll, he.isSeparator, leaf]
    exact ih rfl n
  | literal hk =>
    rename_i k x line
    intro _ n
    rw [leaf, structured, structuredAll]
    cases k <;> first | rfl | cases hk
  | array => intro _ n; rfl

theorem length_structuredAll_le (n : Nat) (ts : List Tree) :
    (structuredAll n ts).length ≤ ts.length := by
  rw [structuredAll_eq, List.length_map]
  exact List.length_filter_le _ _

theorem chainOfOperands_of_short (n : Nat) {ts : List Tree} (h : ts.length < 5) :
    ChainOfOperands (structuredAll n ts) := by
  intro hchain
  have hlen := (length_of_isOperatorChain hchain).1
  have hle := length_structuredAll_le n ts
  omega

theorem chainOfOperands_of_second {a b : Tree} {ts : List Tree} (h : b.hasKind .operator = false) :
    ChainOfOperands (a :: b :: ts) := by
  intro hchain
  simp [isOperatorChain, h] at hchain

theorem chained_leaf (k : Tree.Kind) (x : String) (line : Nat) : Chained (.leaf k x line) := by
  rw [leaf, Chained]
  refine ⟨trivial, fun _ n hchain => ?_⟩
  cases hchain

theorem chainedAll_of_forall {ts : List Tree} (h : ∀ t ∈ ts, Chained t) : ChainedAll ts := by
  induction ts with
  | nil => trivial
  | cons t ts ih =>
    exact ⟨h t List.mem_cons_self, ih fun u hu => h u (List.mem_cons_of_mem _ hu)⟩

theorem chainedAll_interleaved {t : Tree} {rest : List (Tree × Tree)} (ht : Chained t)
    (hl : ∀ p ∈ rest, ∃ k x l, p.1 = .leaf k x l) (hr : ∀ p ∈ rest, Chained p.2) :
    ChainedAll (interleaved t rest) := by
  refine chainedAll_of_forall fun u hu => ?_
  rcases List.mem_cons.mp hu with rfl | hu
  · exact ht
  · obtain ⟨p, hp, hu⟩ := List.mem_flatMap.mp hu
    rcases (by simpa using hu : u = p.1 ∨ u = p.2) with rfl | rfl
    · obtain ⟨k, x, l, hx⟩ := hl p hp
      rw [hx]
      exact chained_leaf k x l
    · exact hr p hp

theorem chained_interleaved {line : Nat} {t : Tree} {rest : List (Tree × Tree)} {r : Rule}
    (hr : r.isOperand = true) (ht : Raw r t) (ho : ∀ p ∈ rest, ∃ x l, p.1 = .leaf .operator x l)
    (hrest : ∀ p ∈ rest, Raw r p.2) (iht : Chained t) (ihrest : ∀ p ∈ rest, Chained p.2) :
    Chained (.branch .expression line (interleaved t rest)) := by
  rw [branch, Chained]
  refine ⟨chainedAll_interleaved iht (fun p hp => ⟨.operator, ho p hp⟩) ihrest, ?_⟩
  intro _ n hchain
  have hc := isChain_of_raw (ht.isOperand_structured hr n) ho
    fun p hp => (hrest p hp).isOperand_structured hr n
  rw [structuredAll_interleaved n ht.isSeparator ho fun p hp => (hrest p hp).isSeparator] at hchain ⊢
  cases rest with
  | nil => cases hchain
  | cons p rest => exact ⟨_, _, _, hc, rfl⟩

/-- The chains of a tree of the grammar consist of operands. -/
theorem Raw.chained {r : Rule} {t : Tree} (h : Raw r t) : Chained t := by
  induction h with
  -- these rules hand on the tree of another
  | conditional _ ih | plain _ ih | functionOperand _ ih | classOperand _ ih | arrayOperand _ ih =>
    exact ih
  | additive ht ho hr iht ihr => exact chained_interleaved rfl ht ho hr iht ihr
  | multiplicative ht ho hr iht ihr => exact chained_interleaved rfl ht ho hr iht ihr
  | literal => exact chained_leaf _ _ _
  | block _ ih => exact ⟨chainedAll_of_forall ih, fun h => by cases h⟩
  | expressions _ hc _ iht ihr =>
    exact ⟨chainedAll_interleaved iht (fun p hp => ⟨.comma, hc p hp⟩) ihr, fun h => by cases h⟩
  | arguments ht hc hr =>
    refine ⟨chainedAll_interleaved ?_ (fun p hp => ⟨.comma, hc p hp⟩) ?_, fun h => by cases h⟩
    · obtain ⟨x, l, rfl⟩ := ht
      exact chained_leaf _ _ _
    · intro p hp
      obtain ⟨x, l, hx⟩ := hr p hp
      rw [hx]
      exact chained_leaf _ _ _
  | functionStatement _ he ih | classStatement _ he ih =>
    refine ⟨⟨ih, ?_⟩, fun h => by cases h⟩
    rcases he with rfl | ⟨x, l, rfl⟩
    · trivial
    · exact ⟨chained_leaf _ _ _, trivial⟩
  | anonymous _ _ iha ihb | named _ _ iha ihb =>
    refine ⟨by simp [ChainedAll, chained_leaf, iha, ihb], fun _ n => ?_⟩
    exact chainOfOperands_of_second rfl
  | classLiteral _ ihb =>
    refine ⟨by simp [ChainedAll, chained_leaf, ihb], fun _ n => ?_⟩
    exact chainOfOperands_of_second rfl
  -- an expression of at most four children is no chain of operators
  | assignment | compared | comparison | uncompared | power | unpowered | call | index | member
  | parenthesised =>
    exact ⟨by simp [ChainedAll, chained_leaf, *], fun _ n => chainOfOperands_of_short n (by simp)⟩
  | _ => exact ⟨by simp [ChainedAll, chained_leaf, *], fun h => by cases h⟩

end Structure

/-- The kinds of node that a rule stands for in a program. -/
def Rule.gives : Rule → Tree.Kind → Bool
  | .block, k => k = .block
  | .statement, k => k.isStatement
  | .ifStatement, k => k = .ifStatement
  | .function, k => k = .function
  | .classLiteral, k => k = .classLiteral
  | .array, k => k = .array
  | .expressionList, k => k = .expressionList
  | .argumentList, k => k = .argumentList
  | _, k => k.isValue

/-- Grouping a stripped tree of a rule gives its translation, which has the shape of a program. -/
structure Translated (n : Nat) (r : Rule) (t : Tree) : Prop where
  swept : (sweep groupStep (structured n t)).1 = [meaning t]
  line : r.isOperand = true → (structured n t).line = (meaning t).line
  gives : r.gives (meaning t).kind = true
  shaped : (meaning t).shaped = true

section Grouping

variable {n : Nat} {t u : Tree} {ts us : List Tree}

theorem meaning_leaf {k : Tree.Kind} (hk : k.isTerminal = true ∨ k = .identifier) (x : String)
    (line : Nat) : meaning (.leaf k x line) = .leaf k x line := by
  cases k <;> first | rfl | simp [Kind.isTerminal] at hk

theorem sweep_leaf {k : Tree.Kind} (hk : k.isTerminal = true ∨ k = .identifier) (x : String)
    (line : Nat) : (sweep groupStep (structured n (.leaf k x line))).1 = [.leaf k x line] := by
  cases k <;> first | rfl | simp [Kind.isTerminal] at hk

theorem meaning_expression (line : Nat) (ts : List Tree) :
    meaning (.branch .expression line ts) = expressionOf line (meaningAll ts) := rfl

theorem meaning_statement (line : Nat) (ts : List Tree) :
    meaning (.branch .statement line ts) = statementOf line (meaningAll ts) := rfl

theorem meaning_array {line : Nat} {a b c : Tree} (h : meaningAll ts = [a, b, c]) :
    meaning (.branch .array line ts) = .node .array "" false line [b] := by
  simp only [branch, meaning, h]

/-- The parts of a node, stripped and grouped on the one side and translated on the other. -/
structure Parts (n : Nat) (ts us : List Tree) : Prop where
  swept : (sweepAll groupStep (structuredAll n ts)).1 = us
  translated : meaningAll ts = us

theorem Parts.nil : Parts n [] [] := ⟨rfl, rfl⟩

theorem Parts.cons {r : Rule} (hraw : Raw r t) (h : Translated n r t) (hts : Parts n ts us) :
    Parts n (t :: ts) (meaning t :: us) := by
  obtain ⟨hswept, htranslated⟩ := hts
  constructor
  · rw [structuredAll, hraw.isSeparator]
    simp only [Bool.false_eq_true, if_false, sweepAll, h.swept, hswept, List.singleton_append]
  · rw [meaningAll, hraw.isSeparator, htranslated]
    rfl

/-- The tokens that stripping and grouping leave where they are. -/
def stays : Tree.Kind → Bool
  | .comma | .semicolon => false
  | k => k.isTerminal || k = .identifier

theorem Parts.leaf {k : Tree.Kind} {x : String} {line : Nat} (hk : stays k = true)
    (hts : Parts n ts us) : Parts n (.leaf k x line :: ts) (.leaf k x line :: us) := by
  obtain ⟨hswept, htranslated⟩ := hts
  have hk' : k.isTerminal = true ∨ k = .identifier := by
    cases k <;> first | exact Or.inl rfl | exact Or.inr rfl | cases hk
  have hsep : (Tree.leaf k x line).isSeparator = false := by
    cases k <;> first | rfl | cases hk
  constructor
  · rw [structuredAll, hsep]
    simp only [Bool.false_eq_true, if_false, sweepAll, sweep_leaf hk', hswept, List.singleton_append]
  · rw [meaningAll, hsep, htranslated, meaning_leaf hk']
    rfl

theorem Parts.semicolon {x : String} {line : Nat} (hts : Parts n ts us) :
    Parts n (.leaf .semicolon x line :: ts) us := ⟨hts.swept, hts.translated⟩

theorem Parts.ending (h : Ending ts) : Parts n ts [] := by
  rcases h with rfl | ⟨x, line, rfl⟩
  · exact .nil
  · exact .semicolon .nil

/-- Items between separators that have a property. -/
theorem parts_of_forall {P : Tree → Bool} (h : ∀ t ∈ ts, t.isSeparator = false →
      (sweep groupStep (structured n t)).1 = [meaning t] ∧ P (meaning t) = true ∧
        (meaning t).shaped = true) :
    Parts n ts (meaningAll ts) ∧ (meaningAll ts).all P = true ∧
      shapedAll (meaningAll ts) = true := by
  induction ts with
  | nil => exact ⟨.nil, rfl, rfl⟩
  | cons t ts ih =>
    obtain ⟨⟨hswept, -⟩, hall, hshaped⟩ := ih fun u hu => h u (List.mem_cons_of_mem _ hu)
    cases hsep : t.isSeparator with
    | true =>
      rw [meaningAll, hsep]
      refine ⟨⟨?_, by rw [meaningAll, hsep, if_pos rfl]⟩, hall, hshaped⟩
      rw [structuredAll, hsep]
      exact hswept
    | false =>
      obtain ⟨ht, hP, hs⟩ := h t List.mem_cons_self hsep
      rw [meaningAll, hsep]
      refine ⟨⟨?_, by rw [meaningAll, hsep]⟩, ?_, ?_⟩
      · rw [structuredAll, hsep]
        simp only [Bool.false_eq_true, if_false, sweepAll, ht, hswept, List.singleton_append]
      · simp only [Bool.false_eq_true, if_false, List.all_cons, hP, hall, Bool.and_self]
      · simp only [Bool.false_eq_true, if_false, shapedAll, hs, hshaped, Bool.and_self]

theorem translated_statement {r : Rule} {line : Nat} (hr : r.isOperand = false)
    (h : Parts n ts us)
    (hgroup : (groupStep (.node .statement "" false line us)).1 = [statementOf line us])
    (hgives : r.gives (statementOf line us).kind = true)
    (hshaped : (statementOf line us).shaped = true) :
    Translated n r (.branch .statement line ts) := by
  have hmeaning : meaning (.branch .statement line ts) = statementOf line us := by
    rw [meaning_statement, h.translated]
  refine ⟨?_, fun h => by simp [hr] at h, by rwa [hmeaning], by rwa [hmeaning]⟩
  rw [hmeaning, ← hgroup, ← h.swept]
  rfl

theorem translated_expression {r : Rule} {line : Nat} (h : Parts n ts us)
    (hcollapse : collapse n .expression "" false line (structuredAll n ts) =
      .node .expression "" false line (structuredAll n ts))
    (hgroup : (groupStep (.node .expression "" false line us)).1 = [expressionOf line us])
    (hline : (expressionOf line us).line = line)
    (hgives : r.gives (expressionOf line us).kind = true)
    (hshaped : (expressionOf line us).shaped = true) :
    Translated n r (.branch .expression line ts) := by
  have hmeaning : meaning (.branch .expression line ts) = expressionOf line us := by
    rw [meaning_expression, h.translated]
  have hstructured : structured n (.branch .expression line ts) =
      .node .expression "" false line (structuredAll n ts) := by
    rw [branch, structured, hcollapse]
  refine ⟨?_, fun _ => by rw [hmeaning, hstructured, hline, line_node], by rwa [hmeaning],
    by rwa [hmeaning]⟩
  rw [hmeaning, ← hgroup, ← h.swept, hstructured]
  rfl

/-- Grouping makes a tree with a value of a stripped tree, on the same line. -/
structure Grouped (t u : Tree) : Prop where
  swept : (sweep groupStep t).1 = [u]
  line : t.line = u.line
  value : u.isValue = true
  shaped : u.shaped = true

theorem sweep_operator {x : String} {line : Nat} :
    (sweep groupStep (.leaf .operator x line)).1 = [.leaf .operator x line] := rfl

theorem Grouped.three {a a' b b' : Tree} {x : String} {l line : Nat} (ha : Grouped a a')
    (hb : Grouped b b') : Grouped (.node .expression "" false line [a, .leaf .operator x l, b])
      (.node .binary x false line [a', b']) := by
  have hoperator : expressionOf line [a', .leaf .operator x l, b'] =
      .node .binary x false line [a', b'] := rfl
  have hshaped : (expressionOf line [a', .leaf .operator x l, b']).shaped = true ∧
      (expressionOf line [a', .leaf .operator x l, b']).isValue = true :=
    shaped_three ha.shaped hb.shaped ha.value hb.value (Or.inl rfl)
  rw [hoperator] at hshaped
  refine ⟨?_, rfl, hshaped.2, hshaped.1⟩
  rw [sweep, sweepAll, sweepAll, sweepAll, sweepAll, ha.swept, hb.swept, sweep_operator]
  exact groupStep_three ha.value hb.value (Or.inl rfl)

/-- A chain that is associated to its end is grouped to the left fold of its operands. -/
theorem grouped_associate {line : Nat} {rest : List (Tree × Tree)}
    (ho : ∀ p ∈ rest, ∃ x l, p.1 = .leaf .operator x l)
    (hr : ∀ p ∈ rest, Grouped (structured n p.2) (meaning p.2)) :
    ∀ {a a' : Tree} {m : Nat}, Grouped a a' → rest ≠ [] → rest.length ≤ m + 1 →
    Grouped (.node .expression "" false line
        (associate m (interleaved a (rest.map fun p => (p.1, structured n p.2)))))
      (foldChain line a' (rest.flatMap fun p => [p.1, meaning p.2])) := by
  induction rest with
  | nil => intro a a' m _ hne; exact absurd rfl hne
  | cons p rest ih =>
    intro a a' m ha _ hlen
    obtain ⟨x, l, hx⟩ := ho p List.mem_cons_self
    have hp := hr p List.mem_cons_self
    -- one operation is left, whose three children are grouped to it
    cases rest with
    | nil =>
      rw [List.map_cons, List.map_nil, interleaved_cons,
        show interleaved (structured n p.2) [] = [structured n p.2] from rfl, associate_three,
        List.flatMap_cons, hx]
      exact ha.three hp
    | cons q rest =>
      -- the first operation becomes the left operand of the others
      obtain ⟨m, rfl⟩ : ∃ k, m = k + 1 := ⟨m - 1, by simp at hlen; omega⟩
      have hthree : Grouped (.node .expression "" false a.line [a, .leaf .operator x l,
          structured n p.2]) (.node .binary x false a.line [a', meaning p.2]) := ha.three hp
      have hgrouped := ih (fun q hq => ho q (List.mem_cons_of_mem _ hq))
        (fun q hq => hr q (List.mem_cons_of_mem _ hq)) (m := m) hthree (List.cons_ne_nil _ _)
        (by simp at hlen ⊢; omega)
      rw [ha.line] at hgrouped
      rw [List.map_cons, List.map_cons, associate_interleaved, hx, ha.line]
      rw [List.flatMap_cons, hx]
      exact hgrouped

theorem meaningAll_interleaved {rest : List (Tree × Tree)} (ht : t.isSeparator = false)
    (ho : ∀ p ∈ rest, ∃ x l, p.1 = .leaf .operator x l)
    (hr : ∀ p ∈ rest, p.2.isSeparator = false) :
    meaningAll (interleaved t rest) =
      meaning t :: rest.flatMap fun p => [p.1, meaning p.2] := by
  induction rest generalizing t with
  | nil => simp [interleaved, meaningAll, ht]
  | cons p rest ih =>
    obtain ⟨x, l, hx⟩ := ho p List.mem_cons_self
    have hoperator : p.1.isSeparator = false := by rw [hx]; rfl
    rw [interleaved_cons, meaningAll, meaningAll,
      ih (hr p List.mem_cons_self) (fun q hq => ho q (List.mem_cons_of_mem _ hq))
        fun q hq => hr q (List.mem_cons_of_mem _ hq),
      ht, hoperator, hx, meaning_leaf (Or.inl rfl), List.flatMap_cons, hx]
    rfl

theorem expressionOf_chain {line : Nat} {a : Tree} {rest : List (Tree × Tree)} {f : Tree → Tree}
    (ha : a.isValue = true) (ho : ∀ p ∈ rest, ∃ x l, p.1 = .leaf .operator x l) (hne : rest ≠ []) :
    expressionOf line (a :: rest.flatMap fun p => [p.1, f p.2]) =
      foldChain line a (rest.flatMap fun p => [p.1, f p.2]) := by
  rcases rest with _ | ⟨p, _ | ⟨q, rest⟩⟩
  · exact absurd rfl hne
  · obtain ⟨x, l, hx⟩ := ho p List.mem_cons_self
    simp [expressionOf, foldChain, hx]
  · have hkeyword : a.hasKind .keyword = false :=
      hasKind_of_isOperand (isOperand_of_isValue ha) rfl
    simp only [List.flatMap_cons, List.cons_append, List.nil_append, expressionOf, hkeyword]
    rfl

theorem Translated.value {r : Rule} (h : Translated n r t) (hr : r.isOperand = true) :
    (meaning t).isValue = true := by
  have hgives := h.gives
  rw [isValue]
  cases r <;> simp only [Rule.gives, decide_eq_true_eq] at hgives <;>
    first
      | exact hgives
      | rw [hgives]; rfl
      | cases hr

theorem Translated.grouped {r : Rule} (h : Translated n r t) (hr : r.isOperand = true) :
    Grouped (structured n t) (meaning t) :=
  ⟨h.swept, h.line hr, h.value hr, h.shaped⟩

/-- A chain of operands of one rule. -/
theorem grouped_interleaved {r : Rule} {line : Nat} {rest : List (Tree × Tree)}
    (hr : r.isOperand = true) (ht : Raw r t) (ho : ∀ p ∈ rest, ∃ x l, p.1 = .leaf .operator x l)
    (hrest : ∀ p ∈ rest, Raw r p.2) (iht : Grouped (structured n t) (meaning t))
    (ihrest : ∀ p ∈ rest, Grouped (structured n p.2) (meaning p.2))
    (hlen : rest.length ≤ n + 1) :
    Grouped (structured n (.branch .expression line (interleaved t rest)))
      (meaning (.branch .expression line (interleaved t rest))) := by
  have hsep : ∀ p ∈ rest, p.2.isSeparator = false := fun p hp => (hrest p hp).isSeparator
  have hchain := isChain_of_raw (ht.isOperand_structured hr n) ho
    fun p hp => (hrest p hp).isOperand_structured hr n
  rw [meaning_expression, meaningAll_interleaved ht.isSeparator ho hsep, branch, structured,
    structuredAll_interleaved n ht.isSeparator ho hsep]
  cases rest with
  | nil => exact iht
  | cons p rest =>
    rw [expressionOf_chain iht.value ho (List.cons_ne_nil _ _), List.map_cons]
    rw [List.map_cons] at hchain
    rw [hchain.collapse]
    exact grouped_associate ho ihrest iht (List.cons_ne_nil _ _) hlen

theorem Translated.block (h : Translated n .block t) : (meaning t).kind = .block :=
  of_decide_eq_true h.gives

theorem Grouped.translated {r : Rule} (h : Grouped (structured n t) (meaning t))
    (hr : ∀ k : Tree.Kind, k.isValue = true → r.gives k = true) : Translated n r t :=
  ⟨h.swept, fun _ => h.line, hr _ h.value, h.shaped⟩

/-- Two operands with a sign between them. -/
theorem translated_three {r r' r'' : Rule} {k : Tree.Kind} {x : String} {l line : Nat}
    (hr : ∀ k : Tree.Kind, k.isValue = true → r''.gives k = true)
    (hk : k = .operator ∨ k = .comparator ∨ k = .assignment)
    (ht : Raw r t) (hu : Raw r' u) (hto : r.isOperand = true) (huo : r'.isOperand = true)
    (iht : Translated n r t) (ihu : Translated n r' u) :
    Translated n r'' (.branch .expression line [t, .leaf k x l, u]) := by
  have hshaped : (expressionOf line [meaning t, .leaf k x l, meaning u]).shaped = true ∧
      (expressionOf line [meaning t, .leaf k x l, meaning u]).isValue = true :=
    shaped_three iht.shaped ihu.shaped (iht.value hto) (ihu.value huo) hk
  have hleaf : stays k = true := by
    rcases hk with rfl | rfl | rfl <;> rfl
  refine translated_expression (.cons ht iht (.leaf hleaf (.cons hu ihu .nil))) ?_
    (groupStep_three (iht.value hto) (ihu.value huo) hk) (line_three hk) (hr _ hshaped.2) hshaped.1
  have hsep : (Tree.leaf k x l).isSeparator = false := by
    rcases hk with rfl | rfl | rfl <;> rfl
  simp only [structuredAll, ht.isSeparator, hu.isSeparator, hsep, Bool.false_eq_true, if_false]
  exact collapse_three n (ht.isOperand_structured hto n)

theorem translated_of_eq {r r' : Rule} (hr : ∀ k : Tree.Kind, k.isValue = true → r'.gives k = true)
    (ho : r.isOperand = true) (h : Translated n r t) (hs : structured n u = structured n t)
    (htr : meaning u = meaning t) : Translated n r' u := by
  refine ⟨?_, ?_, ?_, ?_⟩
  · rw [hs, htr, h.swept]
  · intro _
    rw [hs, htr, h.line ho]
  · rw [htr]
    exact hr _ (h.value ho)
  · rw [htr, h.shaped]

/-- An expression of one part. -/
theorem Translated.only {r r' : Rule} {line : Nat} (h : Translated n r t)
    (hr : ∀ k : Tree.Kind, k.isValue = true → r'.gives k = true) (hraw : Raw r t)
    (ho : r.isOperand = true) : Translated n r' (.branch .expression line [t]) := by
  refine translated_of_eq hr ho h ?_ ?_
  · simp [branch, structured, structuredAll, hraw.isSeparator, collapse]
  · simp [meaning_expression, meaningAll, hraw.isSeparator, expressionOf]

theorem Translated.statement {r : Rule} {line : Nat} {ends : List Tree} (h : Translated n r t)
    (ho : r.isOperand = true) (hraw : Raw r t) (hends : Ending ends) :
    Translated n .statement (.branch .statement line (t :: ends)) := by
  have hshaped : (statementOf line [meaning t]).shaped = true ∧
      (statementOf line [meaning t]).kind.isStatement = true :=
    shaped_statementOf_only h.shaped (h.value ho)
  exact translated_statement rfl (.cons hraw h (.ending hends)) (statementOf_only (h.value ho))
    hshaped.2 hshaped.1

theorem mem_interleaved {rest : List (Tree × Tree)} (h : u ∈ interleaved t rest) :
    u = t ∨ ∃ p ∈ rest, u = p.1 ∨ u = p.2 := by
  simpa [interleaved] using h

theorem mem_interleaved_first {rest : List (Tree × Tree)} : t ∈ interleaved t rest :=
  List.mem_cons_self

theorem mem_interleaved_second {rest : List (Tree × Tree)} {p : Tree × Tree} (hp : p ∈ rest) :
    p.2 ∈ interleaved t rest :=
  List.mem_cons_of_mem _ (List.mem_flatMap.mpr ⟨p, hp, by simp⟩)

theorem translated_chain {r r' : Rule} {line : Nat} {rest : List (Tree × Tree)}
    (hro : r.isOperand = true) (hg : ∀ k : Tree.Kind, k.isValue = true → r'.gives k = true)
    (ht : Raw r t) (ho : ∀ p ∈ rest, ∃ x l, p.1 = .leaf .operator x l)
    (hr : ∀ p ∈ rest, Raw r p.2) (iht : t.nodes ≤ n → Translated n r t)
    (ihr : ∀ p ∈ rest, p.2.nodes ≤ n → Translated n r p.2)
    (hn : (branch .expression line (interleaved t rest)).nodes ≤ n) :
    Translated n r' (.branch .expression line (interleaved t rest)) := by
  rw [nodes_branch] at hn
  have hlen := length_le_nodesAll (interleaved t rest)
  rw [length_interleaved] at hlen
  have hle : ∀ u ∈ interleaved t rest, u.nodes ≤ n := fun u hu =>
    Nat.le_trans (nodes_le_of_mem hu) (by omega)
  have ht' := iht (hle t mem_interleaved_first)
  refine (grouped_interleaved hro ht ho hr (ht'.grouped hro) (fun p hp => ?_) (by omega)).translated
    hg
  exact (ihr p hp (hle p.2 (mem_interleaved_second hp))).grouped hro

theorem expressionOf_value {line : Nat} {a b : Tree} (h : t.isValue = true) :
    expressionOf line [a, t, b] = t := by
  rw [isValue] at h
  simp only [expressionOf]
  generalize t.kind = k at h
  cases k <;> first | rfl | cases h

/-- A node above items that have a property each. -/
theorem translated_list {r : Rule} {k : Tree.Kind} {line : Nat} {P : Tree → Bool}
    (hk : k = .block ∨ k = .expressionList ∨ k = .argumentList) (hr : r.isOperand = false)
    (hgives : r.gives k = true) (hfits : ∀ us, fits (.node k "" false line us) = us.all P)
    (h : ∀ t ∈ ts, t.isSeparator = false → (sweep groupStep (structured n t)).1 = [meaning t] ∧
      P (meaning t) = true ∧ (meaning t).shaped = true) :
    Translated n r (.branch k line ts) := by
  obtain ⟨hparts, hall, hshaped⟩ := parts_of_forall h
  have hmeaning : meaning (.branch k line ts) = .node k "" false line (meaningAll ts) := by
    rcases hk with rfl | rfl | rfl <;> rfl
  have hswept : (sweep groupStep (structured n (.branch k line ts))).1 =
      [.node k "" false line (sweepAll groupStep (structuredAll n ts)).1] := by
    rcases hk with rfl | rfl | rfl <;> rfl
  refine ⟨?_, fun h => by simp [hr] at h, by rwa [hmeaning], ?_⟩
  · rw [hswept, hparts.swept, hmeaning]
  · rw [hmeaning, shaped, hfits, hall, hshaped]
    rfl

section Statements

variable {e b c s : Tree} {w x₂ x₃ x₄ x₅ x₇ x₈ : String} {line l₁ l₂ l₃ l₄ l₅ l₆ l₇ l₈ : Nat}

/-- A condition in parentheses and a block in braces, after a keyword. -/
theorem Parts.conditional (he : Raw .expression e) (hb : Raw .block b)
    (ihe : Translated n .expression e) (ihb : Translated n .block b) (hts : Parts n ts us) :
    Parts n (.leaf .keyword w l₁ :: .leaf .leftParen x₂ l₂ :: e :: .leaf .rightParen x₃ l₃ ::
        .leaf .leftCurly x₄ l₄ :: b :: .leaf .rightCurly x₅ l₅ :: ts)
      (.leaf .keyword w l₁ :: .leaf .leftParen x₂ l₂ :: meaning e :: .leaf .rightParen x₃ l₃ ::
        .leaf .leftCurly x₄ l₄ :: meaning b :: .leaf .rightCurly x₅ l₅ :: us) :=
  .leaf rfl <| .leaf rfl <| .cons he ihe <| .leaf rfl <| .leaf rfl <| .cons hb ihb <| .leaf rfl hts

theorem translated_ifThen (he : Raw .expression e) (hb : Raw .block b)
    (ihe : Translated n .expression e) (ihb : Translated n .block b) :
    Translated n .ifStatement (.branch .statement line [.leaf .keyword "if" l₁,
      .leaf .leftParen x₂ l₂, e, .leaf .rightParen x₃ l₃, .leaf .leftCurly x₄ l₄, b,
      .leaf .rightCurly x₅ l₅]) := by
  have hv := ihe.value rfl
  have hk := ihb.block
  refine translated_statement rfl (.conditional he hb ihe ihb .nil) ?_ rfl ?_
  · simp [groupStep, groupStatement, isConditional, isKeyword, hasKind, hk,
      isOperand_of_isValue hv, statementOf, Tree.regroup]
  · simp [statementOf, shaped, fits, shapedAll, hasKind, hk, hv, ihe.shaped, ihb.shaped]

theorem translated_ifElseIf (he : Raw .expression e) (hb : Raw .block b) (hs : Raw .ifStatement s)
    (ihe : Translated n .expression e) (ihb : Translated n .block b)
    (ihs : Translated n .ifStatement s) :
    Translated n .ifStatement (.branch .statement line [.leaf .keyword "if" l₁,
      .leaf .leftParen x₂ l₂, e, .leaf .rightParen x₃ l₃, .leaf .leftCurly x₄ l₄, b,
      .leaf .rightCurly x₅ l₅, .leaf .keyword "else" l₆, s]) := by
  have hv := ihe.value rfl
  have hk := ihb.block
  have hks : (meaning s).kind = .ifStatement := of_decide_eq_true ihs.gives
  refine translated_statement rfl
    (.conditional he hb ihe ihb (.leaf rfl (.cons hs ihs .nil))) ?_ rfl ?_
  · simp [groupStep, groupStatement, isConditional, isKeyword, hasKind, hk, hks,
      isOperand_of_isValue hv, statementOf, Tree.regroup]
  · simp [statementOf, shaped, fits, shapedAll, hasKind, hk, hks, hv, ihe.shaped, ihb.shaped,
      ihs.shaped]

theorem translated_ifElse (he : Raw .expression e) (hb : Raw .block b) (hc : Raw .block c)
    (ihe : Translated n .expression e) (ihb : Translated n .block b) (ihc : Translated n .block c) :
    Translated n .ifStatement (.branch .statement line [.leaf .keyword "if" l₁,
      .leaf .leftParen x₂ l₂, e, .leaf .rightParen x₃ l₃, .leaf .leftCurly x₄ l₄, b,
      .leaf .rightCurly x₅ l₅, .leaf .keyword "else" l₆, .leaf .leftCurly x₇ l₇, c,
      .leaf .rightCurly x₈ l₈]) := by
  have hv := ihe.value rfl
  have hk := ihb.block
  have hkc := ihc.block
  refine translated_statement rfl
    (.conditional he hb ihe ihb (.leaf rfl (.leaf rfl (.cons hc ihc (.leaf rfl .nil))))) ?_ rfl ?_
  · simp [groupStep, groupStatement, isConditional, isKeyword, hasKind, hk, hkc,
      isOperand_of_isValue hv, statementOf, Tree.regroup]
  · simp [statementOf, shaped, fits, shapedAll, hasKind, hk, hkc, hv, ihe.shaped, ihb.shaped,
      ihc.shaped]

theorem translated_whileLoop (he : Raw .expression e) (hb : Raw .block b)
    (ihe : Translated n .expression e) (ihb : Translated n .block b) :
    Translated n .statement (.branch .statement line [.leaf .keyword "while" l₁,
      .leaf .leftParen x₂ l₂, e, .leaf .rightParen x₃ l₃, .leaf .leftCurly x₄ l₄, b,
      .leaf .rightCurly x₅ l₅]) := by
  have hv := ihe.value rfl
  have hk := ihb.block
  refine translated_statement rfl (.conditional he hb ihe ihb .nil) ?_ rfl ?_
  · simp [groupStep, groupStatement, isConditional, isKeyword, hasKind, hk,
      isOperand_of_isValue hv, statementOf, Tree.regroup]
  · simp [statementOf, shaped, fits, shapedAll, hasKind, hk, hv, ihe.shaped, ihb.shaped]

theorem translated_initialisation (he : Raw .expression e) (ihe : Translated n .expression e) :
    Translated n .statement (.branch .statement line [.leaf .keyword "let" l₁,
      .leaf .identifier x₂ l₂, .leaf .assignment x₃ l₃, e, .leaf .semicolon x₄ l₄]) := by
  have hv := ihe.value rfl
  refine translated_statement rfl
    (.leaf rfl <| .leaf rfl <| .leaf rfl <| .cons he ihe <| .semicolon .nil) ?_ rfl ?_
  · simp [groupStep, groupStatement, isKeyword, hasKind, isOperand_of_isValue hv, statementOf,
      Tree.regroup]
  · simp [statementOf, shaped, fits, shapedAll, hasKind, hv, ihe.shaped, leaf]

theorem translated_declaration : Translated n .statement (.branch .statement line
    [.leaf .keyword "let" l₁, .leaf .identifier x₂ l₂, .leaf .semicolon x₃ l₃]) :=
  translated_statement rfl (.leaf rfl (.leaf rfl (.semicolon .nil))) rfl rfl rfl

end Statements

section Operands

variable {a b e l : Tree} {x₁ x₂ x₃ x₄ x₅ x₆ : String} {line l₁ l₂ l₃ l₄ l₅ l₆ : Nat}

theorem translated_call (ht : Raw .suffixed t) (hl : Raw .expressionList l)
    (iht : Translated n .suffixed t) (ihl : Translated n .expressionList l) :
    Translated n .suffixed (.branch .expression line
      [t, .leaf .leftParen x₁ l₁, l, .leaf .rightParen x₂ l₂]) := by
  have hv := iht.value rfl
  have hk : (meaning l).kind = .expressionList := of_decide_eq_true ihl.gives
  refine translated_expression
    (.cons ht iht <| .leaf rfl <| .cons hl ihl <| .leaf rfl .nil) ?_ ?_ rfl rfl ?_
  · simp [structuredAll, ht.isSeparator, hl.isSeparator, leaf, collapse, isOperatorChain]
  · simp [groupStep, groupExpression, hasKind, hk, isOperand_of_isValue hv, expressionOf,
      Tree.regroup]
  · simp [expressionOf, shaped, fits, shapedAll, hasKind, hk, hv, iht.shaped, ihl.shaped]

theorem translated_index (ht : Raw .suffixed t) (he : Raw .expression e)
    (iht : Translated n .suffixed t) (ihe : Translated n .expression e) :
    Translated n .suffixed (.branch .expression line
      [t, .leaf .leftBracket x₁ l₁, e, .leaf .rightBracket x₂ l₂]) := by
  have hv := iht.value rfl
  have hve := ihe.value rfl
  refine translated_expression
    (.cons ht iht <| .leaf rfl <| .cons he ihe <| .leaf rfl .nil) ?_ ?_ rfl rfl ?_
  · simp [structuredAll, ht.isSeparator, he.isSeparator, leaf, collapse, isOperatorChain]
  · simp [groupStep, groupExpression, hasKind, isOperand_of_isValue hv,
      isOperand_of_isValue hve, expressionOf, Tree.regroup]
  · simp [expressionOf, shaped, fits, shapedAll, hasKind, hv, hve, iht.shaped, ihe.shaped]

theorem translated_member (ht : Raw .suffixed t) (iht : Translated n .suffixed t) :
    Translated n .suffixed (.branch .expression line
      [t, .leaf .dot x₁ l₁, .leaf .identifier x₂ l₂]) := by
  have hv := iht.value rfl
  refine translated_expression (.cons ht iht (.leaf rfl (.leaf rfl .nil))) ?_ ?_ rfl rfl ?_
  · simp only [structuredAll, ht.isSeparator, leaf]
    exact collapse_three n (ht.isOperand_structured rfl n)
  · simp [groupStep, groupExpression, hasKind, isOperand_of_isValue hv, expressionOf, Tree.regroup]
  · simp [expressionOf, shaped, fits, shapedAll, hasKind, hv, iht.shaped, leaf]

/-- Parentheses vanish before anything is grouped. -/
theorem translated_parenthesised (he : Raw .expression e) (ihe : Translated n .expression e) :
    Translated n .primary (.branch .expression line
      [.leaf .leftParen x₁ l₁, e, .leaf .rightParen x₂ l₂]) := by
  have hparts : Parts n [.leaf .leftParen x₁ l₁, e, .leaf .rightParen x₂ l₂] _ :=
    .leaf rfl (.cons he ihe (.leaf rfl .nil))
  refine translated_of_eq (fun _ h => h) rfl ihe ?_ ?_
  · simp [branch, structured, structuredAll, he.isSeparator, leaf, collapse, hasKind]
  · rw [meaning_expression, hparts.translated, expressionOf_value (ihe.value rfl)]

theorem translated_array (hl : Raw .expressionList l) (ihl : Translated n .expressionList l) :
    Translated n .array (.branch .array line
      [.leaf .leftBracket x₁ l₁, l, .leaf .rightBracket x₂ l₂]) := by
  have hk : (meaning l).kind = .expressionList := of_decide_eq_true ihl.gives
  have hparts : Parts n [.leaf .leftBracket x₁ l₁, l, .leaf .rightBracket x₂ l₂] _ :=
    .leaf rfl (.cons hl ihl (.leaf rfl .nil))
  have hmeaning : meaning (.branch .array line [.leaf .leftBracket x₁ l₁, l,
      .leaf .rightBracket x₂ l₂]) = .node .array "" false line [meaning l] :=
    meaning_array hparts.translated
  refine ⟨?_, fun _ => by rw [hmeaning]; rfl, by rw [hmeaning]; rfl, ?_⟩
  · rw [hmeaning]
    show (groupStep (.node .array "" false line (sweepAll groupStep (structuredAll n _)).1)).1 = _
    rw [hparts.swept]
    simp [groupStep, hasKind, hk]
  · rw [hmeaning]
    simp [shaped, fits, shapedAll, hasKind, hk, ihl.shaped]

theorem translated_anonymous (ha : Raw .argumentList a) (hb : Raw .block b)
    (iha : Translated n .argumentList a) (ihb : Translated n .block b) :
    Translated n .function (.branch .expression line [.leaf .keyword "func" l₁,
      .leaf .leftParen x₃ l₃, a, .leaf .rightParen x₄ l₄, .leaf .leftCurly x₅ l₅, b,
      .leaf .rightCurly x₆ l₆]) := by
  have hka : (meaning a).kind = .argumentList := of_decide_eq_true iha.gives
  have hkb := ihb.block
  refine translated_expression
    (.leaf rfl <| .leaf rfl <| .cons ha iha <| .leaf rfl <| .leaf rfl <| .cons hb ihb <|
      .leaf rfl .nil) ?_ ?_ rfl rfl ?_
  · simp [structuredAll, ha.isSeparator, hb.isSeparator, structured, leaf, collapse,
      isOperatorChain, hasKind]
  · simp [groupStep, groupExpression, hasKind, isKeyword, hka, hkb, expressionOf, definitionOf,
      Tree.regroup]
  · simp [expressionOf, definitionOf, shaped, fits, shapedAll, hasKind, hka, hkb, iha.shaped,
      ihb.shaped]

theorem translated_named (ha : Raw .argumentList a) (hb : Raw .block b)
    (iha : Translated n .argumentList a) (ihb : Translated n .block b) :
    Translated n .function (.branch .expression line [.leaf .keyword "func" l₁,
      .leaf .identifier x₂ l₂, .leaf .leftParen x₃ l₃, a, .leaf .rightParen x₄ l₄,
      .leaf .leftCurly x₅ l₅, b, .leaf .rightCurly x₆ l₆]) := by
  have hka : (meaning a).kind = .argumentList := of_decide_eq_true iha.gives
  have hkb := ihb.block
  refine translated_expression
    (.leaf rfl <| .leaf rfl <| .leaf rfl <| .cons ha iha <| .leaf rfl <| .leaf rfl <|
      .cons hb ihb <| .leaf rfl .nil) ?_ ?_ rfl rfl ?_
  · simp [structuredAll, ha.isSeparator, hb.isSeparator, leaf, collapse, isOperatorChain]
  · simp [groupStep, groupExpression, hasKind, isKeyword, hka, hkb, expressionOf, definitionOf,
      Tree.regroup]
  · simp [expressionOf, definitionOf, shaped, fits, shapedAll, hasKind, hka, hkb, iha.shaped,
      ihb.shaped]

theorem translated_classLiteral (hb : Raw .block b) (ihb : Translated n .block b) :
    Translated n .classLiteral (.branch .expression line [.leaf .keyword "class" l₁,
      .leaf .identifier x₂ l₂, .leaf .leftCurly x₃ l₃, b, .leaf .rightCurly x₄ l₄]) := by
  have hkb := ihb.block
  refine translated_expression
    (.leaf rfl <| .leaf rfl <| .leaf rfl <| .cons hb ihb <| .leaf rfl .nil) ?_ ?_ rfl rfl ?_
  · simp [structuredAll, hb.isSeparator, structured, leaf, collapse, isOperatorChain, hasKind]
  · simp [groupStep, groupExpression, hasKind, isKeyword, hkb, expressionOf, definitionOf,
      Tree.regroup]
  · simp [expressionOf, definitionOf, shaped, fits, shapedAll, hasKind, hkb, ihb.shaped]

end Operands

section Lists

variable {line : Nat} {rest : List (Tree × Tree)}

theorem translated_expressions (hc : ∀ p ∈ rest, ∃ x l, p.1 = .leaf .comma x l)
    (ht : Translated n .expression t) (hr : ∀ p ∈ rest, Translated n .expression p.2) :
    Translated n .expressionList (.branch .expressionList line (interleaved t rest)) := by
  refine translated_list (by simp) rfl rfl (fun _ => rfl) fun u hu hsep => ?_
  have h : Translated n .expression u := by
    rcases mem_interleaved hu with rfl | ⟨p, hp, rfl | rfl⟩
    · exact ht
    · obtain ⟨x, l, hx⟩ := hc p hp
      rw [hx] at hsep
      cases hsep
    · exact hr p hp
  exact ⟨h.swept, h.gives, h.shaped⟩

theorem translated_arguments (ht : ∃ x l, t = .leaf .identifier x l)
    (hc : ∀ p ∈ rest, ∃ x l, p.1 = .leaf .comma x l)
    (hr : ∀ p ∈ rest, ∃ x l, p.2 = .leaf .identifier x l) :
    Translated n .argumentList (.branch .argumentList line (interleaved t rest)) := by
  refine translated_list (by simp) rfl rfl (fun _ => rfl) fun u hu hsep => ?_
  have h : ∃ x l, u = .leaf .identifier x l := by
    rcases mem_interleaved hu with rfl | ⟨p, hp, rfl | rfl⟩
    · exact ht
    · obtain ⟨x, l, hx⟩ := hc p hp
      rw [hx] at hsep
      cases hsep
    · exact hr p hp
  obtain ⟨x, l, rfl⟩ := h
  exact ⟨rfl, rfl, rfl⟩

end Lists

/-- A stripped tree of the grammar with all chains associated is grouped to its translation. -/
theorem Raw.translated {r : Rule} (h : Raw r t) : t.nodes ≤ n → Translated n r t := by
  -- only the chains need the bound, since they are no longer than their tree has nodes
  induction h with
  | block _ ih =>
    intro hn
    rw [nodes_branch] at hn
    refine translated_list (by simp) rfl rfl (fun _ => rfl) fun t ht _ => ?_
    have h := ih t ht (Nat.le_trans (nodes_le_of_mem ht) (by omega))
    exact ⟨h.swept, h.gives, h.shaped⟩
  | ifThen he hb ihe ihb =>
    intro hn
    simp only [nodes_branch, nodesAll] at hn
    exact translated_ifThen he hb (ihe (by omega)) (ihb (by omega))
  | ifElseIf he hb hs ihe ihb ihs =>
    intro hn
    simp only [nodes_branch, nodesAll] at hn
    exact translated_ifElseIf he hb hs (ihe (by omega)) (ihb (by omega)) (ihs (by omega))
  | ifElse he hb hc ihe ihb ihc =>
    intro hn
    simp only [nodes_branch, nodesAll] at hn
    exact translated_ifElse he hb hc (ihe (by omega)) (ihb (by omega)) (ihc (by omega))
  | conditional _ ih =>
    intro hn
    have h := ih hn
    have hk : (meaning _).kind = .ifStatement := of_decide_eq_true h.gives
    exact ⟨h.swept, fun ho => (by cases ho), (by rw [hk]; rfl), h.shaped⟩
  | whileLoop he hb ihe ihb =>
    intro hn
    simp only [nodes_branch, nodesAll] at hn
    exact translated_whileLoop he hb (ihe (by omega)) (ihb (by omega))
  | functionStatement hf he ih | classStatement hf he ih =>
    intro hn
    simp only [nodes_branch, nodesAll] at hn
    exact (ih (by omega)).statement rfl hf he
  | expressionStatement he ih =>
    intro hn
    simp only [nodes_branch, nodesAll] at hn
    exact (ih (by omega)).statement rfl he (Or.inr ⟨_, _, rfl⟩)
  | initialisation he ih =>
    intro hn
    simp only [nodes_branch, nodesAll] at hn
    exact translated_initialisation he (ih (by omega))
  | declaration => exact fun _ => translated_declaration
  | assignment ht hu iht ihu | comparison ht hu iht ihu | power ht hu iht ihu =>
    intro hn
    simp only [nodes_branch, nodesAll] at hn
    exact translated_three (fun _ h => h) (by simp) ht hu rfl rfl (iht (by omega)) (ihu (by omega))
  | compared h ih | uncompared h ih | unpowered h ih =>
    intro hn
    simp only [nodes_branch, nodesAll] at hn
    exact (ih (by omega)).only (fun _ h => h) h rfl
  | plain _ ih | functionOperand _ ih | classOperand _ ih | arrayOperand _ ih =>
    intro hn
    exact ((ih hn).grouped rfl).translated fun _ h => h
  | additive ht ho hr iht ihr | multiplicative ht ho hr iht ihr =>
    intro hn
    exact translated_chain rfl (fun _ h => h) ht ho hr iht ihr hn
  | call ht hl iht ihl =>
    intro hn
    simp only [nodes_branch, nodesAll] at hn
    exact translated_call ht hl (iht (by omega)) (ihl (by omega))
  | index ht hi iht ihi =>
    intro hn
    simp only [nodes_branch, nodesAll] at hn
    exact translated_index ht hi (iht (by omega)) (ihi (by omega))
  | member ht iht =>
    intro hn
    simp only [nodes_branch, nodesAll] at hn
    exact translated_member ht (iht (by omega))
  | parenthesised he ih =>
    intro hn
    simp only [nodes_branch, nodesAll] at hn
    exact translated_parenthesised he (ih (by omega))
  | literal hk =>
    rename_i k x line
    intro _
    cases k <;> first | exact ⟨rfl, fun _ => rfl, rfl, rfl⟩ | cases hk
  | anonymous ha hb iha ihb =>
    intro hn
    simp only [nodes_branch, nodesAll] at hn
    exact translated_anonymous ha hb (iha (by omega)) (ihb (by omega))
  | named ha hb iha ihb =>
    intro hn
    simp only [nodes_branch, nodesAll] at hn
    exact translated_named ha hb (iha (by omega)) (ihb (by omega))
  | classLiteral hb ihb =>
    intro hn
    simp only [nodes_branch, nodesAll] at hn
    exact translated_classLiteral hb (ihb (by omega))
  | array hl ihl =>
    intro hn
    simp only [nodes_branch, nodesAll] at hn
    exact translated_array hl (ihl (by omega))
  | noExpressions => intro _; exact ⟨rfl, fun h => (by cases h), rfl, rfl⟩
  | noArguments => intro _; exact ⟨rfl, fun h => (by cases h), rfl, rfl⟩
  | expressions ht hc hr iht ihr =>
    intro hn
    rename_i line u rest
    rw [nodes_branch] at hn
    have hle : ∀ v ∈ interleaved u rest, v.nodes ≤ n := fun v hv =>
      Nat.le_trans (nodes_le_of_mem hv) (by omega)
    exact translated_expressions hc (iht (hle u mem_interleaved_first)) fun p hp =>
      ihr p hp (hle p.2 (mem_interleaved_second hp))
  | arguments ht hc hr => exact fun _ => translated_arguments ht hc hr

end Grouping

end ScriptKit.Grammar
