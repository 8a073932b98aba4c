import ScriptKit.Proofs.Tree.Structured

namespace ScriptKit

namespace Tree

/-- The left fold of a first operand with operators and operands after it. Only the last binary
node is on the given line, the others are on that of the first operand. -/
def foldChain (line : Nat) : Tree → List Tree → Tree
  | left, [operator, right] => .node .binary operator.text false line [left, right]
  | left, operator :: right :: rest =>
    foldChain line (.node .binary operator.text false left.line [left, right]) rest
  | left, _ => left

/-- An assignment to a name or a member, a write to a chain of indices, or an expression that
cannot be evaluated. -/
def assignmentOf (line : Nat) (target sign value : Tree) : Tree :=
  match target.kind with
  | .identifier | .member => .node .assign "" false line [target, value]
  | .index =>
    let (base, indices) := target.indexChain []
    .node .indexWrite "" false line [base, .node .expressionList "" false target.line indices, value]
  | _ => .node .expression "" false line [target, sign, value]

/-- A class or a function, from what stands after its keyword. -/
def definitionOf (line : Nat) : List Tree → Tree
  | [name, _, body, _] => .node .classLiteral name.text false line [body]
  | [_, parameters, _, _, body, _] => .node .function "" false line [parameters, body]
  | [name, _, parameters, _, _, body, _] => .node .function name.text false line [parameters, body]
  | parts => .node .expression "" false line parts

/-- An expression from its parts. -/
def expressionOf (line : Nat) : List Tree → Tree
  | [only] => only
  | [left, mid, right] =>
    match mid.kind with
    | .operator => .node .binary mid.text false line [left, right]
    | .comparator => .node .comparison mid.text false line [left, right]
    | .dot => .node .member "" false line [left, right]
    | .assignment => assignmentOf line left mid right
    | _ => mid
  | [target, mark, inner, _] =>
    .node (if mark.hasKind .leftParen then .call else .index) "" false line [target, inner]
  | first :: rest =>
    if first.hasKind .keyword then definitionOf line rest else foldChain line first rest
  | [] => .node .expression "" false line []

/-- A statement from its parts. -/
def statementOf (line : Nat) : List Tree → Tree
  | [only] =>
    match only.kind with
    | .function => .node .functionDefinition "" false line [only]
    | .classLiteral => .node .classDefinition "" false line [only]
    | _ => only
  | [_, name] => .node .declaration "" false line [name]
  | [_, name, _, value] => .node .initialisation "" false line [name, value]
  | word :: _ :: test :: _ :: _ :: body :: _ :: rest =>
    if word.text = "while" then .node .whileStatement "" false line [test, body]
    else
      match rest with
      | [_, next] => .node .ifStatement "" false line [test, body, next]
      | [_, _, other, _] => .node .ifStatement "" false line [test, body, other]
      | _ => .node .ifStatement "" false line [test, body]
  | parts => .node .statement "" false line parts

mutual

/-- The program that a tree of the grammar stands for. -/
def meaning : Tree → Tree
  | .node kind text evaluated line children =>
    match kind, meaningAll children with
    | .number, parts => .node .number text true line parts
    | .expression, parts => expressionOf line parts
    | .statement, parts => statementOf line parts
    | .array, [_, list, _] => .node .array "" false line [list]
    | _, parts => .node kind text evaluated line parts

def meaningAll : List Tree → List Tree
  | [] => []
  | t :: ts => if t.isSeparator then meaningAll ts else meaning t :: meaningAll ts

end

/-- The kinds of node that have a value. -/
def Kind.isValue : Kind → Bool
  | .expression | .binary | .comparison | .assign | .indexWrite | .call | .member | .index | .array
  | .function | .classLiteral | .number | .string | .boolean | .identifier | .null => true
  | _ => false

/-- The kinds of node that a block consists of. A function or class is there a definition. -/
def Kind.isStatement : Kind → Bool
  | .functionDefinition | .classDefinition | .declaration | .initialisation | .ifStatement
  | .whileStatement => true
  | .function | .classLiteral => false
  | k => k.isValue

def isValue (t : Tree) : Bool := t.kind.isValue

/-- Whether the children of a node are those that its kind has in a program. An expression that
cannot be evaluated is an assignment to something else than a name, a member or an index; only it
has a sign among its children. -/
def fits : Tree → Bool
  | .node kind _ evaluated _ children =>
    match kind, children with
    | .program, [] => true
    | .program, [body] => body.hasKind .block
    | .block, ts => ts.all (·.kind.isStatement)
    | .binary, [left, right] | .comparison, [left, right] => left.isValue && right.isValue
    | .assign, [target, value] =>
      (target.hasKind .identifier || target.hasKind .member) && value.isValue
    | .indexWrite, [base, list, value] =>
      base.isValue && !base.hasKind .index && list.hasKind .expressionList &&
        !list.children.isEmpty && value.isValue
    | .call, [callee, list] => callee.isValue && list.hasKind .expressionList
    | .member, [object, name] => object.isValue && name.hasKind .identifier
    | .index, [target, index] => target.isValue && index.isValue
    | .function, [parameters, body] => parameters.hasKind .argumentList && body.hasKind .block
    | .classLiteral, [body] => body.hasKind .block
    | .functionDefinition, [literal] => literal.hasKind .function
    | .classDefinition, [literal] => literal.hasKind .classLiteral
    | .declaration, [name] => name.hasKind .identifier
    | .initialisation, [name, value] => name.hasKind .identifier && value.isValue
    | .ifStatement, [test, body] | .whileStatement, [test, body] =>
      test.isValue && body.hasKind .block
    | .ifStatement, [test, body, other] =>
      test.isValue && body.hasKind .block && (other.hasKind .block || other.hasKind .ifStatement)
    | .array, [list] => list.hasKind .expressionList
    | .expressionList, ts => ts.all isValue
    | .argumentList, ts => ts.all (·.hasKind .identifier)
    | .number, [] => evaluated
    | .string, [] | .boolean, [] | .identifier, [] | .null, [] | .assignment, [] => true
    | .expression, [target, sign, value] =>
      target.isValue && sign.hasKind .assignment && value.isValue &&
        !(target.hasKind .identifier || target.hasKind .member || target.hasKind .index)
    | _, _ => false

mutual

/-- Whether every node of a tree has the children of its kind. -/
def shaped : Tree → Bool
  | .node kind text evaluated line children =>
    fits (.node kind text evaluated line children) && shapedAll children

def shapedAll : List Tree → Bool
  | [] => true
  | t :: ts => shaped t && shapedAll ts

end

theorem isOperand_of_isValue {t : Tree} (h : t.isValue = true) : t.isOperand = true := by
  unfold isValue at h
  unfold isOperand
  generalize t.kind = k at h
  cases k <;> first | rfl | cases h

theorem isStatement_of_isValue {t : Tree} (h : t.isValue = true) (hf : t.kind ≠ .function)
    (hc : t.kind ≠ .classLiteral) : t.kind.isStatement = true := by
  unfold isValue at h
  generalize t.kind = k at h hf hc
  cases k <;> first | contradiction | rfl

section Stable

/-- A node of a program is not grouped again. -/
theorem groupStep_of_fits {t : Tree} (h : t.fits = true) : groupStep t = ([t], false) := by
  cases t with
  | node kind text evaluated line children =>
    cases kind with
    | expression =>
      rcases children with _ | ⟨target, _ | ⟨sign, _ | ⟨value, _ | ⟨d, rest⟩⟩⟩⟩ <;>
        try { simp [fits] at h }
      simp only [fits, Bool.and_eq_true, Bool.not_eq_true', Bool.or_eq_false_iff] at h
      obtain ⟨⟨⟨-, hsign⟩, hvalue⟩, ⟨hidentifier, hmember⟩, hindex⟩ := h
      simp only [hasKind, decide_eq_true_eq, decide_eq_false_iff_not]
        at hsign hidentifier hmember hindex
      simp only [groupStep, kind_node, groupExpression, children_node, hasKind, hsign,
        isOperand_of_isValue hvalue, groupAssignment]
      split <;> simp_all
    | statement => simp [fits] at h
    | array =>
      rcases children with _ | ⟨a, _ | ⟨b, rest⟩⟩
      · rfl
      · rfl
      · simp [fits] at h
    | _ => rfl

/-- A node of a program is not structured again. -/
theorem structureStep_of_fits {t : Tree} (h : t.fits = true) : structureStep t = ([t], false) := by
  cases t with
  | node kind text evaluated line children =>
    cases kind with
    | expression =>
      rcases children with _ | ⟨target, _ | ⟨sign, _ | ⟨value, _ | ⟨d, rest⟩⟩⟩⟩ <;>
        try { simp [fits] at h }
      simp only [fits, Bool.and_eq_true] at h
      obtain ⟨⟨⟨htarget, -⟩, -⟩, -⟩ := h
      have hparen : target.hasKind .leftParen = false := by
        simp only [hasKind, decide_eq_false_iff_not]
        intro hk
        rw [isValue, hk] at htarget
        cases htarget
      simp [structureStep, hparen]
    | number =>
      rcases children with _ | ⟨d, rest⟩
      · simp only [fits] at h
        simp [structureStep, h]
      · simp [fits] at h
    | comma => simp [fits] at h
    | semicolon => simp [fits] at h
    | _ => rfl

variable {step : Step}

mutual

/-- A step that leaves the nodes of a program alone has nothing to do in a whole one. -/
theorem sweep_of_shaped (hstep : ∀ {t : Tree}, t.fits = true → step t = ([t], false)) :
    ∀ {t : Tree}, t.shaped = true → sweep step t = ([t], false)
  | .node kind text evaluated line children, h => by
    rw [shaped, Bool.and_eq_true] at h
    rw [sweep, sweepAll_of_shaped hstep h.2]
    dsimp only
    rw [hstep h.1]
    rfl

theorem sweepAll_of_shaped (hstep : ∀ {t : Tree}, t.fits = true → step t = ([t], false)) :
    ∀ {ts : List Tree}, shapedAll ts = true → sweepAll step ts = (ts, false)
  | [], _ => rfl
  | t :: ts, h => by
    rw [shapedAll, Bool.and_eq_true] at h
    rw [sweepAll, sweep_of_shaped hstep h.1, sweepAll_of_shaped hstep h.2]
    rfl

end

end Stable

section Nodes

mutual

/-- The number of nodes of a tree. -/
def nodes : Tree → Nat
  | .node _ _ _ _ children => nodesAll children + 1

def nodesAll : List Tree → Nat
  | [] => 0
  | t :: ts => nodes t + nodesAll ts

end

theorem nodes_pos (t : Tree) : 0 < t.nodes := by
  cases t
  rw [nodes]
  omega

theorem nodes_branch (k : Kind) (line : Nat) (ts : List Tree) :
    (branch k line ts).nodes = nodesAll ts + 1 := by
  rw [branch, nodes]

theorem nodes_le_of_mem {t : Tree} {ts : List Tree} (h : t ∈ ts) : t.nodes ≤ nodesAll ts := by
  induction ts with
  | nil => cases h
  | cons u ts ih =>
    rw [nodesAll]
    rcases List.mem_cons.mp h with rfl | h
    · omega
    · exact Nat.le_trans (ih h) (Nat.le_add_left _ _)

theorem length_le_nodesAll (ts : List Tree) : ts.length ≤ nodesAll ts := by
  induction ts with
  | nil => exact Nat.le_refl _
  | cons t ts ih =>
    have := t.nodes_pos
    rw [nodesAll, List.length_cons]
    omega

end Nodes

section Recognition

variable {line : Nat}

theorem hasKind_iff {t : Tree} {k : Kind} : t.hasKind k = true ↔ t.kind = k := by
  rw [hasKind, decide_eq_true_eq]

/-- The parts of a chain of index reads: the indices have values, and what they are applied to is no
index read itself. -/
theorem indexChain_spec : ∀ (t : Tree) (indices : List Tree), t.shaped = true → t.isValue = true →
    shapedAll indices = true → indices.all isValue = true →
    (t.kind = .index ∨ indices ≠ []) →
    (t.indexChain indices).1.shaped = true ∧ (t.indexChain indices).1.isValue = true ∧
      (t.indexChain indices).1.kind ≠ .index ∧ shapedAll (t.indexChain indices).2 = true ∧
      (t.indexChain indices).2.all isValue = true ∧ (t.indexChain indices).2 ≠ [] := by
  intro t indices
  fun_induction indexChain t indices with
  | case1 text evaluated line base index rest indices ih =>
    intro ht _ hindices hvalues _
    cases rest with
    | cons c rest => simp [shaped, fits] at ht
    | nil =>
      simp only [shaped, fits, shapedAll, Bool.and_eq_true, Bool.and_true] at ht
      -- the base has the next index, and this one is put before those there are
      obtain ⟨⟨hbase, hindex⟩, hb, hi⟩ := ht
      refine ih hb hbase ?_ ?_ (Or.inr (List.cons_ne_nil _ _))
      · rw [shapedAll, hi, hindices]
        rfl
      · rw [List.all_cons, hindex, hvalues]
        rfl
  | case2 t indices hne =>
    intro ht hv hindices hvalues hor
    -- a value of the shape of an index read would have a base
    have hkind : t.kind ≠ .index := by
      intro hk
      obtain ⟨k, x, e, l, children⟩ := t
      simp only [kind_node] at hk
      subst hk
      rcases children with _ | ⟨base, _ | ⟨index, rest⟩⟩
      · simp [shaped, fits] at ht
      · simp [shaped, fits] at ht
      · exact hne x e l base index rest rfl
    exact ⟨ht, hv, hkind, hindices, hvalues, hor.resolve_left hkind⟩

theorem groupAssignment_eq {t u : Tree} {x : String} {l : Nat} :
    (groupAssignment (.node .expression "" false line [t, .leaf .assignment x l, u]) t u).1 =
      [assignmentOf line t (.leaf .assignment x l) u] := by
  unfold groupAssignment assignmentOf
  generalize t.kind = k
  cases k <;> rfl

theorem groupStep_three {t u : Tree} {k : Kind} {x : String} {l : Nat} (ht : t.isValue = true)
    (hu : u.isValue = true) (hk : k = .operator ∨ k = .comparator ∨ k = .assignment) :
    (groupStep (.node .expression "" false line [t, .leaf k x l, u])).1 =
      [expressionOf line [t, .leaf k x l, u]] := by
  have ht' := isOperand_of_isValue ht
  have hu' := isOperand_of_isValue hu
  rcases hk with rfl | rfl | rfl
  · simp [groupStep, groupExpression, hasKind, ht', hu', expressionOf, regroup]
  · simp [groupStep, groupExpression, hasKind, ht', hu', expressionOf, regroup]
  · simp [groupStep, groupExpression, hasKind, hu', expressionOf, groupAssignment_eq]

theorem shaped_assignmentOf {t u : Tree} {x : String} {l : Nat} (ht : t.shaped = true)
    (hu : u.shaped = true) (htv : t.isValue = true) (huv : u.isValue = true) :
    (assignmentOf line t (.leaf .assignment x l) u).shaped = true ∧
      (assignmentOf line t (.leaf .assignment x l) u).isValue = true := by
  unfold assignmentOf
  split
  · rename_i hk
    exact ⟨by simp [shaped, fits, shapedAll, hasKind, hk, ht, hu, huv], rfl⟩
  · rename_i hk
    exact ⟨by simp [shaped, fits, shapedAll, hasKind, hk, ht, hu, huv], rfl⟩
  · rename_i hk
    obtain ⟨hb, hbv, hbk, hi, hiv, hne⟩ :=
      indexChain_spec t [] ht htv rfl rfl (Or.inl hk)
    refine ⟨?_, rfl⟩
    simp only [shaped, fits, shapedAll, hb, hbv, hi, hiv, hu, huv, hasKind, kind_node, children_node,
      Bool.and_true, Bool.and_eq_true, decide_true, Bool.not_eq_true', decide_eq_false_iff_not,
      List.isEmpty_eq_false_iff, Bool.true_and]
    exact ⟨hbk, hne⟩
  · refine ⟨?_, rfl⟩
    simp_all [shaped, fits, shapedAll, hasKind, leaf]

theorem shaped_three {t u : Tree} {k : Kind} {x : String} {l : Nat} (ht : t.shaped = true)
    (hu : u.shaped = true) (htv : t.isValue = true) (huv : u.isValue = true)
    (hk : k = .operator ∨ k = .comparator ∨ k = .assignment) :
    (expressionOf line [t, .leaf k x l, u]).shaped = true ∧
      (expressionOf line [t, .leaf k x l, u]).isValue = true := by
  rcases hk with rfl | rfl | rfl
  · simp [expressionOf, shaped, fits, shapedAll, ht, hu, htv, huv]
    rfl
  · simp [expressionOf, shaped, fits, shapedAll, ht, hu, htv, huv]
    rfl
  · exact shaped_assignmentOf ht hu htv huv

theorem line_three {t u : Tree} {k : Kind} {x : String} {l : Nat}
    (hk : k = .operator ∨ k = .comparator ∨ k = .assignment) :
    (expressionOf line [t, .leaf k x l, u]).line = line := by
  rcases hk with rfl | rfl | rfl
  · rfl
  · rfl
  · simp only [expressionOf, kind_leaf]
    unfold assignmentOf
    split <;> rfl

theorem statementOf_only {t : Tree} (h : t.isValue = true) :
    (groupStep (.node .statement "" false line [t])).1 = [statementOf line [t]] := by
  have h' := isOperand_of_isValue h
  simp only [groupStep, kind_node, groupStatement, children_node, hasKind, h', statementOf]
  by_cases hf : t.kind = .function
  · simp [hf, regroup]
  by_cases hc : t.kind = .classLiteral
  · simp [hc, regroup]
  · simp [hf, hc]

theorem shaped_statementOf_only {t : Tree} (h : t.shaped = true) (hv : t.isValue = true) :
    (statementOf line [t]).shaped = true ∧ (statementOf line [t]).kind.isStatement = true := by
  simp only [statementOf]
  split
  · rename_i hk
    exact ⟨by simp [shaped, fits, shapedAll, hasKind, hk, h], rfl⟩
  · rename_i hk
    exact ⟨by simp [shaped, fits, shapedAll, hasKind, hk, h], rfl⟩
  · rename_i hf hc
    exact ⟨h, isStatement_of_isValue hv hf hc⟩

end Recognition

end Tree

end ScriptKit
