import ScriptKit.Arena.Shape

namespace ScriptKit.Arena

/-- A step on one node: the arena after it, and whether anything changed. -/
abbrev Step := Arena → NodeId → Arena × Bool

/-- Applies a step to every node below an id except the root, children first. The children are
those that a node has when the walk comes to it. -/
def sweep (step : Step) : Nat → Arena × Bool → NodeId → Arena × Bool
  | 0, s, _ => s
  | fuel + 1, s, id =>
    match (s.1.children id).foldl (sweep step fuel) s with
    | (a, before) =>
      if id = root then (a, before)
      else
        let (a, changed) := step a id
        (a, before || changed)

/-- Repeats sweeps over the whole program until one changes nothing. -/
def settle (step : Step) : Nat → Arena → Arena
  | 0, a => a
  | fuel + 1, a =>
    match sweep step (a.size + 1) (a, false) root with
    | (a, true) => settle step fuel a
    | (a, false) => a

/-- More sweeps than a settling needs: each but the last reads a number, drops or regroups a
node. -/
def sweepsNeeded (a : Arena) : Nat :=
  8 * (a.size + 1)

/-- Puts a new node with the given children in the place of a node, on the same line. -/
def regroup (a : Arena) (id : NodeId) (kind : Tree.Kind) (text : String) (children : List NodeId) :
    Arena × Bool :=
  let new := a.size
  let a := ((a.add kind text (a.line id)).setChildren new children).replace id new
  (a, true)

/-- Operands with operators between them, at least two operators. -/
def isOperatorChain (a : Arena) (ids : List NodeId) : Bool :=
  5 ≤ ids.length && ids.length % 2 = 1 &&
    ids.zipIdx.all fun (c, i) => a.hasKind c .operator = (i % 2 = 1)

/-- Makes an expression of the first operand, operator and operand of a chain. -/
def associateLeft (a : Arena) (id : NodeId) (ids : List NodeId) : Arena :=
  let head := a.size
  let line := (ids.head?.map a.line).getD 0
  let a := (a.add .expression "" line).setChildren head (ids.take 3)
  a.setChildren id (head :: ids.drop 3)

/-- Strips wrappers and punctuation: numbers are evaluated, commas and semicolons removed,
expressions of one part or in parentheses collapsed, and chains associated to the left. -/
def structureStep : Step := fun a id =>
  match a.node? id with
  | none => (a, false)
  | some n =>
    match n.kind, n.children with
    | .number, _ =>
      if n.evaluated then (a, false) else (a.update id fun n => { n with evaluated := true }, true)
    | .comma, _ | .semicolon, _ => (a.detach id, true)
    | .expression, [only] => (a.replace id only, true)
    | .expression, ids =>
      match ids with
      | [l, inner, r] =>
        if a.hasKind l .leftParen && a.hasKind r .rightParen then (a.replace id inner, true)
        else (a, false)
      | _ => if a.isOperatorChain ids then (a.associateLeft id ids, true) else (a, false)
    | _, _ => (a, false)

def isOperand (a : Arena) (id : NodeId) : Bool :=
  (a.kind? id).any Tree.Kind.isOperand

def isKeyword (a : Arena) (id : NodeId) (word : String) : Bool :=
  a.hasKind id .keyword && a.text id = word

/-- Whether nodes have the given kinds, one by one. -/
def haveKinds (a : Arena) (ids : List NodeId) (kinds : List Tree.Kind) : Bool :=
  ids.length = kinds.length && (ids.zip kinds).all fun (c, k) => a.hasKind c k

/-- The indices of a chain of index reads in source order, and the node they are applied to. -/
def indexChain (a : Arena) : Nat → NodeId → List NodeId → NodeId × List NodeId
  | 0, base, indices => (base, indices)
  | fuel + 1, base, indices =>
    match a.hasKind base .index, a.left? base, a.right? base with
    | true, some l, some r => a.indexChain fuel l (r :: indices)
    | _, _, _ => (base, indices)

/-- An assignment to a name or member stays one node; an assignment to an index chain becomes a
write with the list of its indices. -/
def groupAssignment (a : Arena) (id target value : NodeId) : Arena × Bool :=
  match a.kind? target with
  | some .identifier | some .member => a.regroup id .assign "" [target, value]
  | some .index =>
    let (base, indices) := a.indexChain a.size target []
    let list := a.size
    let a := (a.add .expressionList "" (a.line target)).setChildren list indices
    a.regroup id .indexWrite "" [base, list, value]
  | _ => (a, false)

/-- Whether a chain of index reads comes to one that lacks its base or its index. -/
def chainFails (a : Arena) : Nat → NodeId → Bool
  | 0, _ => false
  | fuel + 1, base =>
    a.hasKind base .index &&
      match a.left? base, a.right? base with
      | some l, some _ => a.chainFails fuel l
      | _, _ => true

/-- Whether a node is an assignment that cannot be grouped, since an index of its target is
missing. -/
def groupFails (a : Arena) (id : NodeId) : Bool :=
  a.hasKind id .expression &&
    match a.children id with
    | [target, mid, value] =>
      a.hasKind mid .assignment && a.isOperand value && a.chainFails a.size target
    | _ => false

/-- Recognises the kind of an expression by its parts. -/
def groupExpression (a : Arena) (id : NodeId) : Arena × Bool :=
  match a.children id with
  | [l, mid, r] =>
    if a.hasKind mid .operator && a.isOperand l && a.isOperand r then
      a.regroup id .binary (a.text mid) [l, r]
    else if a.hasKind mid .comparator && a.isOperand l && a.isOperand r then
      a.regroup id .comparison (a.text mid) [l, r]
    else if a.hasKind mid .assignment && a.isOperand r then a.groupAssignment id l r
    else if a.hasKind mid .dot && a.isOperand l && a.hasKind r .identifier then
      a.regroup id .member "" [l, r]
    else (a, false)
  | [target, l, inner, r] =>
    if a.isOperand target &&
        a.haveKinds [l, inner, r] [.leftParen, .expressionList, .rightParen] then
      a.regroup id .call "" [target, inner]
    else if a.isOperand target && a.hasKind l .leftBracket && a.hasKind r .rightBracket &&
        a.isOperand inner then
      a.regroup id .index "" [target, inner]
    else (a, false)
  | [word, name, l, body, r] =>
    if a.isKeyword word "class" &&
        a.haveKinds [name, l, body, r] [.identifier, .leftCurly, .block, .rightCurly] then
      a.regroup id .classLiteral (a.text name) [body]
    else (a, false)
  | [word, lp, params, rp, lc, body, rc] =>
    if a.isKeyword word "func" && a.haveKinds [lp, params, rp, lc, body, rc]
        [.leftParen, .argumentList, .rightParen, .leftCurly, .block, .rightCurly] then
      a.regroup id .function "" [params, body]
    else (a, false)
  | [word, name, lp, params, rp, lc, body, rc] =>
    if a.isKeyword word "func" && a.hasKind name .identifier &&
        a.haveKinds [lp, params, rp, lc, body, rc]
          [.leftParen, .argumentList, .rightParen, .leftCurly, .block, .rightCurly] then
      a.regroup id .function (a.text name) [params, body]
    else (a, false)
  | _ => (a, false)

/-- Whether the parts after a keyword are a condition in parentheses and a block in braces. -/
def isConditional (a : Arena) (lp test rp lc body rc : NodeId) : Bool :=
  a.haveKinds [lp, rp, lc, body, rc] [.leftParen, .rightParen, .leftCurly, .block, .rightCurly] &&
    a.isOperand test

/-- Recognises the kind of a statement by its parts. -/
def groupStatement (a : Arena) (id : NodeId) : Arena × Bool :=
  match a.children id with
  | [] => (a.detach id, true)
  | [word, name, eq, value] =>
    if a.isKeyword word "let" && a.haveKinds [name, eq] [.identifier, .assignment] &&
        a.isOperand value then
      a.regroup id .initialisation "" [name, value]
    else (a, false)
  | [word, name] =>
    if a.isKeyword word "let" && a.hasKind name .identifier then
      a.regroup id .declaration "" [name]
    else (a, false)
  | word :: lp :: test :: rp :: lc :: body :: rc :: rest =>
    if a.isKeyword word "if" then
      if !a.isConditional lp test rp lc body rc then (a, false)
      else match rest with
        | [] => a.regroup id .ifStatement "" [test, body]
        | [other, next] =>
          if a.isKeyword other "else" && a.hasKind next .ifStatement then
            a.regroup id .ifStatement "" [test, body, next]
          else (a, false)
        | [other, l, block, r] =>
          if a.isKeyword other "else" &&
              a.haveKinds [l, block, r] [.leftCurly, .block, .rightCurly] then
            a.regroup id .ifStatement "" [test, body, block]
          else (a, false)
        | _ => (a, false)
    else if rest.isEmpty && a.isKeyword word "while" && a.isConditional lp test rp lc body rc then
      a.regroup id .whileStatement "" [test, body]
    else (a, false)
  | [only] =>
    if a.hasKind only .function then a.regroup id .functionDefinition "" [only]
    else if a.hasKind only .classLiteral then a.regroup id .classDefinition "" [only]
    else if a.isOperand only then (a.replace id only, true)
    else (a, false)
  | _ => (a, false)

/-- Replaces fixed sequences of parts by nodes of the kind they make up. -/
def groupStep : Step := fun a id =>
  match a.kind? id with
  | some .expression => a.groupExpression id
  | some .statement => a.groupStatement id
  | some .array =>
    match a.children id with
    | [l, list, _] =>
      if a.hasKind l .leftBracket && a.hasKind list .expressionList then
        (a.setChildren id [list], true)
      else (a, false)
    | _ => (a, false)
  | _ => (a, false)

def structured (a : Arena) : Arena :=
  a.settle structureStep a.sweepsNeeded

/-- The program in the shapes that are evaluated. -/
def normalised (a : Arena) : Arena :=
  let a := a.structured
  a.settle groupStep a.sweepsNeeded

/-- A step, and the nodes at which it fails. -/
structure Pass where
  step : Step
  fails : Arena → NodeId → Bool

def structurePass : Pass := ⟨structureStep, fun _ _ => false⟩

def groupPass : Pass := ⟨groupStep, groupFails⟩

/-- Does a step on a node, unless it is the root or the step fails there. -/
def visit? (pass : Pass) (s : Arena × Bool) (id : NodeId) : Option (Arena × Bool) :=
  if id = root then some s
  else if pass.fails s.1 id then none
  else
    let (a, changed) := pass.step s.1 id
    some (a, s.2 || changed)

/-- Sweeps over the nodes below an id. There is no result if the step fails at a node, or if the
nodes are deeper than the fuel. -/
def sweep? (pass : Pass) : Nat → Arena × Bool → NodeId → Option (Arena × Bool)
  | 0, _, _ => none
  | fuel + 1, s, id =>
    ((s.1.children id).foldlM (sweep? pass fuel) s).bind fun s => visit? pass s id

/-- Repeats sweeps until one changes nothing. There is no result if a sweep has none, or if there is
no end within the fuel. -/
def settle? (pass : Pass) : Nat → Arena → Option Arena
  | 0, _ => none
  | fuel + 1, a =>
    match sweep? pass (a.size + 1) (a, false) root with
    | none => none
    | some (a, true) => settle? pass fuel a
    | some (a, false) => some a

/-- The program in the shapes that are evaluated, if it can be brought into them. -/
def normalised? (a : Arena) : Option Arena :=
  (a.settle? structurePass a.sweepsNeeded).bind fun a => a.settle? groupPass a.sweepsNeeded

end ScriptKit.Arena
