import ScriptKit.Evaluation.Call

namespace ScriptKit

namespace Evaluator

open MonadMachine (act telling leaving)

/-- The names of the parameters of a function literal. -/
def parameters (literal : Tree) : List String :=
  match literal.child? 0 with
  | none => []
  | some list => list.children.map Tree.text

/-- The statements of a function or class literal. -/
def body (literal : Tree) : List Tree :=
  (literal.children.getLast?).elim [] Tree.children

def function (frame : Frame) (literal : Tree) : Function :=
  ⟨literal.text, parameters literal, body literal, frame.file, some frame.scope⟩

def classOf (frame : Frame) (literal : Tree) : Class :=
  ⟨literal.text, body literal, frame.file, some frame.scope⟩

/-- What a part that is missing would look like: nothing can be read from it. -/
def missing : Tree := .branch .temporary 0 []

def childOr (t : Tree) (i : Nat) : Tree := (t.child? i).getD missing

variable {M : Type → Type} [MonadMachine M]

/-- The scope of the object that a member is read from or written to, and the name of the member.
Without a scope of its own an object has no members. -/
@[specialize]
def member (ev : Evaluator M) (frame : Frame) (t : Tree) : M (ScopeId × String) := do
  let name := (childOr t 1).text
  match ← ev frame (t.child? 0) with
  | .object id =>
    match ← act (Eval.query fun s => (s.objects[id]?).bind (·.scope)) with
    | some scope => return (scope, name)
    | none => act (Eval.raise (.noMembers name .object))
  | v => act (Eval.raise (.noMembers name v.kind))

/-- Evaluates the parts of a node and does what its kind says. -/
@[specialize]
def node (ev : Evaluator M) (host : Host) (rounds : Nat) (frame : Frame) (t : Tree) :
    M Value := do
  let part (i : Nat) : M Value := ev frame (t.child? i)
  let items (i : Nat) : M (List Value) := ev.each frame (childOr t i).children
  match t.kind with
  | .initialisation => do
    let v ← part 1
    act (declare frame.scope (childOr t 0).text v)
  | .declaration => act (declare frame.scope (childOr t 0).text .null)
  | .assign => do
    let v ← part 1
    let target := childOr t 0
    match target.kind with
    | .identifier => act (Eval.bindIn (fun s => s.writtenIn frame.scope target.text) target.text v)
    | .member => do
      let (scope, name) ← ev.member frame target
      telling (fun _ => .written scope name) (Eval.bindIn (fun s => s.setIn scope name) name v)
    | k => act (Eval.raise (.cannotAssign k))
  | .indexWrite => do
    let indices ← items 1
    let v ← part 2
    let base ← part 0
    match indices with
    | [] => return v
    | i :: rest =>
      act (Eval.attempt (fun s => s.innerCell base i rest) fun (id, k) s =>
        (v, s.setElement id k v))
  | .binary => do
    let l ← part 0
    let r ← part 1
    act (operate t.text l r)
  | .comparison => do
    let l ← part 0
    let r ← part 1
    act do Eval.ofExcept (← Eval.query fun s => s.compare t.text l r)
  | .functionDefinition => act do
    let literal := childOr t 0
    if literal.text = "" then return .null
    let f ← Eval.allocate fun s => s.newFunction (function frame literal)
    declare frame.scope literal.text f
  | .classDefinition => act do
    let literal := childOr t 0
    let c ← Eval.allocate fun s => s.newClass (classOf frame literal)
    declare frame.scope literal.text c
  | .call => do
    let arguments ← items 1
    ev.callNode host frame (t.child? 0) arguments
  | .member => do
    let (scope, name) ← ev.member frame t
    act do return (← Eval.query fun s => s.get? scope name).getD .null
  | .index => do
    let target ← part 0
    let i ← part 1
    act do Eval.ofExcept (← Eval.query fun s => s.index target i)
  | .whileStatement => ev.loop frame (t.child? 0) (childOr t 1).children rounds .null
  | .ifStatement => do
    if (← part 0).truthy then ev.innerBlock frame (childOr t 1).children
    else
      match t.child? 2 with
      | some other =>
        if other.kind = .ifStatement || other.kind = .block then ev frame (some other)
        else return .null
      | none => return .null
  | .block => ev.innerBlock frame t.children
  | .number => return .number (Number.literalValue t.text)
  | .string => return .string t.text
  | .boolean => return .boolean (t.text = "true")
  | .null => return .null
  | .identifier => act do Eval.ofExcept (← Eval.query fun s => s.read frame.scope t.text)
  | .array => do
    let vs ← items 0
    act (Eval.allocate fun s => s.newArray vs.toArray)
  | .function => act (Eval.allocate fun s => s.newFunction (function frame t))
  | .classLiteral => act (Eval.allocate fun s => s.newClass (classOf frame t))
  | k => act (Eval.raise (.cannotEvaluate k))

/-- Evaluates a node. A fault is located at the innermost node it arises in. A node that is not
there has the value null. -/
@[specialize]
def visit (ev : Evaluator M) (host : Host) (rounds : Nat) : Evaluator M
  | _, none => pure .null
  | frame, some t => leaving frame t (ev.node host rounds frame t)

/-- Evaluates nodes with evaluations nested as deep, and loops as long, as the fuel allows. -/
@[specialize]
def fueled (M : Type → Type) [MonadMachine M] (host : Host) : Nat → Evaluator M
  | 0 => fun _ _ => act (Eval.stop .exhausted)
  | fuel + 1 => (fueled M host fuel).visit host fuel

end Evaluator

def evaluate (host : Host) (fuel : Nat) : Evaluator Eval :=
  Evaluator.fueled Eval host fuel

/-- Runs programs one after the other at top level. -/
def runPrograms (host : Host) (fuel : Nat) (programs : List Program) : Eval Value :=
  (evaluate host fuel).programs .null programs

end ScriptKit
