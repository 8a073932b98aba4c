import ScriptKit.Evaluation.Event

namespace ScriptKit.Evaluator

open MonadMachine (act)

variable {M : Type → Type} [MonadMachine M]

/-- Evaluates nodes from left to right. -/
@[specialize]
def each (ev : Evaluator M) (frame : Frame) : List Tree → M (List Value)
  | [] => pure []
  | t :: ts => do
    let v ← ev frame (some t)
    let vs ← ev.each frame ts
    return v :: vs

/-- Runs statements one after the other. The value is that of the last one, or the given one if
there is none. -/
@[specialize]
def statements (ev : Evaluator M) (frame : Frame) (last : Value) : List Tree → M Value
  | [] => pure last
  | t :: ts => do
    let v ← ev frame (some t)
    ev.statements frame v ts

@[specialize]
def block (ev : Evaluator M) (frame : Frame) (body : List Tree) : M Value :=
  ev.statements frame .null body

/-- Runs a block in a new scope inside of that of the frame. -/
@[specialize]
def innerBlock (ev : Evaluator M) (frame : Frame) (body : List Tree) : M Value := do
  let scope ← act (Eval.allocate fun s => s.newScope (some frame.scope))
  ev.block { frame with scope := scope } body

/-- Runs a loop for at most the given number of rounds. -/
@[specialize]
def loop (ev : Evaluator M) (frame : Frame) (test : Option Tree) (body : List Tree) :
    Nat → Value → M Value
  | 0, _ => act (Eval.stop .exhausted)
  | rounds + 1, last => do
    let t ← ev frame test
    if t.truthy then
      let v ← ev.innerBlock frame body
      ev.loop frame test body rounds v
    else return last

end ScriptKit.Evaluator
