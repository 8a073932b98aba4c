import ScriptKit.Evaluation.Builtin
import ScriptKit.Evaluation.Machine

namespace ScriptKit

/-- Where a node is evaluated: the file it stands in and the scope it sees. -/
structure Frame where
  file : SourceFile
  scope : ScopeId

/-- What happens in a run, apart from what it changes. -/
inductive Event
  | called (b : Builtin) (arguments : List Value)
  /-- A member is written, in the scope of its object. -/
  | written (scope : ScopeId) (name : String)
  /-- A target is required from a directory. -/
  | required (directory target : String) (m : Machine)
  /-- The program of a path begins to run, because it is required or for another reason. The path
  has the given entry then. -/
  | began (path : String) (byRequire : Bool) (entry : Option Value)
  | completed (path : String) (p : Program) (v : Value)
  /-- A node is left with a failure. -/
  | failed (frame : Frame) (t : Tree)

/-- A monad that takes in computations on a machine, and may give an account of what happens. -/
class MonadMachine (M : Type → Type) extends Monad M where
  act {α : Type} (x : Eval α) : M α
  /-- A computation that is an event. -/
  telling {α : Type} (event : Machine → Event) (x : Eval α) : M α
  /-- A computation whose failure is followed by a change of the machine. -/
  undoing {α : Type} (undo : Machine → Machine) (x : M α) : M α
  /-- The work of a node. Its faults are given the place of the node. -/
  leaving {α : Type} (frame : Frame) (t : Tree) (x : M α) : M α

/-- A computation is run for itself, without an account. -/
instance : MonadMachine Eval where
  act x := x
  telling _ x := x
  undoing := Eval.undoing
  leaving frame t := Eval.locating ⟨frame.file.name, t.line⟩

/-- A way to evaluate a node, or what is asked for in the place of a node that is not there. -/
abbrev Evaluator (M : Type → Type) := Frame → Option Tree → M Value

end ScriptKit
