import ScriptKit.Evaluation.Evaluate

namespace ScriptKit

/-- The end of a computation with all that has happened until then. -/
structure Account (α : Type) where
  events : List Event
  outcome : Outcome α
  machine : Machine

/-- A computation on a machine that gives an account of itself. -/
def Told (α : Type) : Type := Machine → Account α

namespace Told

variable {α β : Type}

def ret (a : α) : Told α := fun m => ⟨[], .value a, m⟩

def andThen (x : Told α) (f : α → Told β) : Told β := fun m =>
  match x m with
  | ⟨es, .value a, m⟩ => ⟨es ++ (f a m).events, (f a m).outcome, (f a m).machine⟩
  | ⟨es, .failure e, m⟩ => ⟨es, .failure e, m⟩
  | ⟨es, .stopped s, m⟩ => ⟨es, .stopped s, m⟩

/-- A computation in which nothing happens. -/
def plain (x : Eval α) : Told α := fun m => ⟨[], (x m).1, (x m).2⟩

def telling (event : Machine → Event) (x : Eval α) : Told α := fun m =>
  ⟨[event m], (x m).1, (x m).2⟩

def undoing (undo : Machine → Machine) (x : Told α) : Told α := fun m =>
  match x m with
  | ⟨es, .failure e, m⟩ => ⟨es, .failure e, undo m⟩
  | other => other

def leaving (frame : Frame) (t : Tree) (x : Told α) : Told α := fun m =>
  match x m with
  | ⟨es, .failure e, m⟩ =>
    ⟨es ++ [.failed frame t], .failure (e.locate ⟨frame.file.name, t.line⟩), m⟩
  | other => other

instance : MonadMachine Told where
  pure := ret
  bind := andThen
  act := plain
  telling := telling
  undoing := undoing
  leaving := leaving

end Told

/-- The evaluation of a node with an account of what happens in it. -/
def tell (host : Host) (fuel : Nat) : Evaluator Told :=
  Evaluator.fueled Told host fuel

end ScriptKit
