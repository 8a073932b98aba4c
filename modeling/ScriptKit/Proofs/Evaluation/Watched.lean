import ScriptKit.Evaluation.Evaluate

namespace ScriptKit

/-- What can be seen of a run: a node is about to be evaluated, or has been. -/
inductive Moment
  | call (frame : Frame) (node : Option Tree) (m : Machine)
  | done (frame : Frame) (node : Option Tree) (outcome : Outcome Value) (m : Machine)

namespace Eval

variable {α : Type}

/-- A computation that gives its outcome, also if that is a failure. -/
def settled (x : Eval α) : Eval (Outcome α) := fun m =>
  match x m with
  | (.stopped s, m) => (.stopped s, m)
  | (outcome, m) => (.value outcome, m)

def give (outcome : Outcome α) : Eval α := fun m => (outcome, m)

/-- Ends the run at a moment to stop at, as if the fuel had run out. -/
def stopping (stop : Moment → Bool) (moment : Machine → Moment) : Eval Unit := fun m =>
  if stop (moment m) then (.stopped .exhausted, m) else (.value (), m)

end Eval

namespace Evaluator

def upTo (ev : Evaluator Eval) (stop : Moment → Bool) : Evaluator Eval := fun frame node => do
  Eval.stopping stop (.call frame node)
  let outcome ← Eval.settled (ev frame node)
  Eval.stopping stop (.done frame node outcome)
  Eval.give outcome

/-- Runs lists of programs one after the other, each also if one before it has failed. -/
def calls (ev : Evaluator Eval) : List (List Program) → Eval (List (Outcome Value))
  | [] => pure []
  | ps :: rest => do
    let outcome ← Eval.settled (ev.programs .null ps)
    let outcomes ← ev.calls rest
    return outcome :: outcomes

theorem upTo_never (ev : Evaluator Eval) : ev.upTo (fun _ => false) = ev := by
  funext frame node m
  simp only [upTo, Bind.bind, Eval.andThen, Eval.stopping, Eval.settled, Eval.give,
    Bool.false_eq_true, if_false]
  rcases ev frame node m with ⟨_ | _ | _, m'⟩ <;> rfl

end Evaluator

/-- An evaluation as it is up to the first moment to stop at, in the program or in anything that it
calls, imports or evaluates. -/
def evaluateUpTo (stop : Moment → Bool) (host : Host) : Nat → Evaluator Eval
  | 0 => fun _ _ => Eval.stop .exhausted
  | fuel + 1 => ((evaluateUpTo stop host fuel).visit host fuel).upTo stop

/-- A run that is never stopped is the run itself. -/
theorem evaluateUpTo_never (host : Host) (fuel : Nat) :
    evaluateUpTo (fun _ => false) host fuel = evaluate host fuel := by
  induction fuel with
  | zero => rfl
  | succ fuel ih => rw [evaluateUpTo, Evaluator.upTo_never, ih]; rfl

end ScriptKit
