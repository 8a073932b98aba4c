import ScriptKit.Proofs.Evaluation.Told

namespace ScriptKit

open MonadMachine (act)

namespace Told

variable {α β : Type}

/-- A computation without its account. -/
def bare (y : Told α) : Eval α := fun m => ((y m).outcome, (y m).machine)

@[simp] theorem bare_pure (a : α) : (pure a : Told α).bare = pure a := rfl

@[simp] theorem bare_act (x : Eval α) : (act x : Told α).bare = act x := rfl

@[simp] theorem bare_telling (event : Machine → Event) (x : Eval α) :
    (MonadMachine.telling event x : Told α).bare = MonadMachine.telling event x := rfl

@[simp] theorem bare_bind (y : Told α) (f : α → Told β) :
    (y >>= f).bare = y.bare >>= fun a => (f a).bare := by
  funext m
  simp only [bare, Bind.bind, andThen, Eval.andThen]
  rcases y m with ⟨es, _ | _ | _, m₁⟩ <;> rfl

theorem bare_bind_congr {y : Told α} {x : Eval α} {f : α → Told β} {g : α → Eval β}
    (h : y.bare = x) (hf : ∀ a, (f a).bare = g a) : (y >>= f).bare = x >>= g := by
  rw [bare_bind, h, funext hf]

@[simp] theorem bare_undoing (undo : Machine → Machine) (y : Told α) :
    (MonadMachine.undoing undo y).bare = MonadMachine.undoing undo y.bare := by
  funext m
  simp only [bare, MonadMachine.undoing, undoing, Eval.undoing]
  rcases y m with ⟨es, _ | _ | _, m₁⟩ <;> rfl

@[simp] theorem bare_leaving (frame : Frame) (t : Tree) (y : Told α) :
    (MonadMachine.leaving frame t y).bare = MonadMachine.leaving frame t y.bare := by
  funext m
  simp only [bare, MonadMachine.leaving, leaving, Eval.locating]
  rcases y m with ⟨es, _ | _ | _, m₁⟩ <;> rfl

theorem bind_assoc {γ : Type} (y : Told α) (f : α → Told β) (g : β → Told γ) :
    y >>= f >>= g = y >>= fun a => f a >>= g := by
  funext m
  simp only [Bind.bind, andThen]
  rcases y m with ⟨es, a | e | _, m₁⟩
  · rcases hf : f a m₁ with ⟨es', b | e | _, m₂⟩
    · simp only [hf, List.append_assoc]
    · simp only [hf]
    · simp only [hf]
  · rfl
  · rfl

end Told

@[simp] theorem Eval.pure_bind {α β : Type} (a : α) (f : α → Eval β) :
    (pure a : Eval α) >>= f = f a := rfl

namespace Evaluator

variable (ev : Evaluator Told) (host : Host) (frame : Frame)

/-- The evaluator that does the same without an account. -/
def bare : Evaluator Eval := fun frame node => (ev frame node).bare

@[simp] theorem bare_each (ts : List Tree) : (ev.each frame ts).bare = ev.bare.each frame ts := by
  induction ts with
  | nil => rfl
  | cons t ts ih => simp [each, ih, bare]

@[simp] theorem bare_statements : ∀ (last : Value) ts,
    (ev.statements frame last ts).bare = ev.bare.statements frame last ts
  | _, [] => rfl
  | _, t :: ts => by
    have hts := fun v => bare_statements v ts
    simp [statements, hts, bare]

@[simp] theorem bare_block (ts : List Tree) :
    (ev.block frame ts).bare = ev.bare.block frame ts :=
  ev.bare_statements frame .null ts

@[simp] theorem bare_innerBlock (ts : List Tree) :
    (ev.innerBlock frame ts).bare = ev.bare.innerBlock frame ts := by
  simp [innerBlock]

@[simp] theorem bare_loop (test : Option Tree) (ts : List Tree) : ∀ (rounds : Nat) (last : Value),
    (ev.loop frame test ts rounds last).bare = ev.bare.loop frame test ts rounds last
  | 0, _ => rfl
  | rounds + 1, last => by
    have hrest := fun v => bare_loop test ts rounds v
    refine Told.bare_bind_congr rfl fun v => ?_
    split <;> simp [hrest]

@[simp] theorem bare_program (p : Program) (scope : ScopeId) :
    (ev.program p scope).bare = ev.bare.program p scope := by
  unfold program
  split
  · rfl
  · cases p.tree.child? 0 <;> simp

@[simp] theorem bare_recorded (byRequire : Bool) (p : Program) (path : String) :
    (ev.recorded byRequire p path).bare = ev.bare.recorded byRequire p path := by
  simp [recorded]

@[simp] theorem bare_programs : ∀ (last : Value) ps,
    (ev.programs last ps).bare = ev.bare.programs last ps
  | _, [] => rfl
  | _, p :: ps => by
    have hps := fun v => bare_programs v ps
    unfold programs
    split <;> simp [hps]

@[simp] theorem bare_importModule (directory target : String) (cached : Bool) :
    (ev.importModule host directory target cached).bare =
      ev.bare.importModule host directory target cached := by
  unfold importModule
  cases host.loader with
  | none => rfl
  | some loader =>
    dsimp only
    refine Told.bare_bind_congr rfl fun ⟨resolved, entries⟩ => ?_
    cases resolved with
    | error e => simp
    | ok path =>
      refine Told.bare_bind_congr rfl fun _ => Told.bare_bind_congr rfl fun session => ?_
      cases (if cached then session.value? path else none) with
      | some v => simp
      | none =>
        refine Told.bare_bind_congr rfl fun file => ?_
        cases file <;> simp

@[simp] theorem bare_evalText (text : String) :
    (ev.evalText host frame text).bare = ev.bare.evalText host frame text := by
  simp [evalText]

@[simp] theorem bare_callIn (f : Function) (vs : List Value) (scope : ScopeId) :
    (ev.callIn f vs scope).bare = ev.bare.callIn f vs scope := by
  unfold callIn
  split <;> simp

@[simp] theorem bare_callFunction (f : Function) (vs : List Value) :
    (ev.callFunction f vs).bare = ev.bare.callFunction f vs := by
  simp [callFunction]

@[simp] theorem bare_callConstructor (c : Class) (vs : List Value) (scope : ScopeId) :
    (ev.callConstructor c vs scope).bare = ev.bare.callConstructor c vs scope := by
  unfold callConstructor
  refine Told.bare_bind_congr rfl fun found => ?_
  rcases found with _ | v
  · rfl
  cases v with
  | function id =>
    dsimp only
    refine Told.bare_bind_congr rfl fun f => ?_
    cases f <;> simp
  | _ => rfl

@[simp] theorem bare_construct (id : ClassId) (c : Class) (vs : List Value) :
    (ev.construct id c vs).bare = ev.bare.construct id c vs := by
  simp [construct]

@[simp] theorem bare_builtin (b : Builtin) (vs : List Value) :
    (ev.builtin host frame b vs).bare = ev.bare.builtin host frame b vs := by
  unfold builtin
  split
  case h_16 | h_17 | h_18 => simp
  case h_11 | h_12 => split <;> rfl
  case h_19 =>
    split
    · refine Told.bare_bind_congr rfl fun c => ?_
      cases c <;> simp
    · rfl
  all_goals rfl

@[simp] theorem bare_callBuiltin (name : String) (vs : List Value) :
    (ev.callBuiltin host frame name vs).bare = ev.bare.callBuiltin host frame name vs := by
  unfold callBuiltin
  cases Builtin.ofName? name with
  | none => rfl
  | some b => dsimp only; split <;> simp

@[simp] theorem bare_callEscape (vs : List Value) :
    (ev.callEscape host frame vs).bare = ev.bare.callEscape host frame vs := by
  unfold callEscape
  split <;> simp

@[simp] theorem bare_callValue (callee : Value) (description : String) (vs : List Value) :
    (ev.callValue callee description vs).bare = ev.bare.callValue callee description vs := by
  cases callee with
  | function id =>
    unfold callValue
    dsimp only
    refine Told.bare_bind_congr rfl fun f => ?_
    cases f <;> simp
  | classValue id =>
    unfold callValue
    dsimp only
    refine Told.bare_bind_congr rfl fun c => ?_
    cases c <;> simp
  | _ => rfl

@[simp] theorem bare_callNode (callee : Option Tree) (vs : List Value) :
    (ev.callNode host frame callee vs).bare = ev.bare.callNode host frame callee vs := by
  have hcomputed : (ev frame callee >>= fun v => ev.callValue v v.kind.name vs).bare =
      ev.bare frame callee >>= fun v => ev.bare.callValue v v.kind.name vs := by
    simp [bare]
  unfold callNode
  dsimp only
  cases callee with
  | none => exact hcomputed
  | some t =>
    dsimp only
    split
    · exact hcomputed
    split
    · exact ev.bare_callEscape host frame vs
    refine Told.bare_bind_congr rfl fun found => ?_
    cases found with
    | some v => simp
    | none => dsimp only; split <;> simp

@[simp] theorem bare_member (t : Tree) :
    (ev.member frame t).bare = ev.bare.member frame t := by
  unfold member
  refine Told.bare_bind_congr rfl fun v => ?_
  cases v with
  | object id =>
    dsimp only
    refine Told.bare_bind_congr rfl fun scope => ?_
    cases scope <;> simp
  | _ => rfl

@[simp] theorem bare_node (rounds : Nat) (t : Tree) :
    (ev.node host rounds frame t).bare = ev.bare.node host rounds frame t := by
  have hpart (i : Nat) : (ev frame (t.child? i)).bare = ev.bare frame (t.child? i) := rfl
  -- the kinds of which only some parts are evaluated
  cases hk : t.kind
  case assign =>
    simp only [node, hk]
    refine Told.bare_bind_congr rfl fun v => ?_
    cases (childOr t 0).kind <;> simp
  case indexWrite =>
    simp only [node, hk]
    refine Told.bare_bind_congr (ev.bare_each frame _) fun indices => ?_
    cases indices <;> simp [hpart]
  case ifStatement =>
    simp only [node, hk]
    refine Told.bare_bind_congr rfl fun v => ?_
    split
    · exact ev.bare_innerBlock frame _
    cases t.child? 2 with
    | none => rfl
    | some other => dsimp only; split <;> rfl
  all_goals simp [node, hk, hpart]

theorem bare_visit (rounds : Nat) : (ev.visit host rounds).bare = ev.bare.visit host rounds := by
  funext frame node
  cases node with
  | none => rfl
  | some t => simp [bare, visit]

end Evaluator

/-- The evaluation with an account of what happens is the evaluation. -/
theorem bare_tell (host : Host) (fuel : Nat) : (tell host fuel).bare = evaluate host fuel := by
  induction fuel with
  | zero => rfl
  | succ fuel ih => exact ((tell host fuel).bare_visit host fuel).trans (by rw [ih]; rfl)

/-- The account of a run of programs. -/
theorem runPrograms_told {host : Host} {fuel : Nat} {ps : List Program} {m m' : Machine}
    {o : Outcome Value} (h : runPrograms host fuel ps m = (o, m')) :
    ((tell host fuel).programs .null ps m).outcome = o ∧
      ((tell host fuel).programs .null ps m).machine = m' := by
  have hbare := congrFun ((tell host fuel).bare_programs .null ps) m
  rw [bare_tell] at hbare
  exact Prod.mk.inj (hbare.trans h)

end ScriptKit
