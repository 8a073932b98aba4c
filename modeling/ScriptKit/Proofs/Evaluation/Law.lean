import ScriptKit.Proofs.Evaluation.Telling
import ScriptKit.Proofs.Evaluation.Works

namespace ScriptKit

/-- Whether a built-in function runs the text of a program. -/
def Builtin.runsPrograms : Builtin → Bool
  | .require | .load | .eval => true
  | _ => false

/-- What is asked of a node: of the nodes that are evaluated in the scope of the node, of the
statements that run in scopes of their own, and that it may declare a name. -/
def Evaluator.Asks (here : Option Tree → Prop) (inside : List Tree → Prop) (declares : Prop)
    (t : Tree) : Prop :=
  match t.kind with
  | .initialisation => here (t.child? 1) ∧ declares
  | .declaration => declares
  | .assign => here (t.child? 1) ∧ ((childOr t 0).kind = .member → here ((childOr t 0).child? 0))
  | .indexWrite => (∀ u ∈ (childOr t 1).children, here (some u)) ∧ here (t.child? 2) ∧
    here (t.child? 0)
  | .binary | .comparison | .index => here (t.child? 0) ∧ here (t.child? 1)
  | .functionDefinition | .classDefinition => inside (body (childOr t 0)) ∧ declares
  | .call => (∀ u ∈ (childOr t 1).children, here (some u)) ∧ here (t.child? 0)
  | .member => here (t.child? 0)
  | .whileStatement => here (t.child? 0) ∧ inside (childOr t 1).children
  | .ifStatement => here (t.child? 0) ∧ inside (childOr t 1).children ∧
    ∀ u, t.child? 2 = some u → u.kind = .ifStatement ∨ u.kind = .block → here (some u)
  | .block => inside t.children
  | .array => ∀ u ∈ (childOr t 0).children, here (some u)
  | .function | .classLiteral => inside (body t)
  | _ => True

/-- It is enough that a sort of nodes takes in the children of its nodes. -/
theorem Evaluator.asks_of_children {here : Option Tree → Prop} {inside : List Tree → Prop}
    {declares : Prop} {P : Tree → Prop} (hP : ∀ t, P t → ∀ u ∈ t.children, P u)
    (hhere : ∀ node, (∀ u, node = some u → P u) → here node)
    (hinside : ∀ ts, (∀ u ∈ ts, P u) → inside ts) (hdeclares : declares) {t : Tree} (ht : P t) :
    Asks here inside declares t := by
  have hchild {t : Tree} (ht : P t) (i : Nat) : here (t.child? i) :=
    hhere _ fun u hu => hP t ht u (List.mem_of_getElem? hu)
  -- a child that is missing stands for a tree without children
  have hor {t : Tree} (ht : P t) (i : Nat) : P (childOr t i) ∨ childOr t i = missing := by
    unfold childOr
    cases hu : t.child? i with
    | none => exact Or.inr rfl
    | some u => exact Or.inl (hP t ht u (List.mem_of_getElem? hu))
  have hitems {t : Tree} (ht : P t) (i : Nat) : ∀ u ∈ (childOr t i).children, P u := by
    rcases hor ht i with h | h
    · exact hP _ h
    · rw [h]
      exact nofun
  have hbody {t : Tree} (ht : P t) : ∀ u ∈ body t, P u := by
    unfold body
    cases hlast : t.children.getLast? with
    | none => exact nofun
    | some b => exact hP b (hP t ht b (List.mem_of_getLast? hlast))
  have hliteral : ∀ u ∈ body (childOr t 0), P u := by
    rcases hor ht 0 with h | h
    · exact hbody h
    · rw [h]
      exact nofun
  have htarget : here ((childOr t 0).child? 0) := by
    rcases hor ht 0 with h | h
    · exact hchild h 0
    · rw [h]
      exact hhere _ nofun
  have hlist (i : Nat) : ∀ u ∈ (childOr t i).children, here (some u) := fun u hu =>
    hhere _ fun w hw => Option.some_inj.mp hw ▸ hitems ht i u hu
  unfold Asks
  cases t.kind
  case initialisation => exact ⟨hchild ht 1, hdeclares⟩
  case declaration => exact hdeclares
  case assign => exact ⟨hchild ht 1, fun _ => htarget⟩
  case indexWrite => exact ⟨hlist 1, hchild ht 2, hchild ht 0⟩
  case binary | comparison | index => exact ⟨hchild ht 0, hchild ht 1⟩
  case functionDefinition | classDefinition => exact ⟨hinside _ hliteral, hdeclares⟩
  case call => exact ⟨hlist 1, hchild ht 0⟩
  case member => exact hchild ht 0
  case whileStatement => exact ⟨hchild ht 0, hinside _ (hitems ht 1)⟩
  case ifStatement =>
    exact ⟨hchild ht 0, hinside _ (hitems ht 1), fun u hu _ => hu ▸ hchild ht 2⟩
  case block => exact hinside _ (hP t ht)
  case array => exact hlist 0
  case function | classLiteral => exact hinside _ (hbody ht)
  all_goals trivial

namespace Outcome

variable {α : Type}

/-- The end of a computation, whatever its value is. -/
def ending : Outcome α → Outcome Unit
  | value _ => value ()
  | failure e => failure e
  | stopped s => stopped s

theorem Raw.ending {o : Outcome α} (h : o.Raw) : o.ending.Raw := by
  cases o with
  | value a => trivial
  | failure e => cases e <;> exact h
  | stopped s => trivial

end Outcome

/-- What is asked of the nodes that are evaluated, and what a computation may do. It may have a
scope of its own, in which it declares names. -/
structure Law where
  node : Option ScopeId → Frame → Tree → Prop
  step : Option ScopeId → Machine → List Event → Outcome Unit → Machine → Prop

namespace Law

variable {α β : Type}

/-- Statements that can run in any scope that is their own. -/
def Body (L : Law) (file : SourceFile) (ts : List Tree) : Prop :=
  ∀ t ∈ ts, ∀ scope, L.node (some scope) ⟨file, scope⟩ t

/-- What is found in the place of a node. -/
def Allows (L : Law) (own : Option ScopeId) (frame : Frame) (node : Option Tree) : Prop :=
  ∀ t, node = some t → L.node own frame t

/-- A law that an evaluation obeys if the steps of which it consists do. -/
structure Stable (L : Law) : Prop where
  parts : ∀ {own frame t}, L.node own frame t →
    Evaluator.Asks (L.Allows own frame) (L.Body frame.file) (own = some frame.scope) t
  quiet : ∀ {own m m' o}, m'.session = m.session → m.store.Changes L.Body own m'.store → o.Raw →
    L.step own m [] o m'
  seq : ∀ {own m m₁ m' es es' o}, L.step own m es (.value ()) m₁ → L.step own m₁ es' o m' →
    L.step own m (es ++ es') o m'
  fresh : ∀ {own m m' es o} (parent : Option ScopeId),
    L.step (some m.store.scopes.size) { m with store := (m.store.newScope parent).2 } es o m' →
    L.step own m es o m'
  called : ∀ {own m} b vs, L.step own m [.called b vs] (.value ()) m
  /-- An object is given a member. -/
  written : ∀ {own} {m : Machine} {object : ObjectId} {o : Object} {scope name id} (v : Value),
    m.store.objects[object]? = some o → o.scope = some scope → m.store.setIn scope name = .ok id →
    L.step own m [.written scope name] (.value ()) { m with store := m.store.bind id name v }
  /-- A member cannot be given to an object. -/
  refused : ∀ {own m scope name} f,
    L.step own m [.written scope name] (.failure (.fault f .nowhere)) m
  left : ∀ {own frame t m m' es e}, L.node own frame t → L.step own m es (.failure e) m' →
    L.step own m (es ++ [.failed frame t]) (.failure (e.locate ⟨frame.file.name, t.line⟩)) m'

/-- What an account of a computation comes to. -/
structure Abides (L : Law) (own : Option ScopeId) (Q : α → Prop) (m : Machine) (a : Account α) :
    Prop where
  sound : a.machine.store.Sound L.Body
  step : L.step own m a.events a.outcome.ending a.machine
  meets : ∀ v, a.outcome = .value v → Q v

theorem Abides.failed {L : Law} {own : Option ScopeId} {Q : α → Prop} {m m' : Machine}
    {es : List Event} {e : Failure} (hsound : m'.store.Sound L.Body)
    (hstep : L.step own m es (.failure e) m') : L.Abides own Q m ⟨es, .failure e, m'⟩ where
  sound := hsound
  step := hstep
  meets _ hvalue := by cases hvalue

theorem Abides.stopped {L : Law} {own : Option ScopeId} {Q : α → Prop} {m m' : Machine}
    {es : List Event} {s : Stop} (hsound : m'.store.Sound L.Body)
    (hstep : L.step own m es (.stopped s) m') : L.Abides own Q m ⟨es, .stopped s, m'⟩ where
  sound := hsound
  step := hstep
  meets _ hvalue := by cases hvalue

def Obeys (L : Law) (own : Option ScopeId) (Q : α → Prop) (y : Told α) : Prop :=
  ∀ m, m.store.Sound L.Body → L.Abides own Q m (y m)

namespace Obeys

variable {L : Law} {own : Option ScopeId} {P : α → Prop} {Q : β → Prop} {y : Told α}

theorem act (hL : L.Stable) {x : Eval α} (h : x.Works L.Body own P) :
    L.Obeys own P (MonadMachine.act x) := by
  intro m hm
  obtain ⟨hsession, hstore, hraw, hmeets⟩ := h m hm
  exact ⟨hm.changes hstore, hL.quiet hsession hstore hraw.ending, hmeets⟩

theorem pure (hL : L.Stable) {a : α} (h : P a) : L.Obeys own P (Pure.pure a) :=
  act hL (.pure h)

theorem raise (hL : L.Stable) (f : Fault) : L.Obeys own P (MonadMachine.act (Eval.raise f)) :=
  act hL (.raise f)

theorem bind (hL : L.Stable) {f : α → Told β} (h : L.Obeys own P y)
    (hf : ∀ a, P a → L.Obeys own Q (f a)) : L.Obeys own Q (y >>= f) := by
  intro m hm
  obtain ⟨hsound, hstep, hmeets⟩ := h m hm
  simp only [Bind.bind, Told.andThen]
  rcases hy : y m with ⟨es, _ | e | s, m₁⟩ <;> rw [hy] at hsound hstep hmeets
  · -- the account goes on with that of the second part
    obtain ⟨hsound', hstep', hmeets'⟩ := hf _ (hmeets _ rfl) m₁ hsound
    exact ⟨hsound', hL.seq hstep hstep', hmeets'⟩
  · exact .failed hsound hstep
  · exact .stopped hsound hstep

/-- A new scope is the own scope of what runs in it. -/
theorem fresh (hL : L.Stable) (parent : Option ScopeId) {f : ScopeId → Told β}
    (hf : ∀ scope, L.Obeys (some scope) Q (f scope)) :
    L.Obeys own Q (MonadMachine.act (Eval.allocate fun s => s.newScope parent) >>= f) := by
  intro m hm
  have hopen : (m.store.newScope parent).2.Sound L.Body := ⟨hm.functions, hm.classes⟩
  obtain ⟨hsound, hstep, hmeets⟩ :=
    hf m.store.scopes.size { m with store := (m.store.newScope parent).2 } hopen
  exact ⟨hsound, hL.fresh parent hstep, hmeets⟩

theorem leaving (hL : L.Stable) {frame : Frame} {t : Tree} (ht : L.node own frame t)
    (h : L.Obeys own P y) : L.Obeys own P (MonadMachine.leaving frame t y) := by
  intro m hm
  obtain ⟨hsound, hstep, hmeets⟩ := h m hm
  simp only [MonadMachine.leaving, Told.leaving]
  rcases hy : y m with ⟨es, _ | e | s, m₁⟩ <;> rw [hy] at hsound hstep hmeets
  · exact ⟨hsound, hstep, hmeets⟩
  · exact .failed hsound (hL.left ht hstep)
  · exact .stopped hsound hstep

theorem called (hL : L.Stable) (b : Builtin) (vs : List Value) :
    L.Obeys own (fun _ => True) (MonadMachine.telling (fun _ => .called b vs) (Pure.pure ())) :=
  fun _ hm => ⟨hm, hL.called b vs, fun _ _ => trivial⟩

end Obeys

end Law

end ScriptKit
