import ScriptKit.Proofs.Evaluation.Watched
import ScriptKit.Proofs.Value.Checks

namespace ScriptKit

/-- What is asked of the target of an assignment. -/
def Evaluator.TargetIn (node : Option Tree → Prop) (fault : Fault → Prop) (target : Tree) : Prop :=
  match target.kind with
  | .identifier => True
  | .member => node (target.child? 0)
  | k => fault (.cannotAssign k)

/-- What is asked of a node so that it can be evaluated: of the nodes that are evaluated with it or
from a function or class made by it, and of the faults that come from its shape. -/
def Evaluator.PartsIn (node : Option Tree → Prop) (fault : Fault → Prop) (t : Tree) : Prop :=
  match t.kind with
  | .initialisation => node (t.child? 1)
  | .declaration => True
  | .assign => node (t.child? 1) ∧ TargetIn node fault (childOr t 0)
  | .indexWrite => (∀ u ∈ (childOr t 1).children, node (some u)) ∧ node (t.child? 2) ∧
    node (t.child? 0)
  | .binary | .comparison | .index => node (t.child? 0) ∧ node (t.child? 1)
  | .functionDefinition | .classDefinition => ∀ u ∈ body (childOr t 0), node (some u)
  | .call => (∀ u ∈ (childOr t 1).children, node (some u)) ∧ node (t.child? 0)
  | .member => node (t.child? 0)
  | .whileStatement => node (t.child? 0) ∧ ∀ u ∈ (childOr t 1).children, node (some u)
  | .ifStatement => node (t.child? 0) ∧ (∀ u ∈ (childOr t 1).children, node (some u)) ∧
    ∀ u, t.child? 2 = some u → u.kind = .ifStatement ∨ u.kind = .block → node (some u)
  | .block => ∀ u ∈ t.children, node (some u)
  | .array => ∀ u ∈ (childOr t 0).children, node (some u)
  | .function | .classLiteral => ∀ u ∈ body t, node (some u)
  | .number | .string | .boolean | .null | .identifier => True
  | k => fault (.cannotEvaluate k)

/-- The nodes that a run evaluates, the values that it makes and the faults that it ends with, if
they are no others than those of the programs it runs. -/
structure Conduct where
  node : Option Tree → Prop
  value : Value → Prop
  fault : Fault → Prop
  value_of_ne : ∀ v, v ≠ .absent → value v
  fault_of_ordinary : ∀ f : Fault, f.Ordinary → fault f
  parts : ∀ t, node (some t) → Evaluator.PartsIn node fault t
  parsed : ∀ file p, (Program.parse file).1 = .ok p →
    ∀ b, p.tree.child? 0 = some b → ∀ t ∈ b.children, node (some t)

namespace Outcome

variable {α β : Type} {P : α → Prop} {fault : Fault → Prop}

/-- A value or a fault as it should be. -/
def Meets (P : α → Prop) (fault : Fault → Prop) : Outcome α → Prop
  | .value a => P a
  | .failure (.fault f _) => fault f
  | _ => True

theorem Meets.failure {e : Failure} (h : (failure e : Outcome α).Meets P fault) (Q : β → Prop) :
    (failure e : Outcome β).Meets Q fault := by
  cases e <;> exact h

theorem Meets.imp {o : Outcome α} {R : α → Prop} (h : o.Meets P fault) (hPR : ∀ a, P a → R a) :
    o.Meets R fault := by
  cases o with
  | value a => exact hPR a h
  | failure e => exact h.failure R
  | stopped s => trivial

end Outcome

namespace Conduct

variable (D : Conduct)

/-- Statements or values that can all be evaluated. -/
def Nodes (ts : List Tree) : Prop := ∀ t ∈ ts, D.node (some t)

/-- A store whose values, function bodies and class bodies are those of orderly programs. -/
structure Safe (s : Store) : Prop where
  values : s.Holds D.value
  functions : ∀ (id : FunctionId) f, s.functions[id]? = some f → D.Nodes f.body
  classes : ∀ (id : ClassId) c, s.classes[id]? = some c → D.Nodes c.body

structure Sound (m : Machine) : Prop where
  store : D.Safe m.store
  recorded : ∀ e ∈ m.session.entries, D.value e.2

/-- The end `r'` that is reached from a machine, and the end `r` of a computation that is the same or,
where it may be, is cut short at a machine that the other passes. -/
structure Reaches {α : Type} (cut : Prop) (Q : α → Prop) (m : Machine)
    (r r' : Outcome α × Machine) : Prop where
  sound : D.Sound r'.2
  later : m.store.Later r'.2.store
  meets : r'.1.Meets Q D.fault
  same : r = r' ∨ cut ∧ r.1 = .stopped .exhausted ∧ r.2.store.Later r'.2.store

/-- What the computation `y` does to any sound machine, and `x` unless it is cut short. -/
def Governs {α : Type} (cut : Prop) (Q : α → Prop) (x y : Eval α) : Prop :=
  ∀ m, D.Sound m → D.Reaches cut Q m (x m) (y m)

/-- The statements of a program are such nodes. -/
def Admits (p : Program) : Prop :=
  ∀ b, p.tree.child? 0 = some b → D.Nodes b.children

variable {D} {s : Store} {m : Machine}

namespace Safe

theorem newScope (h : D.Safe s) (parent : Option ScopeId) : D.Safe (s.newScope parent).2 :=
  ⟨h.values.newScope parent, h.functions, h.classes⟩

theorem newArray (h : D.Safe s) {elements : Array Value} (he : ∀ v ∈ elements, D.value v) :
    D.Safe (s.newArray elements).2 :=
  ⟨h.values.newArray he, h.functions, h.classes⟩

theorem newObject (h : D.Safe s) (o : Object) : D.Safe (s.newObject o).2 :=
  ⟨⟨h.values.bound, h.values.stored⟩, h.functions, h.classes⟩

theorem newFunction (h : D.Safe s) {f : Function} (hf : D.Nodes f.body) :
    D.Safe (s.newFunction f).2 where
  values := ⟨h.values.bound, h.values.stored⟩
  functions id g hg := by
    rw [Store.newFunction, Array.getElem?_push] at hg
    split at hg
    · cases hg
      exact hf
    · exact h.functions id g hg
  classes := h.classes

theorem newClass (h : D.Safe s) {c : Class} (hc : D.Nodes c.body) :
    D.Safe (s.newClass c).2 where
  values := ⟨h.values.bound, h.values.stored⟩
  functions := h.functions
  classes id d hd := by
    rw [Store.newClass, Array.getElem?_push] at hd
    split at hd
    · cases hd
      exact hc
    · exact h.classes id d hd

theorem setElement (h : D.Safe s) {v : Value} (hv : D.value v) (id : ArrayId) (i : Nat) :
    D.Safe (s.setElement id i v) :=
  ⟨h.values.setElement hv id i, h.functions, h.classes⟩

theorem bind (h : D.Safe s) (id : ScopeId) (name : String) {v : Value} (hv : D.value v) :
    D.Safe (s.bind id name v) :=
  ⟨h.values.bind id name hv, h.functions, h.classes⟩

theorem lock (h : D.Safe s) (id : ScopeId) : D.Safe (s.lock id) :=
  ⟨h.values.lock id, h.functions, h.classes⟩

theorem unbind (h : D.Safe s) (id : ScopeId) (name : String) : D.Safe (s.unbind id name) :=
  ⟨h.values.unbind id name, h.functions, h.classes⟩

end Safe

theorem Sound.of_eq {m' : Machine} (h : D.Sound m) (hstore : m'.store = m.store)
    (hsession : m'.session = m.session) : D.Sound m' :=
  ⟨hstore ▸ h.store, hsession ▸ h.recorded⟩

namespace Governs

variable {α β : Type} {cut : Prop} {P : α → Prop} {Q : β → Prop} {x y : Eval α}

theorem same (h : ∀ m, D.Sound m → D.Sound (x m).2 ∧ m.store.Later (x m).2.store ∧
    (x m).1.Meets P D.fault) : D.Governs cut P x x := fun m hm =>
  ⟨(h m hm).1, (h m hm).2.1, (h m hm).2.2, Or.inl rfl⟩

/-- A computation that changes neither the store nor the session. -/
theorem steady (hstore : ∀ m, (x m).2.store = m.store) (hsession : ∀ m, (x m).2.session = m.session)
    (hmeets : ∀ m, D.Sound m → (x m).1.Meets P D.fault) : D.Governs cut P x x :=
  same fun m hm => ⟨hm.of_eq (hstore m) (hsession m), by rw [hstore]; exact .refl _, hmeets m hm⟩

theorem pure {a : α} (h : P a) : D.Governs cut P (pure a) (pure a) :=
  steady (fun _ => rfl) (fun _ => rfl) fun _ _ => h

theorem fail {e : Failure} (h : (Outcome.failure e : Outcome α).Meets P D.fault) :
    D.Governs cut P (Eval.fail e) (Eval.fail e) :=
  steady (fun _ => rfl) (fun _ => rfl) fun _ _ => h

theorem raise {f : Fault} (h : D.fault f) : D.Governs cut P (Eval.raise f) (Eval.raise f) :=
  fail h

/-- A fault that has nothing to do with the shape of a program. -/
theorem refuse {f : Fault} (hassign : ∀ k, f ≠ .cannotAssign k)
    (hevaluate : ∀ k, f ≠ .cannotEvaluate k) : D.Governs cut P (Eval.raise f) (Eval.raise f) :=
  raise (D.fault_of_ordinary f fun k => ⟨hassign k, hevaluate k⟩)

theorem stop (s : Stop) : D.Governs cut P (Eval.stop s : Eval α) (Eval.stop s) :=
  steady (fun _ => rfl) (fun _ => rfl) fun _ _ => trivial

theorem query {f : Store → α} (h : ∀ s, D.Safe s → P (f s)) :
    D.Governs cut P (Eval.query f) (Eval.query f) :=
  steady (fun _ => rfl) (fun _ => rfl) fun m hm => h m.store hm.store

theorem session : D.Governs cut (fun s => ∀ e ∈ s.entries, D.value e.2) Eval.session Eval.session :=
  steady (fun _ => rfl) (fun _ => rfl) fun _ hm => hm.recorded

theorem put (text : String) : D.Governs cut (fun _ => True) (Eval.put text) (Eval.put text) :=
  steady (fun _ => rfl) (fun _ => rfl) fun _ _ => trivial

theorem note (entry : Log.Entry) :
    D.Governs cut (fun _ => True) (Eval.note entry) (Eval.note entry) :=
  steady (fun _ => rfl) (fun _ => rfl) fun _ _ => trivial

theorem noteAll (entries : List Log.Entry) :
    D.Governs cut (fun _ => True) (Eval.noteAll entries) (Eval.noteAll entries) :=
  steady (fun _ => rfl) (fun _ => rfl) fun _ _ => trivial

theorem ask (answer : Asked → α) (next : Asked → Asked) :
    D.Governs cut (fun _ => True) (Eval.ask answer next) (Eval.ask answer next) :=
  steady (fun _ => rfl) (fun _ => rfl) fun _ _ => trivial

theorem draw (host : Host) :
    D.Governs cut (fun _ => True) (Eval.draw host) (Eval.draw host) := ask _ _

theorem resolve (loader : Loader) (directory target : String) :
    D.Governs cut (fun _ => True) (Eval.resolve loader directory target)
      (Eval.resolve loader directory target) := ask _ _

theorem load (loader : Loader) (path : String) :
    D.Governs cut (fun _ => True) (Eval.load loader path) (Eval.load loader path) := ask _ _

theorem readLine : D.Governs cut (fun _ => True) Eval.readLine Eval.readLine := by
  refine same fun m hm => ?_
  rw [Eval.readLine]
  split <;> exact ⟨hm.of_eq rfl rfl, .refl _, trivial⟩

theorem ofExcept {r : Except Fault α} (h : Checked P r) :
    D.Governs cut P (Eval.ofExcept r) (Eval.ofExcept r) := by
  cases r with
  | ok a => exact pure h
  | error f => exact raise (D.fault_of_ordinary f h)

theorem update {f : Machine → Machine} (hstore : ∀ m, (f m).store = m.store)
    (hsession : ∀ m, D.Sound m → ∀ e ∈ (f m).session.entries, D.value e.2) :
    D.Governs cut (fun _ => True) (Eval.update f) (Eval.update f) :=
  same fun m hm => ⟨⟨by rw [Eval.update, hstore]; exact hm.store, hsession m hm⟩,
    by rw [Eval.update, hstore]; exact .refl _, trivial⟩

theorem allocate {f : Store → α × Store}
    (h : ∀ s, D.Safe s → D.Safe (f s).2 ∧ s.Later (f s).2 ∧ P (f s).1) :
    D.Governs cut P (Eval.allocate f) (Eval.allocate f) :=
  same fun m hm =>
    let ⟨hsafe, hlater, hp⟩ := h m.store hm.store
    ⟨⟨hsafe, hm.recorded⟩, hlater, hp⟩

theorem attempt {check : Store → Except Fault α} {act : α → Store → β × Store}
    (h : ∀ s, D.Safe s → Checked (fun a => D.Safe (act a s).2 ∧ s.Later (act a s).2 ∧
      Q (act a s).1) (check s)) :
    D.Governs cut Q (Eval.attempt check act) (Eval.attempt check act) := by
  refine same fun m hm => ?_
  have hcheck := h m.store hm.store
  rw [Eval.attempt]
  cases hc : check m.store with
  | ok a =>
    rw [hc] at hcheck
    obtain ⟨hsafe, hlater, hq⟩ := hcheck
    exact ⟨⟨hsafe, hm.recorded⟩, hlater, hq⟩
  | error f =>
    rw [hc] at hcheck
    exact ⟨hm, .refl _, D.fault_of_ordinary f hcheck⟩

/-- A name is bound where it is bound already, or where names can still be added. -/
theorem bindIn {find : Store → Except Fault ScopeId} {name : String} {v : Value} (hv : D.value v)
    (h : ∀ s, Checked (fun id => s.binds id name = true ∨ s.isLocked id = false) (find s)) :
    D.Governs cut D.value (Eval.bindIn find name v) (Eval.bindIn find name v) :=
  attempt fun s hs => (h s).imp fun id hid => ⟨hs.bind id name hv, .bind v hid, hv⟩

theorem weaken {R : α → Prop} (h : D.Governs cut P x y) (hPR : ∀ a, P a → R a) :
    D.Governs cut R x y := fun m hm =>
  let ⟨hsound, hlater, hmeets, hxy⟩ := h m hm
  ⟨hsound, hlater, hmeets.imp hPR, hxy⟩

theorem bind {f g : α → Eval β} (h : D.Governs cut P x y)
    (hf : ∀ a, P a → D.Governs cut Q (f a) (g a)) : D.Governs cut Q (x >>= f) (y >>= g) := by
  intro m hm
  obtain ⟨hsound, hlater, hmeets, hxy⟩ := h m hm
  simp only [Bind.bind, Eval.andThen]
  rcases hx : x m with ⟨ox, mx⟩
  rcases hy : y m with ⟨oy, my⟩
  rw [hx, hy] at hxy
  rw [hy] at hsound hlater hmeets
  rcases hxy with hxy | ⟨hcut, hstop, hbefore⟩
  · -- the first part has gone the same way, so the second starts from the same machine
    obtain ⟨rfl, rfl⟩ := Prod.mk.inj hxy
    cases ox with
    | value a =>
      obtain ⟨hsound', hlater', hmeets', hfg⟩ := hf a hmeets mx hsound
      exact ⟨hsound', hlater.trans hlater', hmeets', hfg⟩
    | failure e => exact ⟨hsound, hlater, hmeets.failure Q, Or.inl rfl⟩
    | stopped s => exact ⟨hsound, hlater, trivial, Or.inl rfl⟩
  · -- cut short in the first part, it has nothing of the second, whose machines are later ones
    obtain rfl : ox = .stopped .exhausted := hstop
    cases oy with
    | value a =>
      obtain ⟨hsound', hlater', hmeets', -⟩ := hf a hmeets my hsound
      exact ⟨hsound', hlater.trans hlater', hmeets', Or.inr ⟨hcut, rfl, hbefore.trans hlater'⟩⟩
    | failure e => exact ⟨hsound, hlater, hmeets.failure Q, Or.inr ⟨hcut, rfl, hbefore⟩⟩
    | stopped s => exact ⟨hsound, hlater, trivial, Or.inr ⟨hcut, rfl, hbefore⟩⟩

/-- The end of a computation is handled in a way that leaves the store as it is. -/
theorem handled {x' y' : Eval β} (f : Outcome α × Machine → Outcome β × Machine)
    (hx : ∀ m, x' m = f (x m)) (hy : ∀ m, y' m = f (y m))
    (hstop : ∀ m, f (.stopped .exhausted, m) = (.stopped .exhausted, m))
    (hf : ∀ o m, D.Sound m → o.Meets P D.fault → D.Sound (f (o, m)).2 ∧
      (f (o, m)).2.store = m.store ∧ (f (o, m)).1.Meets Q D.fault)
    (h : D.Governs cut P x y) : D.Governs cut Q x' y' := by
  intro m hm
  obtain ⟨hsound, hlater, hmeets, hxy⟩ := h m hm
  obtain ⟨hsound', hstore, hmeets'⟩ := hf (y m).1 (y m).2 hsound hmeets
  rw [hx, hy]
  refine ⟨hsound', hstore ▸ hlater, hmeets', ?_⟩
  rcases hxy with hxy | ⟨hcut, hexhausted, hbefore⟩
  · exact Or.inl (congrArg f hxy)
  · have hend : f (x m) = (.stopped .exhausted, (x m).2) := by rw [← hstop, ← hexhausted]
    rw [hend]
    exact Or.inr ⟨hcut, rfl, hstore ▸ hbefore⟩

theorem locating (h : D.Governs cut P x y) (place : Location) :
    D.Governs cut P (Eval.locating place x) (Eval.locating place y) := by
  refine handled (fun r => Eval.locating place (fun _ => r) r.2) (fun _ => rfl) (fun _ => rfl)
    (fun _ => rfl) (fun o m hm hmeets => ?_) h
  cases o with
  | value a => exact ⟨hm, rfl, hmeets⟩
  | failure e => exact ⟨hm, rfl, by cases e <;> exact hmeets⟩
  | stopped s => exact ⟨hm, rfl, trivial⟩

/-- A change of the machine after a failure concerns what the session records at most. -/
theorem undoing {undo : Machine → Machine} (h : D.Governs cut P x y)
    (hstore : ∀ m, (undo m).store = m.store) (hundo : ∀ m, D.Sound m → D.Sound (undo m)) :
    D.Governs cut P (Eval.undoing undo x) (Eval.undoing undo y) := by
  refine handled (fun r => Eval.undoing undo (fun _ => r) r.2) (fun _ => rfl) (fun _ => rfl)
    (fun _ => rfl) (fun o m hm hmeets => ?_) h
  cases o with
  | value a => exact ⟨hm, rfl, hmeets⟩
  | failure e => exact ⟨hundo m hm, hstore m, hmeets⟩
  | stopped s => exact ⟨hm, rfl, trivial⟩

theorem settled (h : D.Governs cut P x y) :
    D.Governs cut (fun o => o.Meets P D.fault) (Eval.settled x) (Eval.settled y) := by
  refine handled (fun r => Eval.settled (fun _ => r) r.2) (fun _ => rfl) (fun _ => rfl)
    (fun _ => rfl) (fun o m hm hmeets => ?_) h
  cases o with
  | value a => exact ⟨hm, rfl, hmeets⟩
  | failure e => exact ⟨hm, rfl, hmeets⟩
  | stopped s => exact ⟨hm, rfl, trivial⟩

theorem give {o : Outcome α} (h : o.Meets P D.fault) :
    D.Governs cut P (Eval.give o) (Eval.give o) :=
  steady (fun _ => rfl) (fun _ => rfl) fun _ _ => h

/-- A run may stop at more moments if it may be cut short. -/
theorem stopping {early late : Moment → Bool} {moment : Machine → Moment}
    (h : ∀ m, D.Sound m → early (moment m) = late (moment m) ∨ cut ∧ early (moment m) = true) :
    D.Governs cut (fun _ => True) (Eval.stopping early moment) (Eval.stopping late moment) := by
  intro m hm
  have hlate : ∃ o, Eval.stopping late moment m = (o, m) ∧ o.Meets (fun _ => True) D.fault := by
    rw [Eval.stopping]
    split
    · exact ⟨.stopped .exhausted, rfl, trivial⟩
    · exact ⟨.value (), rfl, trivial⟩
  obtain ⟨o, hlate, ho⟩ := hlate
  rcases h m hm with h | ⟨hcut, h⟩
  · have hsame : Eval.stopping early moment m = (o, m) := by
      rw [← hlate, Eval.stopping, Eval.stopping, h]
    rw [hsame, hlate]
    exact ⟨hm, .refl _, ho, Or.inl rfl⟩
  · have hearly : Eval.stopping early moment m = (.stopped .exhausted, m) := by
      rw [Eval.stopping, if_pos h]
    rw [hearly, hlate]
    exact ⟨hm, .refl _, ho, Or.inr ⟨hcut, rfl, .refl _⟩⟩

end Governs

end Conduct

end ScriptKit
