import Mathlib.Logic.Relation
import ScriptKit.Evaluation.Evaluate

namespace ScriptKit

open Evaluator (constructorName argumentsName)

namespace Store

/-- What one step makes of a store, if it makes no scope and writes no member. A new name is
declared in the own scope only, and the bodies that are made are of the given sort. -/
inductive Change (ok : SourceFile → List Tree → Prop) (own : Option ScopeId) (s : Store) :
    Store → Prop
  | arrays (arrays : Array (Array Value)) : Change ok own s { s with arrays := arrays }
  | newFunction {f : Function} (h : ok f.file f.body) : Change ok own s (s.newFunction f).2
  | newClass {c : Class} (h : ok c.file c.body) : Change ok own s (s.newClass c).2
  | newObject {o : Object} (h : o.scope = own) : Change ok own s (s.newObject o).2
  | rebind {id : ScopeId} {name : String} (v : Value) (h : s.binds id name = true) :
    Change ok own s (s.bind id name v)
  | declare {id : ScopeId} (name : String) (v : Value) (h : own = some id) :
    Change ok own s (s.bind id name v)
  | finish {id : ScopeId} (h : own = some id) :
    Change ok own s (((s.lock id).unbind id constructorName).unbind id argumentsName)

def Changes (ok : SourceFile → List Tree → Prop) (own : Option ScopeId) : Store → Store → Prop :=
  Relation.ReflTransGen (Change ok own)

/-- All functions and classes have bodies of the given sort. -/
structure Sound (ok : SourceFile → List Tree → Prop) (s : Store) : Prop where
  functions : ∀ (id : FunctionId) f, s.functions[id]? = some f → ok f.file f.body
  classes : ∀ (id : ClassId) c, s.classes[id]? = some c → ok c.file c.body

variable {ok : SourceFile → List Tree → Prop} {own : Option ScopeId} {s t : Store}

theorem Sound.change (h : s.Sound ok) (hst : s.Change ok own t) : t.Sound ok := by
  cases hst with
  | newFunction hf =>
    refine ⟨fun id g hg => ?_, h.classes⟩
    rw [Store.newFunction, Array.getElem?_push] at hg
    split at hg
    · cases hg
      exact hf
    · exact h.functions id g hg
  | newClass hc =>
    refine ⟨h.functions, fun id d hd => ?_⟩
    rw [Store.newClass, Array.getElem?_push] at hd
    split at hd
    · cases hd
      exact hc
    · exact h.classes id d hd
  | arrays | newObject | rebind | declare | finish => exact ⟨h.functions, h.classes⟩

theorem Sound.changes (h : s.Sound ok) (hst : s.Changes ok own t) : t.Sound ok := by
  induction hst with
  | refl => exact h
  | tail _ hlast ih => exact ih.change hlast

end Store

/-- No fault, or one that has no location yet. -/
def Outcome.Raw {α : Type} : Outcome α → Prop
  | .failure (.fault _ location) => location = .nowhere
  | _ => True

/-- The end of a computation that has left the session as it is, and has changed the store by such
steps alone. -/
structure Quiet {α : Type} (ok : SourceFile → List Tree → Prop) (own : Option ScopeId) (Q : α → Prop)
    (m : Machine) (r : Outcome α × Machine) : Prop where
  session : r.2.session = m.session
  store : m.store.Changes ok own r.2.store
  raw : r.1.Raw
  meets : ∀ a, r.1 = .value a → Q a

/-- A computation that evaluates no node. -/
def Eval.Works {α : Type} (ok : SourceFile → List Tree → Prop) (own : Option ScopeId) (Q : α → Prop)
    (x : Eval α) : Prop :=
  ∀ m, m.store.Sound ok → Quiet ok own Q m (x m)

namespace Eval.Works

variable {α β : Type} {ok : SourceFile → List Tree → Prop} {own : Option ScopeId}
  {P : α → Prop} {Q : β → Prop} {x : Eval α}

/-- A computation that changes neither the store nor the session. -/
theorem steady (hstore : ∀ m, (x m).2.store = m.store) (hsession : ∀ m, (x m).2.session = m.session)
    (hraw : ∀ m, (x m).1.Raw) (hmeets : ∀ m, m.store.Sound ok → ∀ a, (x m).1 = .value a → P a) :
    x.Works ok own P := fun m hm =>
  ⟨hsession m, by rw [hstore m]; exact .refl, hraw m, hmeets m hm⟩

theorem pure {a : α} (h : P a) : (Pure.pure a : Eval α).Works ok own P :=
  steady (fun _ => rfl) (fun _ => rfl) (fun _ => trivial) fun _ _ _ ha =>
    (Outcome.value.inj ha) ▸ h

theorem fail {e : Failure} (h : (Outcome.failure e : Outcome α).Raw) :
    (Eval.fail e : Eval α).Works ok own P :=
  steady (fun _ => rfl) (fun _ => rfl) (fun _ => h) fun _ _ => nofun

theorem raise (f : Fault) : (Eval.raise f : Eval α).Works ok own P :=
  fail rfl

theorem stop (s : Stop) : (Eval.stop s : Eval α).Works ok own P :=
  steady (fun _ => rfl) (fun _ => rfl) (fun _ => trivial) fun _ _ => nofun

theorem query {f : Store → α} (h : ∀ s, s.Sound ok → P (f s)) : (Eval.query f).Works ok own P :=
  steady (fun _ => rfl) (fun _ => rfl) (fun _ => trivial) fun m hm _ ha =>
    (Outcome.value.inj ha) ▸ h m.store hm

theorem anyQuery (f : Store → α) : (Eval.query f).Works ok own fun _ => True :=
  query fun _ _ => trivial

theorem ask (answer : Asked → α) (next : Asked → Asked) :
    (Eval.ask answer next).Works ok own fun a => ∃ asked, answer asked = a :=
  steady (fun _ => rfl) (fun _ => rfl) (fun _ => trivial) fun m _ _ ha =>
    ⟨m.asked, Outcome.value.inj ha⟩

theorem draw (host : Host) : (Eval.draw host).Works ok own fun _ => True :=
  fun m hm => { ask _ _ m hm with meets := fun _ _ => trivial }

theorem resolve (loader : Loader) (directory target : String) :
    (Eval.resolve loader directory target).Works ok own fun _ => True :=
  fun m hm => { ask _ _ m hm with meets := fun _ _ => trivial }

theorem load (loader : Loader) (path : String) :
    (Eval.load loader path).Works ok own fun r => ∃ n, loader.load n path = r := fun m hm =>
  { ask _ _ m hm with meets := fun _ hr => ⟨m.asked.times path, Outcome.value.inj hr⟩ }

/-- Output and log are no part of what is looked at. -/
theorem update {f : Machine → Machine} (hstore : ∀ m, (f m).store = m.store)
    (hsession : ∀ m, (f m).session = m.session) : (Eval.update f).Works ok own fun _ => True :=
  steady hstore hsession (fun _ => trivial) fun _ _ _ _ => trivial

theorem put (text : String) : (Eval.put text).Works ok own fun _ => True :=
  update (fun _ => rfl) fun _ => rfl

theorem note (entry : Log.Entry) : (Eval.note entry).Works ok own fun _ => True :=
  update (fun _ => rfl) fun _ => rfl

theorem noteAll (entries : List Log.Entry) : (Eval.noteAll entries).Works ok own fun _ => True :=
  update (fun _ => rfl) fun _ => rfl

theorem readLine : Eval.readLine.Works ok own fun _ => True := by
  intro m _
  rw [Eval.readLine]
  split <;> exact ⟨rfl, .refl, trivial, fun _ _ => trivial⟩

theorem ofExcept (r : Except Fault α) : (Eval.ofExcept r).Works ok own fun _ => True := by
  cases r with
  | ok a => exact pure trivial
  | error f => exact raise f

theorem allocate {f : Store → α × Store} (h : ∀ s : Store, s.Change ok own (f s).2) :
    (Eval.allocate f).Works ok own fun _ => True := fun m _ =>
  ⟨rfl, .single (h m.store), trivial, fun _ _ => trivial⟩

theorem attempt {check : Store → Except Fault α} {act : α → Store → β × Store}
    (h : ∀ (s : Store) a, check s = .ok a → s.Change ok own (act a s).2) :
    (Eval.attempt check act).Works ok own fun _ => True := by
  intro m hm
  rw [Eval.attempt]
  cases hcheck : check m.store with
  | ok a => exact ⟨rfl, .single (h m.store a hcheck), trivial, fun _ _ => trivial⟩
  | error f => exact ⟨rfl, .refl, rfl, nofun⟩

theorem bind {f : α → Eval β} (h : x.Works ok own P) (hf : ∀ a, P a → (f a).Works ok own Q) :
    (x >>= f).Works ok own Q := by
  intro m hm
  obtain ⟨hsession, hstore, hraw, hmeets⟩ := h m hm
  simp only [Bind.bind, Eval.andThen]
  rcases hx : x m with ⟨_ | e | _, m₁⟩ <;> rw [hx] at hsession hstore hraw hmeets
  · obtain ⟨hsession', hstore', hraw', hmeets'⟩ := hf _ (hmeets _ rfl) m₁ (hm.changes hstore)
    exact ⟨hsession'.trans hsession, hstore.trans hstore', hraw', hmeets'⟩
  · exact ⟨hsession, hstore, by cases e <;> exact hraw, nofun⟩
  · exact ⟨hsession, hstore, trivial, nofun⟩

end Eval.Works

namespace Eval.Works

variable {ok : SourceFile → List Tree → Prop} {own : Option ScopeId}

theorem newArray (f : Store → Array Value) :
    (Eval.allocate fun s => s.newArray (f s)).Works ok own fun _ => True :=
  allocate fun s => .arrays (s.arrays.push (f s))

theorem newFunction {f : Function} (h : ok f.file f.body) :
    (Eval.allocate fun s => s.newFunction f).Works ok own fun _ => True :=
  allocate fun _ => .newFunction h

theorem newClass {c : Class} (h : ok c.file c.body) :
    (Eval.allocate fun s => s.newClass c).Works ok own fun _ => True :=
  allocate fun _ => .newClass h

theorem declare {scope : ScopeId} (h : own = some scope) (name : String) (v : Value) :
    (Evaluator.declare scope name v).Works ok own fun _ => True := by
  unfold Evaluator.declare
  refine attempt fun s id hid => ?_
  rw [Store.declaredIn] at hid
  split at hid
  · cases hid
  · cases hid
    exact .declare name v h

/-- A name is written where it is bound. -/
theorem rewrite (scope : ScopeId) (name : String) (v : Value) :
    (Eval.bindIn (fun s => s.writtenIn scope name) name v).Works ok own fun _ => True := by
  refine attempt fun s id hid => ?_
  rw [Store.writtenIn] at hid
  split at hid
  · rename_i hbinder
    cases hid
    have hbinds : s.binds id name = true := by
      rw [Store.binder?] at hbinder
      simpa using List.find?_some hbinder
    exact .rebind v hbinds
  · cases hid

theorem function (id : FunctionId) :
    (Eval.query fun s => s.functions[id]?).Works ok own fun found =>
      ∀ f, found = some f → ok f.file f.body :=
  query fun _ hs => hs.functions id

theorem classOf (id : ClassId) :
    (Eval.query fun s => s.classes[id]?).Works ok own fun found =>
      ∀ c, found = some c → ok c.file c.body :=
  query fun _ hs => hs.classes id

/-- What a check of the store gives is taken as the value. -/
theorem checked {α : Type} (f : Store → Except Fault α) :
    (do Eval.ofExcept (← Eval.query f)).Works ok own fun _ => True :=
  (anyQuery f).bind fun r _ => ofExcept r

theorem bindParameters {scope : ScopeId} (h : own = some scope) : ∀ (names : List String)
    (vs : List Value), (Evaluator.bindParameters scope names vs).Works ok own fun _ => True
  | [], _ => pure trivial
  | _ :: _, [] => pure trivial
  | p :: ps, v :: vs => (declare h p v).bind fun _ _ => bindParameters h ps vs

theorem styleCode (v : Value) : (Evaluator.styleCode v).Works ok own fun _ => True := by
  unfold Evaluator.styleCode
  split
  · exact pure trivial
  apply (anyQuery _).bind
  intro text _
  split
  · exact pure trivial
  · exact raise _

theorem colorize (host : Host) (text code : Value) :
    (Evaluator.colorize host text code).Works ok own fun _ => True := by
  unfold Evaluator.colorize
  apply (anyQuery _).bind
  intro t _
  apply (styleCode code).bind
  intro n _
  split <;> exact pure trivial

/-- A part of a text may be written although the rest of it is refused. -/
theorem write (host : Host) (text : String) :
    (Eval.write host text).Works ok own fun _ => True := by
  apply (ask (fun a => host.refusal a.texts) _).bind
  intro refusal _
  cases refusal with
  | none => exact put text
  | some refusal =>
    apply (put _).bind
    intro _ _
    exact fail trivial

theorem printLines (host : Host) : ∀ vs : List Value,
    (Evaluator.printLines host vs).Works ok own fun _ => True
  | [] => pure trivial
  | _ :: vs => (anyQuery _).bind fun _ _ => (write host _).bind fun _ _ => printLines host vs

theorem dumpAll (host : Host) : ∀ vs : List Value,
    (Evaluator.dumpAll host vs).Works ok own fun _ => True
  | [] => pure trivial
  | _ :: vs => (anyQuery _).bind fun _ _ => (write host _).bind fun _ _ => dumpAll host vs

/-- Of the operators, only one makes an array. -/
theorem operate (op : String) (l r : Value) :
    (Evaluator.operate op l r).Works ok own fun _ => True := by
  apply (anyQuery _).bind
  intro result _
  apply (ofExcept result).bind
  intro c _
  cases c with
  | value v => exact pure trivial
  | elements vs => exact newArray _
  | overflow => exact stop _

theorem toNumber (v : Value) : (Evaluator.toNumber v).Works ok own fun _ => True := by
  unfold Evaluator.toNumber
  split
  · exact pure trivial
  · exact pure trivial
  · exact pure trivial
  · split
    · exact pure trivial
    · exact raise _
  · exact raise _

theorem arrayOfSize (size fill : Value) :
    (Evaluator.arrayOfSize size fill).Works ok own fun _ => True := by
  have hrefuse : (do Eval.raise (.notASize (← Eval.query fun s => s.text size)) : Eval Value).Works
      ok own fun _ => True :=
    (anyQuery _).bind fun _ _ => raise _
  unfold Evaluator.arrayOfSize
  dsimp only
  split
  · split
    · exact hrefuse
    split
    · exact raise _
    · exact newArray _
  · exact hrefuse

theorem textArgument (b : Builtin) (v : Value) :
    (Evaluator.textArgument b v).Works ok own fun _ => True := by
  unfold Evaluator.textArgument
  split
  · exact pure trivial
  · exact raise _

/-- The program that is read is that of the file. -/
theorem readModule (host : Host) (file : SourceFile) :
    (Evaluator.readModule host file).Works ok own fun p => (Program.parse file).1 = .ok p := by
  unfold Evaluator.readModule
  rcases hparse : Program.parse file with ⟨result, entries⟩
  apply (noteAll _).bind
  intro _ _
  cases result with
  | error e => exact fail trivial
  | ok p =>
    dsimp only
    split
    · exact pure rfl
    apply (note _).bind
    intro _ _
    split
    · exact fail trivial
    · exact pure rfl

end Eval.Works

end ScriptKit
