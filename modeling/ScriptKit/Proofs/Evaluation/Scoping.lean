import ScriptKit.Proofs.Evaluation.Dispatch
import ScriptKit.Proofs.Evaluation.Lawful
import ScriptKit.Proofs.Value.Resolution

namespace ScriptKit

open Evaluator (constructorName argumentsName)

namespace Store

variable {s t u : Store} {id other : ScopeId} {name : String}

/-- The scope of an object that can still take new names. -/
def OpenInstance (s : Store) (id : ScopeId) : Prop :=
  s.isLocked id = false ∧ ∃ (object : ObjectId) (o : Object),
    s.objects[object]? = some o ∧ o.scope = some id

/-- The names of the scopes that were there before are kept, save those of an own scope and those
that objects are given as members while they are made. -/
structure KeepsNames (own : Option ScopeId) (es : List Event) (s t : Store) : Prop where
  grows : s.scopes.size ≤ t.scopes.size
  names : ∀ id < s.scopes.size, own ≠ some id → ∀ name,
    t.binds id name = s.binds id name ∨ s.OpenInstance id ∧ .written id name ∈ es
  instances : ∀ id < s.scopes.size, own ≠ some id → t.OpenInstance id → s.OpenInstance id

namespace KeepsNames

variable {own : Option ScopeId} {es es' : List Event}

theorem of_eq (hscopes : t.scopes = s.scopes) (hobjects : t.objects = s.objects) :
    KeepsNames own es s t where
  grows := Nat.le_of_eq (by rw [hscopes])
  names id _ _ name := Or.inl (by rw [binds, get?, scope?, hscopes, binds, get?, scope?])
  instances id _ _ h := by
    rwa [OpenInstance, isLocked, scope?, hscopes, hobjects, ← scope?, ← isLocked,
      ← OpenInstance] at h

theorem refl (s : Store) : KeepsNames own es s s := of_eq rfl rfl

theorem mono (h : KeepsNames own es s t) (hes : ∀ e ∈ es, e ∈ es') : KeepsNames own es' s t :=
  ⟨h.grows, fun id hid hown name => (h.names id hid hown name).imp_right fun hw => ⟨hw.1, hes _ hw.2⟩,
    h.instances⟩

theorem trans (h : KeepsNames own es s t) (h' : KeepsNames own es' t u) :
    KeepsNames own (es ++ es') s u where
  grows := Nat.le_trans h.grows h'.grows
  names id hid hown name := by
    have hid' : id < t.scopes.size := Nat.lt_of_lt_of_le hid h.grows
    rcases h'.names id hid' hown name with hkept' | ⟨hinstance, hwritten⟩
    · rcases h.names id hid hown name with hkept | ⟨hinstance, hwritten⟩
      · exact Or.inl (hkept'.trans hkept)
      · exact Or.inr ⟨hinstance, List.mem_append_left _ hwritten⟩
    · -- an object that is still being made later was being made before
      exact Or.inr ⟨h.instances id hid hown hinstance, List.mem_append_right _ hwritten⟩
  instances id hid hown hopen :=
    h.instances id hid hown (h'.instances id (Nat.lt_of_lt_of_le hid h.grows) hown hopen)

/-- Only the own scope is changed. -/
theorem updateScope (f : Scope → Scope) (hown : own = some id) :
    KeepsNames own es s (s.updateScope id f) where
  grows := Nat.le_of_eq (size_updateScope f).symm
  names other _ hother name := by
    have hne : id ≠ other := fun h => hother (h ▸ hown)
    exact Or.inl (binds_updateScope f hne)
  instances other _ hother h := by
    have hne : id ≠ other := fun h => hother (h ▸ hown)
    rw [OpenInstance, isLocked_updateScope f hne] at h
    exact h

theorem rebind (v : Value) (h : s.binds id name = true) : KeepsNames own es s (s.bind id name v) where
  grows := Nat.le_of_eq (size_updateScope _).symm
  names _ _ _ _ := Or.inl (binds_rebind v h)
  instances _ _ _ hopen := by
    rw [OpenInstance, isLocked_bind] at hopen
    exact hopen

/-- The only name that comes to an object is that of the member that is written. -/
theorem write (v : Value) (h : s.OpenInstance id) :
    KeepsNames own [.written id name] s (s.bind id name v) where
  grows := Nat.le_of_eq (size_updateScope _).symm
  names other _ _ n := by
    by_cases hne : id ≠ other ∨ n ≠ name
    · exact Or.inl (binds_bind v hne)
    · obtain ⟨rfl, rfl⟩ : id = other ∧ n = name := by simpa using hne
      exact Or.inr ⟨h, List.mem_singleton.mpr rfl⟩
  instances _ _ _ hopen := by
    rw [OpenInstance, isLocked_bind] at hopen
    exact hopen

theorem newObject (o : Object) (h : o.scope = own) : KeepsNames own es s (s.newObject o).2 where
  grows := Nat.le_refl _
  names _ _ _ _ := Or.inl rfl
  instances id _ hown hopen := by
    obtain ⟨hlocked, object, o', ho', hscope⟩ := hopen
    refine ⟨hlocked, object, o', ?_, hscope⟩
    rw [Store.newObject, Array.getElem?_push] at ho'
    split at ho'
    · -- the new object has the own scope
      cases ho'
      exact absurd (h.symm.trans hscope) hown
    · exact ho'

theorem change {ok : SourceFile → List Tree → Prop} (h : s.Change ok own t) :
    KeepsNames own es s t := by
  cases h with
  | arrays | newFunction | newClass => exact of_eq rfl rfl
  | newObject hscope => exact newObject _ hscope
  | rebind v hbound => exact rebind v hbound
  | declare name v hown => exact updateScope _ hown
  | @finish id hown =>
    have hlock : KeepsNames own [] s (s.lock id) := updateScope _ hown
    have hconstructor : KeepsNames own [] (s.lock id) ((s.lock id).unbind id constructorName) :=
      updateScope _ hown
    exact (hlock.trans hconstructor).trans (updateScope _ hown)

theorem changes {ok : SourceFile → List Tree → Prop} (h : s.Changes ok own t) :
    KeepsNames own [] s t := by
  induction h with
  | refl => exact refl s
  | tail _ hlast ih => exact ih.trans (change hlast)

/-- What is kept from a new scope on is kept, also if that takes names of its own. -/
theorem fresh (parent : Option ScopeId)
    (h : KeepsNames (some s.scopes.size) es (s.newScope parent).2 t) : KeepsNames own es s t := by
  have hbefore : ∀ id < s.scopes.size, (s.newScope parent).2.scope? id = s.scope? id := by
    intro id hid
    rw [scope?, newScope, Array.getElem?_push, if_neg (by omega), scope?]
  have hsize : (s.newScope parent).2.scopes.size = s.scopes.size + 1 := Array.size_push _
  have hopen : ∀ id < s.scopes.size, (s.newScope parent).2.OpenInstance id ↔ s.OpenInstance id := by
    intro id hid
    rw [OpenInstance, isLocked, hbefore id hid, OpenInstance, isLocked]
    rfl
  have hne : ∀ id < s.scopes.size, some s.scopes.size ≠ some id := by
    intro id hid he
    have := Option.some_inj.mp he
    omega
  refine ⟨by have := h.grows; omega, fun id hid _ name => ?_, fun id hid _ hinstance => ?_⟩
  · have hkept := h.names id (by omega) (hne id hid) name
    rwa [binds, get?, binds, get?, hbefore id hid, hopen id hid] at hkept
  · exact (hopen id hid).mp (h.instances id (by omega) (hne id hid) hinstance)

end KeepsNames

end Store

namespace Tree

/-- A node that declares no name where it stands: a value, a conditional, a loop or a block. -/
structure Enclosed (t : Tree) : Prop where
  shaped : t.shaped = true
  kind : t.isValue = true ∨ t.kind = .ifStatement ∨ t.kind = .whileStatement ∨ t.kind = .block

variable {t : Tree}

/-- What is evaluated in the scope of such a node declares nothing there either. -/
theorem Enclosed.asks (h : t.Enclosed) {here : Option Tree → Prop} {inside : List Tree → Prop}
    {declares : Prop} (hhere : ∀ u : Tree, u.Enclosed → here (some u)) (hinside : ∀ ts, inside ts) :
    Evaluator.Asks here inside declares t := by
  obtain ⟨kind, text, evaluated, line, children⟩ := t
  obtain ⟨hfits, hchildren⟩ := fits_of_children h.shaped
  have hkind := h.kind
  -- the parts that are evaluated have values, or are values in a list
  have hvalue {u : Tree} (hu : u ∈ children) (hv : u.isValue = true) : here (some u) :=
    hhere u ⟨hchildren u hu, Or.inl hv⟩
  have hlist {u : Tree} (hu : u ∈ children) (hk : u.kind = .expressionList) :
      ∀ w ∈ u.children, here (some w) := by
    obtain ⟨k, x, e, l, ws⟩ := u
    obtain rfl : k = .expressionList := hk
    obtain ⟨hitems, hshaped⟩ := fits_of_children (hchildren _ hu)
    exact fun w hw => hhere w ⟨hshaped w hw, Or.inl (List.all_eq_true.mp hitems w hw)⟩
  unfold fits at hfits
  dsimp only at hfits
  -- one case for each shape that fits, in their order there
  split at hfits <;> try simp only [Bool.and_eq_true, Bool.or_eq_true, hasKind_iff] at hfits
  -- the kinds that are not evaluated, and those that declare a name
  case h_1 | h_2 | h_13 | h_14 | h_15 | h_16 | h_21 | h_22 | h_28 =>
    rcases hkind with hkind | hkind | hkind | hkind <;> cases hkind
  case h_3 | h_11 | h_12 => exact hinside _
  case h_4 | h_5 | h_10 => exact ⟨hvalue (by simp) hfits.1, hvalue (by simp) hfits.2⟩
  case h_6 target value =>
    refine ⟨hvalue (by simp) hfits.2, fun hk => ?_⟩
    obtain ⟨k, x, e, l, us⟩ := target
    obtain rfl : k = .member := hk
    obtain ⟨hmember, hshaped⟩ := fits_of_children (hchildren _ List.mem_cons_self)
    rcases us with _ | ⟨object, _ | ⟨name, _ | ⟨d, rest⟩⟩⟩
    · cases hmember
    · cases hmember
    · exact hhere object ⟨hshaped object (by simp), Or.inl (Bool.and_eq_true_iff.mp hmember).1⟩
    · cases hmember
  case h_7 base indices value =>
    obtain ⟨⟨⟨⟨hbase, -⟩, hindices⟩, -⟩, hv⟩ := hfits
    have hindices := hlist (u := indices) (by simp) hindices
    exact ⟨hindices, hvalue (by simp) hv, hvalue (by simp) hbase⟩
  case h_8 callee arguments =>
    have harguments := hlist (u := arguments) (by simp) hfits.2
    exact ⟨harguments, hvalue (by simp) hfits.1⟩
  case h_9 => exact hvalue (by simp) hfits.1
  case h_17 => exact ⟨hvalue (by simp) hfits.1, hinside _, fun u hu => by cases hu⟩
  case h_18 => exact ⟨hvalue (by simp) hfits.1, hinside _⟩
  case h_19 test body other =>
    obtain ⟨⟨htest, -⟩, hother⟩ := hfits
    refine ⟨hvalue (by simp) htest, hinside _, ?_⟩
    rintro u hu -
    obtain rfl : other = u := Option.some_inj.mp hu
    refine hhere other ⟨hchildren other (by simp), ?_⟩
    rcases hother with hk | hk
    · exact Or.inr (Or.inr (Or.inr hk))
    · exact Or.inr (Or.inl hk)
  case h_20 elements => exact hlist (u := elements) (by simp) hfits
  case h_23 | h_24 | h_25 | h_26 | h_27 | h_29 => trivial
  case h_30 => cases hfits

end Tree

namespace Law

/-- Names are declared in the own scope only, and otherwise only come to objects that are being
made. Nothing is said of runs in which programs are run on the way. -/
def scoping : Law where
  node own frame t := own = some frame.scope ∨ t.Enclosed
  step own m es _ m' := (∀ b vs, .called b vs ∈ es → b.runsPrograms = false) →
    m.store.KeepsNames own es m'.store

theorem scoping_body (file : SourceFile) (ts : List Tree) : scoping.Body file ts :=
  fun _ _ _ => Or.inl rfl

theorem scoping_sound (s : Store) : s.Sound scoping.Body :=
  ⟨fun _ f _ => scoping_body f.file f.body, fun _ c _ => scoping_body c.file c.body⟩

theorem scoping_stable : scoping.Stable where
  parts := by
    intro own frame t ht
    rcases ht with hown | ht
    · refine Evaluator.asks_of_children (P := fun _ => True) (fun _ _ _ _ => trivial) ?_ ?_
        hown trivial
      · exact fun _ _ _ _ => Or.inl hown
      · exact fun ts _ => scoping_body frame.file ts
    · refine ht.asks (fun u hu w hw => ?_) (scoping_body frame.file)
      exact Or.inr (Option.some_inj.mp hw ▸ hu)
  quiet _ hchanges _ _ := .changes hchanges
  seq h h' hcalls :=
    (h fun b vs hmem => hcalls b vs (List.mem_append_left _ hmem)).trans
      (h' fun b vs hmem => hcalls b vs (List.mem_append_right _ hmem))
  fresh parent h hcalls := .fresh parent (h hcalls)
  called _ _ _ := .refl _
  written {own m object o scope name id} v ho hscope hset _ := by
    -- a name that the object has is bound anew, and any other one is written to it
    rw [Store.setIn] at hset
    split at hset
    · rename_i hbound
      cases hset
      exact .rebind v hbound
    · rw [Store.declaredIn] at hset
      split at hset
      · cases hset
      · rename_i hlocked
        cases hset
        exact .write v ⟨eq_false_of_ne_true hlocked, object, o, ho, hscope⟩
  refused _ _ := .refl _
  left _ h hcalls :=
    (h fun b vs hmem => hcalls b vs (List.mem_append_left _ hmem)).mono
      fun _ he => List.mem_append_left _ he

/-- A run in which a program is run on the way is not looked at. -/
theorem scoping_admits (host : Host) (ev : Evaluator Told) (own : Option ScopeId) (frame : Frame) :
    scoping.Admits host ev own frame := by
  intro b vs hb m _
  refine ⟨scoping_sound _, fun hcalls => ?_, fun _ _ => trivial⟩
  have hmem : .called b vs ∈ ((do
      MonadMachine.telling (fun _ => .called b vs) (pure ())
      ev.builtin host frame b vs : Told Value) m).events := List.mem_cons_self
  rw [hcalls b vs hmem] at hb
  cases hb

theorem scoping_tell (host : Host) (fuel : Nat) : scoping.Rules (tell host fuel) :=
  rules_tell scoping_stable host (fun ev _ own frame _ _ => scoping_admits host ev own frame) fuel

end Law

namespace Tree

mutual

theorem shaped_of_mem_subtrees : ∀ {t u : Tree}, t.shaped = true → u ∈ t.subtrees → u.shaped = true
  | .node kind text evaluated line children, u, h, hu => by
    rw [subtrees] at hu
    rcases List.mem_cons.mp hu with rfl | hu
    · exact h
    · rw [shaped, Bool.and_eq_true] at h
      exact shaped_of_mem_subtreesAll h.2 hu

theorem shaped_of_mem_subtreesAll : ∀ {ts : List Tree} {u : Tree}, shapedAll ts = true →
    u ∈ subtreesAll ts → u.shaped = true
  | [], u, _, hu => by cases hu
  | t :: ts, u, h, hu => by
    rw [shapedAll, Bool.and_eq_true] at h
    rw [subtreesAll] at hu
    rcases List.mem_append.mp hu with hu | hu
    · exact shaped_of_mem_subtrees h.1 hu
    · exact shaped_of_mem_subtreesAll h.2 hu

end

end Tree

/-- No built-in function is called that runs a program. -/
def RunsNoProgram (es : List Event) : Prop :=
  ∀ b vs, .called b vs ∈ es → b.runsPrograms = false

/-- Any node declares names in the scope it is evaluated in at most. -/
theorem declares_in_frame {host : Host} {fuel : Nat} {frame : Frame} {t : Tree} {m : Machine}
    (hcalls : RunsNoProgram (tell host fuel frame (some t) m).events) {id : ScopeId}
    (hid : id < m.store.scopes.size) (hne : id ≠ frame.scope) (name : String) :
    (evaluate host fuel frame (some t) m).2.store.binds id name = m.store.binds id name ∨
      m.store.OpenInstance id ∧ .written id name ∈ (tell host fuel frame (some t) m).events := by
  have hrules := Law.scoping_tell host fuel (some frame.scope) frame (some t)
    (fun _ _ => Or.inl rfl) m (Law.scoping_sound _)
  rw [← bare_tell]
  exact (hrules.step hcalls).names id hid (fun h => hne (Option.some_inj.mp h).symm) name

/-- A value, a conditional or a loop of a program leaves every scope that there was with the names
that it had, also if it fails, unless a program is run on the way. Only an object that is being made
can be given a name, by an assignment to a member. -/
theorem scopes_keep_names {file : SourceFile} {p : Program} (hp : (Program.parse file).1 = .ok p)
    {t : Tree} (ht : t ∈ p.tree.subtrees)
    (hkind : t.isValue = true ∨ t.kind = .ifStatement ∨ t.kind = .whileStatement)
    {host : Host} {fuel : Nat} {frame : Frame} {m : Machine}
    (hcalls : RunsNoProgram (tell host fuel frame (some t) m).events) {id : ScopeId}
    (hid : id < m.store.scopes.size) (name : String) :
    (evaluate host fuel frame (some t) m).2.store.binds id name = m.store.binds id name ∨
      m.store.OpenInstance id ∧ .written id name ∈ (tell host fuel frame (some t) m).events := by
  have henclosed : t.Enclosed :=
    ⟨Tree.shaped_of_mem_subtrees (Program.shaped_of_parse hp).2 ht,
      hkind.imp_right fun h => h.imp_right Or.inl⟩
  -- no scope is its own, so that nothing may be declared in any that there is
  have hrules := Law.scoping_tell host fuel none frame (some t)
    (fun u hu => Or.inr (Option.some_inj.mp hu ▸ henclosed)) m (Law.scoping_sound _)
  rw [← bare_tell]
  exact (hrules.step hcalls).names id hid nofun name

/-- A declaration in a branch. -/
def branchFile : SourceFile := ⟨"if(true){let a=true;}", "branch", "", "", true⟩

theorem scopes_keep_names_branch :
    ∃ p t, (Program.parse branchFile).1 = .ok p ∧ t ∈ p.tree.subtrees ∧ t.kind = .ifStatement ∧
      let run := tell {} 4 ⟨branchFile, Machine.rootScope⟩ (some t) (.start [])
      RunsNoProgram run.events ∧ run.machine.store.scopes.size = 2 ∧
      ((evaluate {} 4 ⟨branchFile, Machine.rootScope⟩ (some t)
          (.start [])).2.store.binds Machine.rootScope "a" =
          (Machine.start []).store.binds Machine.rootScope "a" ∨
        (Machine.start []).store.OpenInstance Machine.rootScope ∧
          .written Machine.rootScope "a" ∈ run.events) := by
  have hscan : (Token.scan branchFile.content).failure = none := by decide
  have hp := Program.parse_plain hscan
  have hbranch : ((Grammar.readProgram (Token.scan branchFile.content).tokens.toArray).root.meaning
      |>.subtrees.any fun t => t.kind = .ifStatement &&
        let run := tell {} 4 ⟨branchFile, Machine.rootScope⟩ (some t) (.start [])
        run.events.isEmpty && run.machine.store.scopes.size = 2) = true := by decide +kernel
  obtain ⟨t, ht, hrun⟩ := List.any_eq_true.mp hbranch
  simp only [Bool.and_eq_true, decide_eq_true_eq, List.isEmpty_iff] at hrun
  obtain ⟨hkind, hevents, hsize⟩ := hrun
  have hcalls : RunsNoProgram (tell {} 4 ⟨branchFile, Machine.rootScope⟩ (some t)
      (.start [])).events := by
    rw [hevents]
    exact nofun
  exact ⟨_, t, hp, ht, hkind, hcalls, hsize,
    scopes_keep_names hp ht (Or.inr (Or.inl hkind)) hcalls (Nat.zero_lt_one) "a"⟩

end ScriptKit
