import Mathlib.Logic.Relation
import Mathlib.Tactic.ByContra
import ScriptKit.Proofs.Value.Names

namespace ScriptKit

/-- A use of the scopes of a store. -/
inductive ScopeUse
  | enter (parent : Option ScopeId)
  | declare (id : ScopeId) (name : String) (v : Value)
  | write (id : ScopeId) (name : String) (v : Value)
  | set (id : ScopeId) (name : String) (v : Value)
  | unbind (id : ScopeId) (name : String)
  | lock (id : ScopeId)

namespace ScopeUse

def result (s : Store) : ScopeUse → Except Fault Store
  | enter parent => .ok (s.newScope parent).2
  | declare id name v => s.declare id name v
  | write id name v => s.write id name v
  | set id name v => s.set id name v
  | unbind id name => .ok (s.unbind id name)
  | lock id => .ok (s.lock id)

/-- What becomes of a store. A use that fails leaves it as it is. -/
def run (s : Store) (use : ScopeUse) : Store :=
  match use.result s with
  | .ok t => t
  | .error _ => s

/-- A new scope lies inside of one that is there. -/
def Legal (s : Store) : ScopeUse → Prop
  | enter parent => ∀ p ∈ parent, p < s.scopes.size
  | _ => True

end ScopeUse

namespace Store

/-- The stores whose scopes come from uses of them. -/
inductive Grown : Store → Prop
  | start {s : Store} (h : s.scopes = #[]) : Grown s
  | step {s : Store} {use : ScopeUse} (before : Grown s) (legal : use.Legal s) : Grown (use.run s)

/-- On the way outwards from one scope to another no scope before that one binds the name. -/
def Exposed (s : Store) (name : String) : ScopeId → ScopeId → Prop :=
  Relation.ReflTransGen fun inner outer =>
    s.binds inner name = false ∧ s.parentScope? inner = some outer

/-- The first scope on the way outwards that binds the name. -/
def Nearest (s : Store) (name : String) (id b : ScopeId) : Prop :=
  s.Exposed name id b ∧ s.binds b name = true

/-- In some scopes some names come to have a value. In all others every name is seen as before. -/
def Shows (s t : Store) (v : Value) (affected : ScopeId → String → Prop) : Prop :=
  ∀ id < s.scopes.size, ∀ name, (affected id name → t.lookup? id name = some v) ∧
    (¬ affected id name → t.lookup? id name = s.lookup? id name)

/-- Every scope lies inside of an older one. -/
def Outward (s : Store) : Prop :=
  ∀ id p, s.parentScope? id = some p → p < id

variable {s t : Store} {id other : ScopeId} {name : String}

section Update

theorem scope?_updateScope (f : Scope → Scope) : (s.updateScope id f).scope? other =
    if id = other then (s.scope? other).map f else s.scope? other := by
  rw [scope?, updateScope, Array.getElem?_modify]
  rfl

theorem size_updateScope (f : Scope → Scope) :
    (s.updateScope id f).scopes.size = s.scopes.size := by
  rw [updateScope, Array.size_modify]

/-- A scope that is not the changed one binds what it did. -/
theorem binds_updateScope (f : Scope → Scope) (h : id ≠ other) :
    (s.updateScope id f).binds other name = s.binds other name := by
  rw [binds, get?, scope?_updateScope, if_neg h, binds, get?]

theorem isLocked_updateScope (f : Scope → Scope) (h : id ≠ other) :
    (s.updateScope id f).isLocked other = s.isLocked other := by
  rw [isLocked, scope?_updateScope, if_neg h, isLocked]

theorem isLocked_bind (v : Value) : (s.bind id name v).isLocked other = s.isLocked other := by
  rw [bind, isLocked, scope?_updateScope, isLocked]
  split
  · cases s.scope? other <;> rfl
  · rfl

theorem get?_bind_of_ne (v : Value) {n : String} (h : id ≠ other ∨ n ≠ name) :
    (s.bind id name v).get? other n = s.get? other n := by
  rw [get?, bind, scope?_updateScope, get?]
  split
  · rename_i hid
    have hn : n ≠ name := h.resolve_left fun hne => hne hid
    cases s.scope? other with
    | none => rfl
    | some scope => simp [hn]
  · rfl

theorem get?_bind_self (v : Value) (h : id < s.scopes.size) :
    (s.bind id name v).get? id name = some v := by
  have hscope : s.scope? id = some s.scopes[id] := Array.getElem?_eq_getElem h
  rw [get?, bind, scope?_updateScope, if_pos rfl, hscope]
  simp

theorem binds_bind (v : Value) {n : String} (h : id ≠ other ∨ n ≠ name) :
    (s.bind id name v).binds other n = s.binds other n := by
  rw [binds, get?_bind_of_ne v h, binds]

theorem lt_size_of_binds (h : s.binds id name = true) : id < s.scopes.size := by
  rw [binds, get?, scope?] at h
  by_contra hge
  rw [Array.getElem?_eq_none (Nat.le_of_not_lt hge)] at h
  cases h

/-- A name that is bound stays bound. -/
theorem binds_rebind (v : Value) (h : s.binds id name = true) {n : String} :
    (s.bind id name v).binds other n = s.binds other n := by
  by_cases hne : id ≠ other ∨ n ≠ name
  · exact binds_bind v hne
  · obtain ⟨rfl, rfl⟩ : id = other ∧ n = name := by simpa using hne
    rw [h, binds, get?_bind_self v (lt_size_of_binds h)]
    rfl

/-- Scopes stay inside of those they were in. -/
theorem parentScope?_updateScope {f : Scope → Scope} (hf : ∀ scope, (f scope).parent = scope.parent) :
    (s.updateScope id f).parentScope? other = s.parentScope? other := by
  rw [parentScope?, scope?_updateScope, parentScope?]
  split
  · cases s.scope? other with
    | none => rfl
    | some scope => exact hf scope
  · rfl

theorem parentScope?_newScope (parent : Option ScopeId) :
    (s.newScope parent).2.parentScope? id =
      if id = s.scopes.size then parent else s.parentScope? id := by
  rw [parentScope?, newScope, scope?, Array.getElem?_push, parentScope?, scope?]
  split <;> rfl

end Update

/-- What comes from a check that has been passed. -/
theorem exists_of_map_eq_ok {α β ε : Type} {x : Except ε α} {f : α → β} {b : β}
    (h : x.map f = .ok b) : ∃ a, x = .ok a ∧ f a = b := by
  cases x with
  | error e => cases h
  | ok a => exact ⟨a, rfl, Except.ok.inj h⟩

theorem exists_map_eq_error {α β ε : Type} {x : Except ε α} {f : α → β} :
    (∃ e, x.map f = .error e) ↔ ∀ a, x ≠ .ok a := by
  cases x <;> simp [Except.map]

namespace Outward

theorem updateScope (h : s.Outward) {f : Scope → Scope}
    (hf : ∀ scope, (f scope).parent = scope.parent) : (s.updateScope id f).Outward := by
  intro other p hp
  rw [parentScope?_updateScope hf] at hp
  exact h other p hp

theorem newScope (h : s.Outward) {parent : Option ScopeId} (hp : ∀ p ∈ parent, p < s.scopes.size) :
    (s.newScope parent).2.Outward := by
  intro id p hid
  rw [parentScope?_newScope] at hid
  split at hid
  · rename_i hlast
    rw [hlast]
    exact hp p hid
  · exact h id p hid

/-- Binding a name where a check allows it. -/
theorem bindIn (h : s.Outward) {found : Except Fault ScopeId} {v : Value}
    (hok : (found.map fun id => s.bind id name v) = .ok t) : t.Outward := by
  obtain ⟨id, -, rfl⟩ := exists_of_map_eq_ok hok
  exact h.updateScope fun _ => rfl

theorem run (h : s.Outward) {use : ScopeUse} (legal : use.Legal s) : (use.run s).Outward := by
  rw [ScopeUse.run]
  split
  · rename_i t hresult
    cases use with
    | enter parent =>
      obtain rfl := Except.ok.inj hresult
      exact h.newScope legal
    | declare | write | set => exact h.bindIn hresult
    | unbind | lock =>
      obtain rfl := Except.ok.inj hresult
      exact h.updateScope fun _ => rfl
  · exact h

end Outward

theorem Grown.outward (h : s.Grown) : s.Outward := by
  induction h with
  | start hnone =>
    intro id p hp
    rw [parentScope?, scope?, hnone] at hp
    cases hp
  | step _ legal ih => exact ih.run legal

section Lookup

variable {b : ScopeId}

theorem chainFrom_none (fuel : Nat) : s.chainFrom fuel none = [] := by
  cases fuel <;> rfl

theorem chainFrom_updateScope {f : Scope → Scope} (hf : ∀ scope, (f scope).parent = scope.parent)
    (fuel : Nat) : ∀ start, (s.updateScope id f).chainFrom fuel start = s.chainFrom fuel start := by
  induction fuel with
  | zero =>
    intro start
    rfl
  | succ fuel ih =>
    intro start
    cases start with
    | none => rw [chainFrom_none, chainFrom_none]
    | some inner => rw [chainFrom, chainFrom, ih, parentScope?_updateScope hf]

theorem chain_updateScope {f : Scope → Scope} (hf : ∀ scope, (f scope).parent = scope.parent) :
    (s.updateScope id f).chain other = s.chain other := by
  rw [chain, size_updateScope, chainFrom_updateScope hf, chain]

theorem chain_bind (v : Value) : (s.bind id name v).chain other = s.chain other :=
  chain_updateScope fun _ => rfl

theorem nearest_of_binds (h : s.binds id name = true) : s.Nearest name id b ↔ id = b := by
  constructor
  · rintro ⟨hexposed, -⟩
    rcases Relation.ReflTransGen.cases_head hexposed with heq | ⟨outer, ⟨hfree, -⟩, -⟩
    · exact heq
    · rw [h] at hfree
      cases hfree
  · rintro rfl
    exact ⟨.refl, h⟩

theorem nearest_of_parent {outer : ScopeId} (h : s.binds id name = false)
    (hp : s.parentScope? id = some outer) : s.Nearest name id b ↔ s.Nearest name outer b := by
  constructor
  · rintro ⟨hexposed, hb⟩
    rcases Relation.ReflTransGen.cases_head hexposed with rfl | ⟨next, ⟨-, hnext⟩, hrest⟩
    · rw [h] at hb
      cases hb
    · rw [hp] at hnext
      obtain rfl := Option.some.inj hnext
      exact ⟨hrest, hb⟩
  · rintro ⟨hexposed, hb⟩
    exact ⟨.head ⟨h, hp⟩ hexposed, hb⟩

theorem not_nearest (h : s.binds id name = false) (hp : s.parentScope? id = none) :
    ¬ s.Nearest name id b := by
  rintro ⟨hexposed, hb⟩
  rcases Relation.ReflTransGen.cases_head hexposed with rfl | ⟨next, ⟨-, hnext⟩, -⟩
  · rw [h] at hb
    cases hb
  · rw [hp] at hnext
    cases hnext

/-- As far as scopes lie in older ones, the fuel of a chain does not run out before the outermost. -/
theorem find?_chainFrom (h : s.Outward) (fuel : Nat) : ∀ {id : ScopeId}, id < fuel →
    ((s.chainFrom fuel (some id)).find? (fun scope => s.binds scope name) = some b ↔
      s.Nearest name id b) := by
  induction fuel with
  | zero =>
    intro id hid
    exact absurd hid (Nat.not_lt_zero id)
  | succ fuel ih =>
    intro id hid
    rw [chainFrom, List.find?_cons]
    cases hbinds : s.binds id name with
    | true =>
      rw [nearest_of_binds hbinds]
      exact Option.some_inj
    | false =>
      cases hp : s.parentScope? id with
      | none =>
        rw [chainFrom_none]
        exact iff_of_false nofun (not_nearest hbinds hp)
      | some outer =>
        -- the outer scope is older, so one round less is enough for it
        rw [nearest_of_parent hbinds hp]
        exact ih (Nat.lt_of_lt_of_le (h id outer hp) (Nat.le_of_lt_succ hid))

theorem binder?_eq_some_iff (h : s.Outward) (hid : id < s.scopes.size) :
    s.binder? id name = some b ↔ s.Nearest name id b :=
  find?_chainFrom h s.scopes.size hid

/-- What is seen in two stores is the same if it is bound in the same scopes to the same values. -/
theorem lookup?_congr (hbinder : t.binder? id name = s.binder? id name)
    (hget : ∀ b, s.binder? id name = some b → t.get? b name = s.get? b name) :
    t.lookup? id name = s.lookup? id name := by
  rw [lookup?, lookup?, hbinder]
  cases hb : s.binder? id name with
  | none => rfl
  | some b => exact hget b hb

theorem lookup?_of_binder? (hb : s.binder? id name = some b) : s.lookup? id name = s.get? b name := by
  rw [lookup?, hb]
  rfl

theorem lookup?_eq_none_iff : s.lookup? id name = none ↔ s.binder? id name = none := by
  refine ⟨fun h => ?_, fun h => by rw [lookup?, h]; rfl⟩
  by_contra hsome
  obtain ⟨b, hb⟩ := Option.ne_none_iff_exists'.mp hsome
  have hbinds : s.binds b name = true := by simpa using List.find?_some hb
  rw [lookup?_of_binder? hb] at h
  rw [binds, h] at hbinds
  cases hbinds

end Lookup

section Write

variable {b : ScopeId}

/-- A value written to a name is seen wherever the same binding of the name is seen. -/
theorem shows_write (h : s.Outward) (hid : id < s.scopes.size) (hb : s.binder? id name = some b)
    (v : Value) : s.Shows (s.bind b name v) v fun other n =>
      n = name ∧ ∃ b, s.Nearest name id b ∧ s.Nearest name other b := by
  have hbinds : s.binds b name = true := by simpa using List.find?_some hb
  have hnearest : s.Nearest name id b := (binder?_eq_some_iff h hid).mp hb
  have hbinder : ∀ other n, (s.bind b name v).binder? other n = s.binder? other n := by
    intro other n
    have hsame : (fun scope => (s.bind b name v).binds scope n) = fun scope => s.binds scope n :=
      funext fun scope => binds_rebind v hbinds
    rw [binder?, chain_bind, hsame, binder?]
  intro other hother n
  constructor
  · rintro ⟨rfl, b', hb', hob'⟩
    have hsame : s.binder? id n = some b' := (binder?_eq_some_iff h hid).mpr hb'
    obtain rfl : b = b' := Option.some.inj (hb.symm.trans hsame)
    -- the name stays bound in the same scopes, so it is found where it was
    have hfound : (s.bind b n v).binder? other n = some b := by
      rw [hbinder]
      exact (binder?_eq_some_iff h hother).mpr hob'
    rw [lookup?_of_binder? hfound]
    exact get?_bind_self v (lt_size_of_binds hbinds)
  · intro hunaffected
    refine lookup?_congr (hbinder other n) fun b' hb' => get?_bind_of_ne v ?_
    by_contra hsame
    obtain ⟨rfl, rfl⟩ : b = b' ∧ n = name := by simpa using hsame
    exact hunaffected ⟨rfl, b, hnearest, (binder?_eq_some_iff h hother).mp hb'⟩

end Write

section Declare

variable {b : ScopeId} {v : Value}

theorem parentScope?_bind : (s.bind id name v).parentScope? other = s.parentScope? other :=
  parentScope?_updateScope fun _ => rfl

theorem binds_bind_self (hid : id < s.scopes.size) : (s.bind id name v).binds id name = true := by
  rw [binds, get?_bind_self v hid]
  rfl

/-- From where the way to the scope is free, it is the nearest one once it binds the name. -/
theorem Exposed.nearest_bind (hid : id < s.scopes.size) (h : s.Exposed name other id) :
    (s.bind id name v).Nearest name other id := by
  induction h using Relation.ReflTransGen.head_induction_on with
  | refl => exact ⟨.refl, binds_bind_self hid⟩
  | @head inner outer hstep _ ih =>
    -- the way from a scope may lead through the scope itself only if it starts there
    by_cases hself : inner = id
    · rw [hself]
      exact ⟨.refl, binds_bind_self hid⟩
    · have hfree : (s.bind id name v).binds inner name = false := by
        rw [binds_bind v (Or.inl (Ne.symm hself)), hstep.1]
      exact (nearest_of_parent hfree (parentScope?_bind.trans hstep.2)).mpr ih

/-- From elsewhere the nearest scope is the one that it was. -/
theorem nearest_bind (hnot : ¬ s.Exposed name other id) :
    (s.bind id name v).Nearest name other b ↔ s.Nearest name other b := by
  have hkeep : ∀ x, x ≠ id → (s.bind id name v).binds x name = s.binds x name :=
    fun x hx => binds_bind v (Or.inl (Ne.symm hx))
  constructor
  -- along the way each scope is another than the one that binds, so it still leads on as it did
  · rintro ⟨hexposed, hb⟩
    induction hexposed using Relation.ReflTransGen.head_induction_on with
    | refl =>
      have hne : b ≠ id := fun he => hnot (he ▸ .refl)
      exact ⟨.refl, (hkeep b hne).symm.trans hb⟩
    | @head inner outer hstep _ ih =>
      have hne : inner ≠ id := fun he => hnot (he ▸ .refl)
      have hfree : s.binds inner name = false := (hkeep inner hne).symm.trans hstep.1
      have hparent : s.parentScope? inner = some outer := parentScope?_bind.symm.trans hstep.2
      exact (nearest_of_parent hfree hparent).mpr (ih fun ho => hnot (.head ⟨hfree, hparent⟩ ho))
  · rintro ⟨hexposed, hb⟩
    induction hexposed using Relation.ReflTransGen.head_induction_on with
    | refl =>
      have hne : b ≠ id := fun he => hnot (he ▸ .refl)
      exact ⟨.refl, (hkeep b hne).trans hb⟩
    | @head inner outer hstep _ ih =>
      have hne : inner ≠ id := fun he => hnot (he ▸ .refl)
      refine (nearest_of_parent ((hkeep inner hne).trans hstep.1)
        (parentScope?_bind.trans hstep.2)).mpr (ih fun ho => hnot (.head hstep ho))

/-- A declared value is seen wherever the way to its scope is free. -/
theorem shows_declare (h : s.Outward) (hid : id < s.scopes.size) (v : Value) :
    s.Shows (s.bind id name v) v fun other n => n = name ∧ s.Exposed name other id := by
  have hout : (s.bind id name v).Outward := h.updateScope fun _ => rfl
  intro other hother n
  have hother' : other < (s.bind id name v).scopes.size := by
    rw [bind, size_updateScope]
    exact hother
  constructor
  · rintro ⟨rfl, hexposed⟩
    have hnearest := (binder?_eq_some_iff hout hother').mpr (hexposed.nearest_bind (v := v) hid)
    rw [lookup?_of_binder? hnearest]
    exact get?_bind_self v hid
  -- another name is found where it was, and so is this one where it does not lead to the scope
  · intro hunaffected
    by_cases hn : n = name
    · subst hn
      have hnot : ¬ s.Exposed n other id := fun hexposed => hunaffected ⟨rfl, hexposed⟩
      refine lookup?_congr (Option.ext fun b => ?_) fun b hb => get?_bind_of_ne v (Or.inl ?_)
      · rw [binder?_eq_some_iff hout hother', binder?_eq_some_iff h hother, nearest_bind hnot]
      · rintro rfl
        exact hnot ((binder?_eq_some_iff h hother).mp hb).1
    · have hbinds : (fun scope => (s.bind id name v).binds scope n) = fun scope => s.binds scope n :=
        funext fun scope => binds_bind v (Or.inr hn)
      refine lookup?_congr ?_ fun b _ => get?_bind_of_ne v (Or.inr hn)
      rw [binder?, chain_bind, hbinds, binder?]

end Declare

/-- How what is done to a name in one scope bears on what is seen from every scope. -/
structure Resolves (s : Store) (id : ScopeId) (name : String) (v : Value) : Prop where
  write_fails : (∃ fault, s.write id name v = .error fault) ↔ s.lookup? id name = none
  written : ∀ t, s.write id name v = .ok t → s.Shows t v fun other n =>
    n = name ∧ ∃ b, s.Nearest name id b ∧ s.Nearest name other b
  declare_fails : (∃ fault, s.declare id name v = .error fault) ↔ s.isLocked id = true
  declared : ∀ t, s.declare id name v = .ok t → s.Shows t v fun other n =>
    n = name ∧ s.Exposed name other id
  set_fails : (∃ fault, s.set id name v = .error fault) ↔
    s.isLocked id = true ∧ s.binds id name = false
  failed : ∀ (use : ScopeUse) fault, use.result s = .error fault → use.run s = s

theorem writtenIn_eq_ok_iff {b : ScopeId} :
    s.writtenIn id name = .ok b ↔ s.binder? id name = some b := by
  rw [writtenIn]
  cases s.binder? id name <;> simp

theorem declaredIn_eq_ok_iff {b : ScopeId} :
    s.declaredIn id name = .ok b ↔ s.isLocked id = false ∧ id = b := by
  rw [declaredIn]
  cases s.isLocked id <;> simp

/-- The law of resolution, in every store whose scopes come from uses of them. -/
theorem scopes_resolve (h : s.Grown) (hid : id < s.scopes.size) (name : String) (v : Value) :
    s.Resolves id name v where
  write_fails := by
    rw [write, exists_map_eq_error, lookup?_eq_none_iff, Option.eq_none_iff_forall_ne_some]
    exact forall_congr' fun b => not_congr writtenIn_eq_ok_iff
  written t ht := by
    obtain ⟨b, hfound, rfl⟩ := exists_of_map_eq_ok ht
    exact shows_write h.outward hid (writtenIn_eq_ok_iff.mp hfound) v
  declare_fails := by
    rw [declare, exists_map_eq_error, declaredIn]
    cases s.isLocked id <;> simp
  declared t ht := by
    obtain ⟨b, hfound, rfl⟩ := exists_of_map_eq_ok ht
    obtain ⟨-, rfl⟩ := declaredIn_eq_ok_iff.mp hfound
    exact shows_declare h.outward hid v
  set_fails := by
    rw [set, exists_map_eq_error, setIn, declaredIn]
    cases s.isLocked id <;> cases s.binds id name <;> simp
  failed use fault hfault := by rw [ScopeUse.run, hfault]

/-- Three scopes one inside of the other, a fourth beside them, and a name that is bound in the
outermost and in the one inside of that, which is locked. -/
def shadowed : Store :=
  [.enter none, .enter (some 0), .enter (some 1), .enter (some 0), .declare 0 "x" .null,
    .declare 1 "x" (.boolean true), .lock 1].foldl ScopeUse.run empty

theorem scopes_resolve_shadowed : shadowed.Grown ∧ 2 < shadowed.scopes.size ∧
    shadowed.Resolves 2 "x" (.boolean false) := by
  have hgrown : shadowed.Grown := by
    have hinside : ∀ {p : ScopeId} {s : Store}, p < s.scopes.size →
        (ScopeUse.enter (some p)).Legal s := by
      rintro p s hp _ ⟨⟩
      exact hp
    have hfirst : (ScopeUse.run empty (.enter none)).Grown := (Grown.start rfl).step nofun
    have hscopes := ((hfirst.step (hinside (p := 0) (by decide))).step
      (hinside (p := 1) (by decide))).step (hinside (p := 0) (by decide))
    have houter : (ScopeUse.run _ (.declare 0 "x" .null)).Grown := hscopes.step trivial
    have hinner : (ScopeUse.run _ (.declare 1 "x" (.boolean true))).Grown := houter.step trivial
    have hlocked : (ScopeUse.run _ (.lock 1)).Grown := hinner.step trivial
    exact hlocked
  have hsize : 2 < shadowed.scopes.size := by decide
  exact ⟨hgrown, hsize, scopes_resolve hgrown hsize "x" (.boolean false)⟩

end Store

end ScriptKit
