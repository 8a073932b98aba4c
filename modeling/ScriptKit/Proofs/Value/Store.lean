import ScriptKit.Evaluation.Call

namespace ScriptKit

namespace NameTable

variable {α : Type} {t : NameTable α} {name other : String} {value : α}

theorem contains_iff : t.contains name = true ↔ name ∈ t.names := by
  obtain ⟨entries⟩ := t
  simp only [contains, find?, names]
  induction entries with
  | nil => simp
  | cons e entries ih =>
    obtain ⟨n, v⟩ := e
    rw [List.lookup_cons, List.map_cons, List.mem_cons]
    by_cases h : name = n
    · simp [h]
    · rw [beq_eq_false_iff_ne.mpr h, ih]
      simp [h]

theorem find?_eq_none (h : name ∉ t.names) : t.find? name = none := by
  rw [← contains_iff, contains, Bool.not_eq_true, Option.isSome_eq_false_iff] at h
  exact Option.isNone_iff_eq_none.mp h

theorem mem_of_find? (h : t.find? name = some value) : (name, value) ∈ t.entries := by
  obtain ⟨before, after, heq, -⟩ := List.lookup_eq_some_iff.mp h
  rw [heq]
  exact List.mem_append_right _ List.mem_cons_self

theorem mem_insert {e : String × α} (h : e ∈ (t.insert name value).entries) :
    e = (name, value) ∨ e ∈ t.entries := by
  rw [insert] at h
  split at h
  · obtain ⟨d, hd, rfl⟩ := List.mem_map.mp h
    split
    · exact Or.inl rfl
    · exact Or.inr hd
  · rcases List.mem_append.mp h with h | h
    · exact Or.inr h
    · exact Or.inl (List.mem_singleton.mp h)

theorem mem_erase {e : String × α} (h : e ∈ (t.erase name).entries) :
    e ∈ t.entries ∧ e.1 ≠ name :=
  let ⟨hmem, hne⟩ := List.mem_filter.mp h
  ⟨hmem, of_decide_eq_true hne⟩

/-- A name that is there keeps its place among the names. -/
theorem names_insert (h : name ∈ t.names) : (t.insert name value).names = t.names := by
  rw [insert, if_pos (contains_iff.mpr h), names, names, List.map_map]
  refine List.map_congr_left fun e _ => ?_
  by_cases he : e.1 = name <;> simp [he]

theorem names_erase (h : name ∉ t.names) : (t.erase name).names = t.names := by
  have hkeep : t.entries.filter (fun e => e.1 ≠ name) = t.entries :=
    List.filter_eq_self.mpr fun e he => decide_eq_true fun hn =>
      h (List.mem_map.mpr ⟨e, he, hn⟩)
  rw [erase, names, names, hkeep]

theorem not_mem_names_erase : name ∉ (t.erase name).names := fun h =>
  let ⟨_, he, hn⟩ := List.mem_map.mp h
  (mem_erase he).2 hn

theorem mem_names_erase (h : other ∈ (t.erase name).names) : other ∈ t.names :=
  let ⟨e, he, hn⟩ := List.mem_map.mp h
  List.mem_map.mpr ⟨e, (mem_erase he).1, hn⟩

end NameTable

open Evaluator (constructorName argumentsName)

/-- The scope of an object that has been made: no name can be added to it, and neither the
constructor nor its arguments are left in it. -/
structure Scope.Sealed (scope : Scope) : Prop where
  locked : scope.locked = true
  noConstructor : constructorName ∉ scope.bindings.names
  noArguments : argumentsName ∉ scope.bindings.names

namespace Store

/-- What becomes of a store while programs run: an object keeps its class and its scope, and a
sealed scope stays sealed with the names it has. -/
structure Later (s s' : Store) : Prop where
  objects : ∀ (id : ObjectId) object, s.objects[id]? = some object → s'.objects[id]? = some object
  scopes : ∀ (id : ScopeId) scope, s.scopes[id]? = some scope →
    ∃ scope', s'.scopes[id]? = some scope' ∧
      (scope.Sealed → scope'.Sealed ∧ scope'.bindings.names = scope.bindings.names)

/-- A property that all values in the scopes and the arrays have. -/
structure Holds (P : Value → Prop) (s : Store) : Prop where
  bound : ∀ (id : ScopeId) scope, s.scopes[id]? = some scope →
    ∀ e ∈ scope.bindings.entries, P e.2
  stored : ∀ (id : ArrayId) elements, s.arrays[id]? = some elements → ∀ v ∈ elements, P v

variable {s t u : Store} {P : Value → Prop}

namespace Later

theorem refl (s : Store) : s.Later s :=
  ⟨fun _ _ h => h, fun _ scope h => ⟨scope, h, fun hs => ⟨hs, rfl⟩⟩⟩

theorem trans (h : s.Later t) (h' : t.Later u) : s.Later u where
  objects id object ho := h'.objects id object (h.objects id object ho)
  scopes id scope hs := by
    obtain ⟨scope', ht, hst⟩ := h.scopes id scope hs
    obtain ⟨scope'', hu, htu⟩ := h'.scopes id scope' ht
    refine ⟨scope'', hu, fun hsealed => ?_⟩
    obtain ⟨hsealed', hnames⟩ := hst hsealed
    exact ⟨(htu hsealed').1, (htu hsealed').2.trans hnames⟩

theorem of_eq (hobjects : t.objects = s.objects) (hscopes : t.scopes = s.scopes) : s.Later t where
  objects id object h := by rwa [hobjects]
  scopes id scope h := ⟨scope, by rwa [hscopes], fun hs => ⟨hs, rfl⟩⟩

theorem newScope (s : Store) (parent : Option ScopeId) : s.Later (s.newScope parent).2 where
  objects _ _ h := h
  scopes id scope h := by
    refine ⟨scope, ?_, fun hs => ⟨hs, rfl⟩⟩
    rw [Store.newScope, Array.getElem?_push, if_neg, h]
    have := (Array.getElem?_eq_some_iff.mp h).1
    omega

theorem newObject (s : Store) (o : Object) : s.Later (s.newObject o).2 where
  objects id object h := by
    rw [Store.newObject, Array.getElem?_push, if_neg, h]
    have := (Array.getElem?_eq_some_iff.mp h).1
    omega
  scopes _ scope h := ⟨scope, h, fun hs => ⟨hs, rfl⟩⟩

/-- A scope is changed, but not what a sealed one stands for. -/
theorem updateScope {id : ScopeId} {f : Scope → Scope}
    (hf : ∀ scope, s.scopes[id]? = some scope → scope.Sealed →
      (f scope).Sealed ∧ (f scope).bindings.names = scope.bindings.names) :
    s.Later (s.updateScope id f) where
  objects _ _ h := h
  scopes id' scope h := by
    rw [Store.updateScope, Array.getElem?_modify]
    split
    · rename_i hid
      subst hid
      exact ⟨f scope, by rw [h]; rfl, hf scope h⟩
    · exact ⟨scope, h, fun hs => ⟨hs, rfl⟩⟩

/-- A name is bound that is bound already, or in a scope that is not locked. -/
theorem bind {id : ScopeId} {name : String} (v : Value)
    (h : s.binds id name = true ∨ s.isLocked id = false) : s.Later (s.bind id name v) := by
  refine updateScope fun scope hscope hs => ?_
  have hmem : name ∈ scope.bindings.names := by
    rcases h with h | h
    · rw [binds, get?, scope?, hscope] at h
      exact NameTable.contains_iff.mp h
    · rw [isLocked, scope?, hscope, Option.any_some, hs.locked] at h
      cases h
  have hnames : (scope.bindings.insert name v).names = scope.bindings.names :=
    NameTable.names_insert hmem
  exact ⟨⟨hs.locked, hnames ▸ hs.noConstructor, hnames ▸ hs.noArguments⟩, hnames⟩

theorem lock (s : Store) (id : ScopeId) : s.Later (s.lock id) :=
  updateScope fun _ _ hs => ⟨⟨rfl, hs.noConstructor, hs.noArguments⟩, rfl⟩

/-- A sealed scope has nothing left to lose. -/
theorem unbind (s : Store) (id : ScopeId) {name : String}
    (h : name = constructorName ∨ name = argumentsName) : s.Later (s.unbind id name) := by
  refine updateScope fun scope _ hs => ?_
  have hnames : (scope.bindings.erase name).names = scope.bindings.names := by
    rcases h with rfl | rfl
    · exact NameTable.names_erase hs.noConstructor
    · exact NameTable.names_erase hs.noArguments
  exact ⟨⟨hs.locked, hnames ▸ hs.noConstructor, hnames ▸ hs.noArguments⟩, hnames⟩

end Later

namespace Holds

theorem newScope (h : s.Holds P) (parent : Option ScopeId) : (s.newScope parent).2.Holds P where
  bound id scope hscope := by
    rw [Store.newScope, Array.getElem?_push] at hscope
    split at hscope
    · cases hscope
      intro e he
      cases he
    · exact h.bound id scope hscope
  stored := h.stored

theorem newArray (h : s.Holds P) {elements : Array Value} (he : ∀ v ∈ elements, P v) :
    (s.newArray elements).2.Holds P where
  bound := h.bound
  stored id elements' harray := by
    rw [Store.newArray, Array.getElem?_push] at harray
    split at harray
    · cases harray
      exact he
    · exact h.stored id elements' harray

theorem setElement (h : s.Holds P) {v : Value} (hv : P v) (id : ArrayId) (i : Nat) :
    (s.setElement id i v).Holds P where
  bound := h.bound
  stored id' elements harray := by
    rw [Store.setElement, Array.getElem?_modify] at harray
    split at harray
    · obtain ⟨before, hbefore, rfl⟩ := Option.map_eq_some_iff.mp harray
      intro w hw
      rcases Array.mem_or_eq_of_mem_setIfInBounds hw with hw | rfl
      · exact h.stored id' before hbefore w hw
      · exact hv
    · exact h.stored id' elements harray

theorem updateScope (h : s.Holds P) {id : ScopeId} {f : Scope → Scope}
    (hf : ∀ scope, (∀ e ∈ scope.bindings.entries, P e.2) →
      ∀ e ∈ (f scope).bindings.entries, P e.2) : (s.updateScope id f).Holds P where
  bound id' scope hscope := by
    rw [Store.updateScope, Array.getElem?_modify] at hscope
    split at hscope
    · obtain ⟨before, hbefore, rfl⟩ := Option.map_eq_some_iff.mp hscope
      exact hf before (h.bound id' before hbefore)
    · exact h.bound id' scope hscope
  stored := h.stored

theorem bind (h : s.Holds P) (id : ScopeId) (name : String) {v : Value} (hv : P v) :
    (s.bind id name v).Holds P :=
  h.updateScope fun _ hscope e he => by
    rcases NameTable.mem_insert he with rfl | he
    · exact hv
    · exact hscope e he

theorem lock (h : s.Holds P) (id : ScopeId) : (s.lock id).Holds P :=
  h.updateScope fun _ hscope => hscope

theorem unbind (h : s.Holds P) (id : ScopeId) (name : String) : (s.unbind id name).Holds P :=
  h.updateScope fun _ hscope e he => hscope e (NameTable.mem_erase he).1

theorem of_get? (h : s.Holds P) {id : ScopeId} {name : String} {v : Value}
    (hv : s.get? id name = some v) : P v := by
  obtain ⟨scope, hscope, hfind⟩ := Option.bind_eq_some_iff.mp hv
  exact h.bound id scope hscope _ (NameTable.mem_of_find? hfind)

theorem of_lookup? (h : s.Holds P) {id : ScopeId} {name : String} {v : Value}
    (hv : s.lookup? id name = some v) : P v :=
  let ⟨_, _, hget⟩ := Option.bind_eq_some_iff.mp hv
  h.of_get? hget

theorem of_elements (h : s.Holds P) {id : ArrayId} {v : Value} (hv : v ∈ s.elements id) :
    P v := by
  rw [elements, Array.getD_eq_getD_getElem?] at hv
  cases harray : s.arrays[id]? with
  | none =>
    rw [harray] at hv
    exact absurd hv (Array.not_mem_empty v)
  | some elements =>
    rw [harray] at hv
    exact h.stored id elements harray v hv

end Holds

end Store

end ScriptKit
