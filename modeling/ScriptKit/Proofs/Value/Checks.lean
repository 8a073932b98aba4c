import ScriptKit.Proofs.Value.Store

namespace ScriptKit

/-- A fault that a value or a name gives rise to, not the shape of a program. -/
def Fault.Ordinary (f : Fault) : Prop :=
  ∀ k, f ≠ .cannotAssign k ∧ f ≠ .cannotEvaluate k

/-- What a check gives if it succeeds; if it fails, its fault is an ordinary one. -/
def Checked {α : Type} (Q : α → Prop) : Except Fault α → Prop
  | .ok a => Q a
  | .error f => f.Ordinary

namespace Checked

variable {α β : Type} {Q : α → Prop} {R : β → Prop}

theorem of_fault {f : Fault} (hassign : ∀ k, f ≠ .cannotAssign k)
    (hevaluate : ∀ k, f ≠ .cannotEvaluate k) : Checked Q (.error f) :=
  fun k => ⟨hassign k, hevaluate k⟩

theorem imp {x : Except Fault α} {R : α → Prop} (h : Checked Q x) (hQR : ∀ a, Q a → R a) :
    Checked R x := by
  cases x with
  | ok a => exact hQR a h
  | error f => exact h

theorem map {x : Except Fault α} {f : α → β} (h : Checked Q x) (hf : ∀ a, Q a → R (f a)) :
    Checked R (x.map f) := by
  cases x with
  | ok a => exact hf a h
  | error e => exact h

theorem bind {x : Except Fault α} {f : α → Except Fault β} (h : Checked Q x)
    (hf : ∀ a, Q a → Checked R (f a)) : Checked R (x >>= f) := by
  cases x with
  | ok a => exact hf a h
  | error e => exact h

end Checked

/-- Whether a value, or all of the elements, have a property. -/
def Computed.Holds (P : Value → Prop) : Computed → Prop
  | value v => P v
  | elements vs => ∀ v ∈ vs, P v
  | overflow => True

namespace Store

variable {s : Store} {P : Value → Prop} {name : String}

theorem checked_declaredIn (s : Store) (id : ScopeId) (name : String) :
    Checked (fun id => s.binds id name = true ∨ s.isLocked id = false) (s.declaredIn id name) := by
  rw [declaredIn]
  split
  · exact Checked.of_fault nofun nofun
  · rename_i h
    exact Or.inr (eq_false_of_ne_true h)

theorem checked_writtenIn (s : Store) (id : ScopeId) (name : String) :
    Checked (fun id => s.binds id name = true ∨ s.isLocked id = false) (s.writtenIn id name) := by
  rw [writtenIn]
  split
  · rename_i scope h
    rw [binder?] at h
    exact Or.inl (by simpa using List.find?_some h)
  · exact Checked.of_fault nofun nofun

theorem checked_setIn (s : Store) (id : ScopeId) (name : String) :
    Checked (fun id => s.binds id name = true ∨ s.isLocked id = false) (s.setIn id name) := by
  rw [setIn]
  split
  · rename_i h
    exact Or.inl h
  · exact checked_declaredIn s id name

theorem checked_read (h : s.Holds P) (id : ScopeId) (name : String) :
    Checked P (s.read id name) := by
  rw [read]
  split
  · rename_i v hv
    exact h.of_lookup? hv
  · exact Checked.of_fault nofun nofun

theorem checked_position (length : Nat) (v : Value) :
    Checked (fun _ => True) (position length v) := by
  unfold position
  split
  · split
    · exact Checked.of_fault nofun nofun
    · split
      · exact Checked.of_fault nofun nofun
      · trivial
  · exact Checked.of_fault nofun nofun

theorem checked_cell (s : Store) (target i : Value) :
    Checked (fun _ => True) (s.cell target i) := by
  unfold cell
  split
  · exact (checked_position _ i).map fun _ _ => trivial
  · exact Checked.of_fault nofun nofun

theorem checked_index (h : s.Holds P) (hnull : P .null) (target i : Value) :
    Checked P (s.index target i) := by
  refine (checked_cell s target i).map fun (id, k) _ => ?_
  show P (s.element id k)
  rw [element, Array.getD_eq_getD_getElem?]
  cases hk : (s.elements id)[k]? with
  | none => exact hnull
  | some v => exact h.of_elements (Array.mem_of_getElem? hk)

theorem checked_indexAll (h : s.Holds P) (hnull : P .null) :
    ∀ (indices : List Value) {target : Value}, P target → Checked P (s.indexAll target indices)
  | [], _, htarget => htarget
  | i :: rest, target, _ =>
    (checked_index h hnull target i).bind fun _ hv => checked_indexAll h hnull rest hv

theorem checked_innerCell (s : Store) : ∀ (rest : List Value) (target i : Value),
    Checked (fun _ => True) (s.innerCell target i rest)
  | [], target, i => checked_cell s target i
  | next :: rest, target, i =>
    (checked_index (P := fun _ => True) ⟨fun _ _ _ _ _ => trivial, fun _ _ _ _ _ => trivial⟩
      trivial target i).bind fun v _ => checked_innerCell s rest v next

theorem checked_repeatString {P : Value → Prop} (hP : ∀ v, v ≠ .absent → P v) (t : String)
    (n : Float) : Checked (Computed.Holds P) (repeatString t n) := by
  rw [repeatString]
  split
  · exact Checked.of_fault nofun nofun
  split
  · trivial
  · exact hP _ nofun

/-- What an operator makes is there, and elements are those of the operands. -/
theorem checked_compute (h : s.Holds P) (hP : ∀ v, v ≠ .absent → P v) (op : String) (l r : Value) :
    Checked (Computed.Holds P) (s.compute op l r) := by
  unfold compute
  split
  · exact hP _ nofun
  · exact hP _ nofun
  · exact hP _ nofun
  · exact fun v hv => (Array.mem_append.mp hv).elim h.of_elements h.of_elements
  · exact checked_repeatString hP _ _
  · exact checked_repeatString hP _ _
  · exact Checked.of_fault nofun nofun

theorem checked_decideOrder (op : String) (order : Ordering) :
    Checked (· ≠ .absent) (decideOrder op order) := by
  unfold decideOrder
  split
  · exact nofun
  · exact nofun
  · exact nofun
  · exact nofun
  · exact Checked.of_fault nofun nofun

theorem checked_compare (s : Store) (op : String) (l r : Value) :
    Checked (· ≠ .absent) (s.compare op l r) := by
  unfold compare
  split
  · exact nofun
  · exact nofun
  · split
    · exact checked_decideOrder _ _
    · split
      · exact checked_decideOrder _ _
      · split
        · exact checked_decideOrder _ _
        · exact nofun
  · exact checked_decideOrder _ _
  · exact Checked.of_fault nofun nofun

end Store

end ScriptKit
