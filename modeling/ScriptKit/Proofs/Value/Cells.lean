import ScriptKit.Proofs.Number.Rounding
import ScriptKit.Value.Index

namespace ScriptKit.Store

variable {s : Store} {a b : ArrayId} {i target v : Value} {j k n : Nat}

/-- An index that is checked is one of the array, however long it is: that the length is rounded
when it becomes a number does not let an index pass that is not below it. -/
theorem position_lt (h : position n v = .ok k) : k < n := by
  rw [position.eq_def] at h
  split at h
  · rename_i x
    split at h
    · cases h
    rename_i hintegral
    split at h
    · cases h
    rename_i hbounds
    simp only [Bool.or_eq_true, decide_eq_true_eq, not_or] at hbounds
    obtain ⟨hneg, hlength⟩ := hbounds
    have hnan : x.isNaN = false := by
      simp only [Number.isIntegral, Bool.not_eq_true', Bool.not_eq_false, Bool.and_eq_true]
        at hintegral
      exact hintegral.1
    cases h
    by_contra hle
    exact hlength (Number.ofNat_le hnan hneg (Nat.le_of_not_lt hle))
  · cases h

theorem cell_eq_ok (h : s.cell target i = .ok (a, k)) :
    target = .array a ∧ position (s.elements a).size i = .ok k := by
  cases target with
  | array id =>
    rw [cell] at h
    cases hposition : position (s.elements id).size i with
    | error f =>
      rw [hposition] at h
      cases h
    | ok i =>
      rw [hposition] at h
      cases h
      exact ⟨rfl, hposition⟩
  | absent | null | number | string | boolean | function | classValue | object => cases h

theorem indexAll_cons (s : Store) (target i : Value) (rest : List Value) :
    s.indexAll target (i :: rest) = s.index target i >>= fun v => s.indexAll v rest :=
  rfl

theorem innerCell_cons (s : Store) (target i next : Value) (rest : List Value) :
    s.innerCell target i (next :: rest) = s.index target i >>= fun v => s.innerCell v next rest :=
  rfl

/-- A read is a look at the cell that a write would change. -/
theorem indexAll_eq_innerCell (s : Store) (target i : Value) (rest : List Value) :
    s.indexAll target (i :: rest) =
      (s.innerCell target i rest).map fun cell => s.element cell.1 cell.2 := by
  induction rest generalizing target i with
  | nil =>
    rw [indexAll_cons, innerCell, index]
    cases s.cell target i <;> rfl
  | cons next rest ih =>
    rw [indexAll_cons, innerCell_cons]
    cases s.index target i with
    | error f => rfl
    | ok v => exact ih v next

/-- The cell is one of the array that the indices before the last one lead to. -/
theorem innerCell_eq_ok {rest : List Value} (h : s.innerCell target i rest = .ok (a, k)) :
    s.indexAll target (i :: rest).dropLast = .ok (.array a) ∧
      ∃ last, (i :: rest).getLast? = some last ∧
        position (s.elements a).size last = .ok k := by
  induction rest generalizing target i with
  | nil =>
    obtain ⟨rfl, hposition⟩ := cell_eq_ok h
    exact ⟨rfl, i, rfl, hposition⟩
  | cons next rest ih =>
    rw [innerCell_cons] at h
    cases hv : s.index target i with
    | error f =>
      rw [hv] at h
      cases h
    | ok v =>
      rw [hv] at h
      obtain ⟨hread, last, hlast, hposition⟩ := ih h
      refine ⟨?_, last, ?_, hposition⟩
      · rw [List.dropLast_cons_cons, indexAll_cons, hv]
        exact hread
      · rwa [List.getLast?_cons_cons]

theorem innerCell_lt {rest : List Value} (h : s.innerCell target i rest = .ok (a, k)) :
    k < (s.elements a).size :=
  let ⟨_, _, _, hposition⟩ := innerCell_eq_ok h
  position_lt hposition

theorem getElem?_elements (h : k < (s.elements a).size) :
    (s.elements a)[k]? = some (s.element a k) := by
  rw [element, Array.getD_eq_getD_getElem?, Array.getElem?_eq_getElem h, Option.getD_some]

/-- A write changes the cell it means, and no other cell of any array. -/
theorem getElem?_setElement (h : k < (s.elements a).size) (b : ArrayId) (j : Nat) :
    ((s.setElement a k v).elements b)[j]? =
      if b = a ∧ j = k then some v else (s.elements b)[j]? := by
  have helements : (s.setElement a k v).elements b =
      if a = b then (s.elements b).setIfInBounds k v else s.elements b := by
    simp only [elements, setElement, Array.getD_eq_getD_getElem?, Array.getElem?_modify]
    split
    · cases s.arrays[b]? <;> rfl
    · rfl
  rw [helements]
  by_cases hab : a = b
  · subst hab
    rw [if_pos rfl, Array.getElem?_setIfInBounds]
    by_cases hkj : k = j
    · subst hkj
      simp [h]
    · simp [hkj, Ne.symm hkj]
  · rw [if_neg hab, if_neg fun hc => hab hc.1.symm]

end ScriptKit.Store
