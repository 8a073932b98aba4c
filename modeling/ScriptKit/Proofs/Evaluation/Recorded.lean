import Mathlib.Data.List.Induction
import Mathlib.Data.List.DropRight
import ScriptKit.Evaluation.Machine
import ScriptKit.Proofs.Value.Names

namespace ScriptKit.Session

section Edits

/-- A change to the files of a session. -/
inductive Edit
  | record (path : String) (v : Value)
  | forget (path : String)

/-- The path that a change is about. -/
def Edit.path : Edit → String
  | record path _ => path
  | forget path => path

def Edit.apply (s : Session) : Edit → Session
  | record path v => s.record path v
  | forget path => s.forget path

/-- A session that was new before changes were made one after the other. -/
def after (edits : List Edit) : Session :=
  edits.foldl Edit.apply .empty

variable {edits : List Edit} {e : Edit} {s : Session} {path other : String} {v : Value}

@[simp] theorem after_concat (edits : List Edit) (e : Edit) :
    after (edits ++ [e]) = e.apply (after edits) := by
  rw [after, List.foldl_append]
  rfl

theorem names_forget (s : Session) (path : String) :
    (s.forget path).names = s.names.filter (· ≠ path) := by
  rw [forget, NameTable.names, NameTable.erase, NameTable.names, List.filter_map]
  rfl

/-- A change leaves alone what it is not about. -/
theorem mem_names_apply (h : e.path ≠ path) : path ∈ (e.apply s).names ↔ path ∈ s.names := by
  cases e with
  | record other v => exact NameTable.mem_names_insert.trans (or_iff_right (Ne.symm h))
  | forget other =>
    rw [Edit.apply, names_forget, List.mem_filter]
    exact and_iff_left (decide_eq_true (Ne.symm h))

@[simp] theorem value?_record :
    (s.record path v).value? other = if other = path then some v else s.value? other :=
  NameTable.find?_insert

@[simp] theorem value?_forget :
    (s.forget path).value? other = if other = path then none else s.value? other :=
  NameTable.find?_erase

theorem value?_apply (h : e.path ≠ path) : (e.apply s).value? path = s.value? path := by
  cases e with
  | record other v => exact value?_record.trans (if_neg (Ne.symm h))
  | forget other => exact value?_forget.trans (if_neg (Ne.symm h))

end Edits

section Values

variable {edits : List Edit} {e : Edit} {path : String} {v : Value}

/-- The last change about a path records it with a value. -/
def Holds (edits : List Edit) (path : String) (v : Value) : Prop :=
  ∃ before later, edits = before ++ .record path v :: later ∧ ∀ e ∈ later, e.path ≠ path

theorem not_holds_nil : ¬Holds [] path v := by
  rintro ⟨before, later, h, -⟩
  exact absurd h.symm (by simp)

theorem holds_concat :
    Holds (edits ++ [e]) path v ↔ e = .record path v ∨ e.path ≠ path ∧ Holds edits path v := by
  constructor
  · rintro ⟨before, later, h, hlater⟩
    rcases List.eq_nil_or_concat' later with rfl | ⟨later, last, rfl⟩
    · exact Or.inl (List.singleton_inj.mp (List.append_inj' h rfl).2)
    · rw [← List.cons_append, ← List.append_assoc] at h
      obtain ⟨rfl, hlast⟩ := List.append_inj' h rfl
      obtain rfl := List.singleton_inj.mp hlast
      exact Or.inr ⟨hlater e (by simp), before, later, rfl,
        fun e he => hlater e (List.mem_append_left _ he)⟩
  · rintro (rfl | ⟨he, before, later, rfl, hlater⟩)
    · exact ⟨edits, [], rfl, by simp⟩
    · refine ⟨before, later ++ [e], by simp, fun e' he' => ?_⟩
      rcases List.mem_append.mp he' with hmem | hmem
      · exact hlater e' hmem
      · rwa [List.mem_singleton.mp hmem]

/-- The value of a path is that of its latest record, unless it was forgotten since. -/
theorem value?_after_iff (edits : List Edit) (path : String) (v : Value) :
    (after edits).value? path = some v ↔ Holds edits path v := by
  induction edits using List.reverseRecOn with
  | nil =>
    exact iff_of_false (by simp [after, value?, NameTable.find?, NameTable.empty]) not_holds_nil
  | append_singleton edits e ih =>
    rw [after_concat, holds_concat]
    by_cases he : e.path = path
    · subst he
      cases e with
      | record other w =>
        rw [Edit.apply, Edit.path, value?_record, if_pos rfl]
        simp
      | forget other =>
        rw [Edit.apply, Edit.path, value?_forget, if_pos rfl]
        simp
    · have hother : e ≠ .record path v := fun h => he (h ▸ rfl)
      rw [value?_apply he, ih]
      simp [he, hother]

end Values

section Order

variable {edits : List Edit} {e : Edit} {path other : String} {i j : Nat}

/-- A change is the first that records a path since it was last forgotten, or ever. -/
structure Enters (edits : List Edit) (path : String) (i : Nat) : Prop where
  recorded : ∃ v, edits[i]? = some (.record path v)
  kept : ∀ j, i < j → edits[j]? ≠ some (.forget path)
  first : ∀ j < i, ∀ v, edits[j]? = some (.record path v) →
    ∃ k, j < k ∧ k < i ∧ edits[k]? = some (.forget path)

/-- A path came in before another one. -/
def Precedes (edits : List Edit) (path other : String) : Prop :=
  ∃ i j, Enters edits path i ∧ Enters edits other j ∧ i < j

namespace Enters

theorem lt_length (h : Enters edits path i) : i < edits.length := by
  obtain ⟨v, hv⟩ := h.recorded
  exact (List.getElem?_eq_some_iff.mp hv).1

/-- There is only one such change. -/
theorem unique (hi : Enters edits path i) (hj : Enters edits path j) : i = j := by
  have hle : ∀ {i j}, Enters edits path i → Enters edits path j → j ≤ i := by
    intro i j hi hj
    by_contra hlt
    obtain ⟨v, hv⟩ := hi.recorded
    obtain ⟨k, hik, -, hk⟩ := hj.first i (Nat.not_le.mp hlt) v hv
    exact hi.kept k hik hk
  exact Nat.le_antisymm (hle hj hi) (hle hi hj)

/-- A path stays where it came in as long as it is not forgotten. -/
theorem concat (h : Enters edits path i) (he : e ≠ .forget path) :
    Enters (edits ++ [e]) path i := by
  have hlt := h.lt_length
  have hbefore : ∀ {j}, j ≤ i → (edits ++ [e])[j]? = edits[j]? := fun hj =>
    List.getElem?_append_left (Nat.lt_of_le_of_lt hj hlt)
  refine ⟨?_, fun j hj hforget => ?_, fun j hj v hv => ?_⟩
  · rw [hbefore (Nat.le_refl i)]
    exact h.recorded
  · rcases Nat.lt_trichotomy j edits.length with hj' | rfl | hj'
    · rw [List.getElem?_append_left hj'] at hforget
      exact h.kept j hj hforget
    · rw [List.getElem?_concat_length] at hforget
      exact he (Option.some.inj hforget)
    · have hlength : (edits ++ [e]).length ≤ j := by
        rw [List.length_append]
        exact hj'
      rw [List.getElem?_eq_none hlength] at hforget
      cases hforget
  · rw [hbefore (Nat.le_of_lt hj)] at hv
    obtain ⟨k, hjk, hki, hk⟩ := h.first j hj v hv
    exact ⟨k, hjk, hki, (hbefore (Nat.le_of_lt hki)).trans hk⟩

end Enters

theorem Precedes.ne (h : Precedes edits path other) : path ≠ other := by
  rintro rfl
  obtain ⟨i, j, hi, hj, hlt⟩ := h
  exact Nat.ne_of_lt hlt (hi.unique hj)

theorem Precedes.concat (h : Precedes edits path other) (hpath : e ≠ .forget path)
    (hother : e ≠ .forget other) : Precedes (edits ++ [e]) path other := by
  obtain ⟨i, j, hi, hj, hlt⟩ := h
  exact ⟨i, j, hi.concat hpath, hj.concat hother, hlt⟩

/-- What is not in a session was forgotten each time after it had been recorded. -/
theorem exists_forget_of_not_mem (hpath : path ∉ (after edits).names) :
    ∀ j v, edits[j]? = some (.record path v) →
      ∃ k, j < k ∧ k < edits.length ∧ edits[k]? = some (.forget path) := by
  induction edits using List.reverseRecOn with
  | nil => simp
  | append_singleton edits e ih =>
    intro j v hj
    have hlast : (edits ++ [e])[edits.length]? = some e := List.getElem?_concat_length
    have hlength : (edits ++ [e]).length = edits.length + 1 := List.length_append
    rw [after_concat] at hpath
    -- the last edit is no record of the path, which would still be among the names
    have hlt : j < edits.length := by
      by_contra hge
      have hbound := (List.getElem?_eq_some_iff.mp hj).1
      obtain rfl : j = edits.length := by omega
      rw [hlast] at hj
      obtain rfl := Option.some.inj hj
      exact hpath (NameTable.mem_names_insert.mpr (Or.inl rfl))
    -- the last edit forgets the path, or leaves it as it was
    by_cases he : e = .forget path
    · subst he
      exact ⟨edits.length, hlt, by omega, hlast⟩
    · have hne : e.path ≠ path := by
        rintro rfl
        cases e with
        | record other w => exact hpath (NameTable.mem_names_insert.mpr (Or.inl rfl))
        | forget other => exact he rfl
      rw [mem_names_apply hne] at hpath
      rw [List.getElem?_append_left hlt] at hj
      obtain ⟨k, hjk, hk, hforget⟩ := ih hpath j v hj
      exact ⟨k, hjk, by omega, by rw [List.getElem?_append_left hk, hforget]⟩

/-- A path that is not there comes in when it is recorded. -/
theorem enters_record (hpath : path ∉ (after edits).names) (v : Value) :
    Enters (edits ++ [.record path v]) path edits.length := by
  refine ⟨⟨v, List.getElem?_concat_length⟩, fun j hj => ?_, fun j hj w hw => ?_⟩
  · have hlength : (edits ++ [Edit.record path v]).length ≤ j := by
      rw [List.length_append]
      exact hj
    rw [List.getElem?_eq_none hlength]
    simp
  · rw [List.getElem?_append_left hj] at hw
    obtain ⟨k, hjk, hk, hforget⟩ := exists_forget_of_not_mem hpath j w hw
    exact ⟨k, hjk, hk, by rw [List.getElem?_append_left hk, hforget]⟩

/-- The paths of a session are in the order in which they came in. -/
theorem names_after (edits : List Edit) :
    (∀ path ∈ (after edits).names, ∃ i, Enters edits path i) ∧
      (after edits).names.Pairwise (Precedes edits) := by
  induction edits using List.reverseRecOn with
  | nil => exact ⟨by simp [after, NameTable.names, NameTable.empty], List.Pairwise.nil⟩
  | append_singleton edits e ih =>
    obtain ⟨henters, horder⟩ := ih
    rw [after_concat]
    cases e with
    | record path v =>
      have hkept : ∀ p, Edit.record path v ≠ .forget p := fun p h => by cases h
      have hold : ∀ p ∈ (after edits).names, ∃ i, Enters (edits ++ [.record path v]) p i := by
        intro p hp
        obtain ⟨i, hi⟩ := henters p hp
        exact ⟨i, hi.concat (hkept p)⟩
      have hpairs := horder.imp fun {p q} h => h.concat (hkept p) (hkept q)
      by_cases hpath : path ∈ (after edits).names
      · rw [Edit.apply, record, NameTable.names_insert hpath]
        exact ⟨hold, hpairs⟩
      · -- a path that is new comes in after all that are there
        have hnew := enters_record hpath v
        rw [Edit.apply, record, NameTable.names_insert_of_not_mem hpath]
        refine ⟨fun p hp => ?_, List.pairwise_append.mpr ⟨hpairs, List.pairwise_singleton _ _, ?_⟩⟩
        · rcases List.mem_append.mp hp with hp | hp
          · exact hold p hp
          · rw [List.mem_singleton.mp hp]
            exact ⟨_, hnew⟩
        · intro p hp q hq
          obtain ⟨i, hi⟩ := henters p hp
          rw [List.mem_singleton.mp hq]
          exact ⟨i, edits.length, hi.concat (hkept p), hnew, hi.lt_length⟩
    | forget path =>
      have hkept : ∀ p ∈ (after edits).names.filter (· ≠ path),
          p ∈ (after edits).names ∧ Edit.forget path ≠ .forget p := by
        intro p hp
        obtain ⟨hmem, hne⟩ := List.mem_filter.mp hp
        exact ⟨hmem, fun h => of_decide_eq_true hne (Edit.forget.inj h).symm⟩
      rw [Edit.apply, names_forget]
      refine ⟨fun p hp => ?_, (horder.filter _).imp_of_mem fun {p q} hp hq h => ?_⟩
      · obtain ⟨i, hi⟩ := henters p (hkept p hp).1
        exact ⟨i, hi.concat (hkept p hp).2⟩
      · exact h.concat (hkept p hp).2 (hkept q hq).2

end Order

section Ledger

/-- A session that is kept in two parts: the values by path, and apart from them the paths in the
order in which they came. -/
structure Ledger where
  results : String → Option Value
  order : List String

namespace Ledger

/-- Only a path without a result is put at the end of the order. -/
def record (l : Ledger) (path : String) (v : Value) : Ledger where
  results := fun p => if p = path then some v else l.results p
  order := if (l.results path).isSome then l.order else l.order ++ [path]

/-- A path without a result is not looked for in the order. -/
def forget (l : Ledger) (path : String) : Ledger :=
  if (l.results path).isSome then
    ⟨fun p => if p = path then none else l.results p, l.order.filter (· ≠ path)⟩
  else l

def apply (l : Ledger) : Edit → Ledger
  | .record path v => l.record path v
  | .forget path => l.forget path

/-- A ledger that was new before changes were made one after the other. -/
def after (edits : List Edit) : Ledger :=
  edits.foldl apply ⟨fun _ => none, []⟩

@[simp] theorem after_concat (edits : List Edit) (e : Edit) :
    after (edits ++ [e]) = (after edits).apply e := by
  rw [after, List.foldl_append]
  rfl

/-- The two parts are those of a session. -/
structure Agrees (l : Ledger) (s : Session) : Prop where
  results : ∀ path, l.results path = s.value? path
  order : l.order = s.names

variable {l : Ledger} {s : Session}

theorem Agrees.isSome_iff (h : l.Agrees s) (path : String) :
    (l.results path).isSome = true ↔ path ∈ s.names := by
  rw [h.results]
  exact NameTable.contains_iff

theorem Agrees.apply (h : l.Agrees s) (e : Edit) : (l.apply e).Agrees (e.apply s) := by
  cases e with
  | record path v =>
    refine ⟨fun p => ?_, ?_⟩
    · rw [Edit.apply, value?_record, ← h.results]
      rfl
    · change (if (l.results path).isSome then l.order else l.order ++ [path]) = _
      rw [Edit.apply, Session.record, h.order]
      split
      · rename_i hthere
        exact (NameTable.names_insert ((h.isSome_iff path).mp hthere)).symm
      · rename_i hnew
        exact (NameTable.names_insert_of_not_mem (mt (h.isSome_iff path).mpr hnew)).symm
  | forget path =>
    rw [Ledger.apply, forget, Edit.apply]
    -- a path that is not recorded is not forgotten, and erasing it does nothing
    split
    · refine ⟨fun p => ?_, ?_⟩
      · rw [value?_forget, ← h.results]
      · rw [names_forget, h.order]
    · rename_i hnew
      have hpath : path ∉ s.names := mt (h.isSome_iff path).mpr hnew
      refine ⟨fun p => ?_, ?_⟩
      · rw [value?_forget, h.results]
        split
        · rename_i hp
          rw [hp]
          exact NameTable.find?_eq_none hpath
        · rfl
      · rw [h.order]
        exact (NameTable.names_erase hpath).symm

theorem agrees_after (edits : List Edit) : (after edits).Agrees (Session.after edits) := by
  induction edits using List.reverseRecOn with
  | nil => exact ⟨fun _ => rfl, rfl⟩
  | append_singleton edits e ih =>
    rw [after_concat, Session.after_concat]
    exact ih.apply e

end Ledger

/-- After any changes a session lists the paths that it has, each once and in the order in which
they came in, with the values of their latest records; and keeping the values and the order apart
comes to the same. -/
theorem lists_recorded (edits : List Edit) :
    (after edits).names.Nodup ∧
      (∀ path, path ∈ (after edits).names ↔ (after edits).contains path = true) ∧
      (∀ path ∈ (after edits).names, ∃ i, Enters edits path i) ∧
      (after edits).names.Pairwise (Precedes edits) ∧
      (∀ path v, (after edits).value? path = some v ↔ Holds edits path v) ∧
      (Ledger.after edits).Agrees (after edits) := by
  obtain ⟨henters, horder⟩ := names_after edits
  exact ⟨horder.imp fun h => h.ne, fun _ => NameTable.contains_iff.symm, henters, horder,
    value?_after_iff edits, Ledger.agrees_after edits⟩

end Ledger

end ScriptKit.Session
