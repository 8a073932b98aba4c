import ScriptKit.Proofs.Value.Store

namespace ScriptKit.NameTable

variable {α : Type} {t : NameTable α} {name other : String} {value : α}

theorem find?_eq_none_iff : t.find? name = none ↔ name ∉ t.names := by
  refine ⟨fun h hmem => ?_, find?_eq_none⟩
  have hsome : (t.find? name).isSome = true := contains_iff.mpr hmem
  rw [h] at hsome
  cases hsome

theorem lookup_replace {entries : List (String × α)} :
    (entries.map fun e => if e.1 = name then (name, value) else e).lookup other =
      if other = name then (entries.lookup other).map fun _ => value
      else entries.lookup other := by
  induction entries with
  | nil => simp
  | cons e entries ih =>
    obtain ⟨n, v⟩ := e
    rw [List.map_cons]
    by_cases hn : n = name
    · subst hn
      by_cases ho : other = n
      · subst ho
        simp
      · have hb : (other == n) = false := beq_eq_false_iff_ne.mpr ho
        simp [List.lookup_cons, hb, ho, ih]
    · by_cases ho : other = n
      · subst ho
        simp [hn]
      · have hb : (other == n) = false := beq_eq_false_iff_ne.mpr ho
        simp [List.lookup_cons, hb, hn, ih]

@[simp] theorem find?_insert :
    (t.insert name value).find? other = if other = name then some value else t.find? other := by
  rw [insert]
  -- a name that is there has its value replaced, and a new one comes at the end
  split
  · rename_i hthere
    rw [find?, lookup_replace, find?]
    split
    · rename_i ho
      subst ho
      obtain ⟨v, hv⟩ := Option.isSome_iff_exists.mp hthere
      rw [find?] at hv
      rw [hv, Option.map_some]
    · rfl
  · rename_i hthere
    have hnone : t.entries.lookup name = none :=
      find?_eq_none fun hmem => hthere (contains_iff.mpr hmem)
    rw [find?, List.lookup_append, find?]
    by_cases ho : other = name
    · subst ho
      simp [hnone]
    · have hb : (other == name) = false := beq_eq_false_iff_ne.mpr ho
      simp [List.lookup_cons, hb, ho]

section Lists

variable {entries : List (String × α)}

theorem find?_foldl_insert : (entries.foldl (fun t e => t.insert e.1 e.2) t).find? name =
    (entries.reverse.lookup name).or (t.find? name) := by
  induction entries generalizing t with
  | nil => rfl
  | cons e entries ih =>
    rw [List.foldl_cons, ih, List.reverse_cons, List.lookup_append, Option.or_assoc, find?_insert,
      List.lookup_cons]
    congr 1
    by_cases he : name = e.1
    · simp [he]
    · simp [he, beq_eq_false_iff_ne.mpr he]

/-- In a table that is made from a list a name has the value that comes last with it. -/
theorem find?_ofList : (ofList entries).find? name = entries.reverse.lookup name := by
  rw [ofList, find?_foldl_insert]
  exact Option.or_none

/-- A table has all that it is made from if no name comes with two values. -/
theorem holds_ofList_iff : (∀ e ∈ entries, (ofList entries).find? e.1 = some e.2) ↔
    ∀ e ∈ entries, ∀ f ∈ entries, e.1 = f.1 → e = f := by
  constructor
  · intro h e he f hf hname
    have hvalue : some e.2 = some f.2 := by rw [← h e he, ← h f hf, hname]
    exact Prod.ext hname (Option.some.inj hvalue)
  · intro h e he
    rw [find?_ofList]
    cases hfound : entries.reverse.lookup e.1 with
    | none =>
      have hnot := List.lookup_eq_none_iff.mp hfound e (List.mem_reverse.mpr he)
      simp at hnot
    | some value =>
      obtain ⟨front, back, hsplit, -⟩ := List.lookup_eq_some_iff.mp hfound
      have hmem : (e.1, value) ∈ entries.reverse := by
        rw [hsplit]
        simp
      rw [h e he _ (List.mem_reverse.mp hmem) rfl]

end Lists

/-- Taking names away changes nothing for the others. -/
theorem lookup_filter (f : String → Bool) (entries : List (String × α)) :
    (entries.filter fun e => f e.1).lookup other =
      if f other then entries.lookup other else none := by
  induction entries with
  | nil => simp
  | cons e entries ih =>
    obtain ⟨n, v⟩ := e
    by_cases ho : other = n
    · subst ho
      by_cases hf : f other = true
      · simp [hf]
      · rw [List.filter_cons_of_neg (p := fun e : String × α => f e.1) hf, ih, if_neg hf, if_neg hf]
    · have hb : (other == n) = false := beq_eq_false_iff_ne.mpr ho
      rw [List.filter_cons]
      split
      · rw [List.lookup_cons, List.lookup_cons, hb]
        exact ih
      · rw [ih, List.lookup_cons, hb]

@[simp] theorem find?_erase :
    (t.erase name).find? other = if other = name then none else t.find? other := by
  rw [erase, find?, lookup_filter (fun n => n ≠ name), find?]
  by_cases ho : other = name <;> simp [ho]

/-- What is put under a name that is taken away leaves nothing behind. -/
theorem filter_insert {f : String → Bool} (hname : f name = false) :
    (t.insert name value).entries.filter (fun e => f e.1) = t.entries.filter fun e => f e.1 := by
  rw [insert]
  split
  · have hsame : ∀ e : String × α, f (if e.1 = name then (name, value) else e).1 = f e.1 := by
      intro e
      split
      · rename_i he
        rw [he]
      · rfl
    dsimp only
    rw [List.filter_map, Function.comp_def, funext hsame]
    refine (List.map_congr_left fun e he => ?_).trans (List.map_id _)
    have hne : e.1 ≠ name := by
      rintro rfl
      rw [(List.mem_filter.mp he).2] at hname
      cases hname
    exact if_neg hne
  · dsimp only
    rw [List.filter_append]
    simp [hname]

/-- A name that is new comes last. -/
theorem names_insert_of_not_mem (h : name ∉ t.names) :
    (t.insert name value).names = t.names ++ [name] := by
  rw [insert, if_neg fun hthere => h (contains_iff.mp hthere), names, names, List.map_append]
  rfl

theorem mem_names_insert : other ∈ (t.insert name value).names ↔ other = name ∨ other ∈ t.names := by
  by_cases h : name ∈ t.names
  · rw [names_insert h]
    constructor
    · exact Or.inr
    · rintro (rfl | ho)
      · exact h
      · exact ho
  · rw [names_insert_of_not_mem h, List.mem_append, List.mem_singleton, or_comm]

theorem names_prefix_insert : t.names <+: (t.insert name value).names := by
  by_cases h : name ∈ t.names
  · exact ⟨[], by rw [names_insert h, List.append_nil]⟩
  · exact ⟨[name], (names_insert_of_not_mem h).symm⟩

/-- Names that come before a name stay if that is taken away. -/
theorem names_prefix_erase {names : List String} (h : names <+: t.names) (hname : name ∉ names) :
    names <+: (t.erase name).names := by
  have hfilter : t.names.filter (· ≠ name) = (t.erase name).names := List.filter_map
  obtain ⟨rest, hrest⟩ := h
  rw [← hfilter, ← hrest, List.filter_append]
  have hkeep : names.filter (· ≠ name) = names :=
    List.filter_eq_self.mpr fun n hn => decide_eq_true fun he => hname (he ▸ hn)
  rw [hkeep]
  exact List.prefix_append _ _

end ScriptKit.NameTable
