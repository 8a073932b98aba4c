import Mathlib.Data.List.DropRight
import Mathlib.Data.List.Nodup
import ScriptKit.Text.Basic

namespace ScriptKit.Text

theorem hasOpening_iff {opening s : String} :
    hasOpening opening s = true ↔ opening.toList <+: s.toList :=
  List.isPrefixOf_iff_prefix

section Split

variable {sep c : Char} {s : List Char}

theorem exists_splitChar (sep : Char) (s : List Char) :
    ∃ piece pieces, splitChar sep s = piece :: pieces := by
  cases s with
  | nil => exact ⟨[], [], rfl⟩
  | cons c s =>
    rw [splitChar]
    split
    · exact ⟨[], [], rfl⟩
    · split
      · exact ⟨_, _, rfl⟩
      · exact ⟨_, _, rfl⟩

theorem splitChar_self (sep : Char) (s : List Char) :
    splitChar sep (sep :: s) = [] :: splitChar sep s := by
  obtain ⟨piece, pieces, h⟩ := exists_splitChar sep s
  simp [splitChar, h]

theorem splitChar_of_ne (h : c ≠ sep) (s : List Char) : ∃ piece pieces,
    splitChar sep s = piece :: pieces ∧ splitChar sep (c :: s) = (c :: piece) :: pieces := by
  obtain ⟨piece, pieces, hs⟩ := exists_splitChar sep s
  exact ⟨piece, pieces, hs, by simp [splitChar, hs, h]⟩

theorem splitChar_of_not_mem (h : sep ∉ s) : splitChar sep s = [s] := by
  induction s with
  | nil => rfl
  | cons c s ih =>
    obtain ⟨hc, hs⟩ := not_or.mp fun hm => h (List.mem_cons.mpr hm)
    simp [splitChar, ih hs, Ne.symm hc]

theorem splitChar_append (h : sep ∉ s) (t : List Char) :
    splitChar sep (s ++ sep :: t) = s :: splitChar sep t := by
  induction s with
  | nil => exact splitChar_self sep t
  | cons c s ih =>
    obtain ⟨hc, hs⟩ := not_or.mp fun hm => h (List.mem_cons.mpr hm)
    simp [splitChar, ih hs, Ne.symm hc]

/-- The pieces of a text are free of the character between them. -/
theorem mem_splitChar {piece : List Char} (h : piece ∈ splitChar sep s) :
    sep ∉ piece ∧ piece ⊆ s := by
  induction s generalizing piece with
  | nil =>
    obtain rfl := List.mem_singleton.mp h
    simp
  | cons c s ih =>
    by_cases hc : c = sep
    · subst hc
      rw [splitChar_self] at h
      rcases List.mem_cons.mp h with rfl | h
      · simp
      · exact ⟨(ih h).1, List.subset_cons_of_subset c (ih h).2⟩
    · obtain ⟨first, rest, hs, hcs⟩ := splitChar_of_ne hc s
      rw [hcs] at h
      rcases List.mem_cons.mp h with rfl | h
      · obtain ⟨hsep, hsub⟩ := ih (hs ▸ List.mem_cons_self)
        exact ⟨by simp [hsep, Ne.symm hc], List.cons_subset_cons c hsub⟩
      · obtain ⟨hsep, hsub⟩ := ih (hs ▸ List.mem_cons_of_mem first h)
        exact ⟨hsep, List.subset_cons_of_subset c hsub⟩

end Split

section Trim

theorem trimLeft_trimRight_trimLeft (s : List Char) :
    trimLeft (trimRight (trimLeft s)) = trimRight (trimLeft s) := by
  have hfront : trimRight (trimLeft s) <+: trimLeft s := List.rdropWhile_prefix isSpace (trimLeft s)
  refine List.dropWhile_eq_self_iff.mpr fun hpos => ?_
  rw [hfront.getElem hpos]
  exact List.dropWhile_get_zero_not isSpace s (Nat.lt_of_lt_of_le hpos hfront.length_le)

theorem trim_trim (s : String) : trim (trim s) = trim s := by
  have hright : ∀ l, trimRight (trimRight l) = trimRight l := List.rdropWhile_idempotent isSpace
  rw [trim, trim, String.toList_ofList, trimLeft_trimRight_trimLeft, hright]

theorem trimLeft_eq_self {s : List Char} (h : ∀ c ∈ s.head?, isSpace c = false) :
    trimLeft s = s := by
  rw [trimLeft, List.dropWhile_eq_self_iff]
  intro hpos
  rw [h _ (List.head?_eq_getElem? ▸ List.getElem?_eq_getElem hpos)]
  decide

theorem trimRight_eq_self {s : List Char} (h : ∀ c ∈ s.getLast?, isSpace c = false) :
    trimRight s = s := by
  change List.rdropWhile isSpace s = s
  rw [List.rdropWhile_eq_self_iff]
  intro hne
  rw [h _ (List.getLast?_eq_some_getLast hne)]
  decide

/-- A text is trimmed if there is no white space at either of its ends. -/
theorem trim_eq_self {s : String} (hfirst : ∀ c ∈ s.toList.head?, isSpace c = false)
    (hlast : ∀ c ∈ s.toList.getLast?, isSpace c = false) : trim s = s := by
  rw [trim, trimLeft_eq_self hfirst, trimRight_eq_self hlast, String.ofList_toList]

/-- A text without white space. -/
def Solid (s : String) : Prop :=
  ∀ c ∈ s.toList, isSpace c = false

instance : DecidablePred Solid := fun s =>
  List.decidableBAll (fun c => isSpace c = false) s.toList

theorem Solid.append {s t : String} (hs : Solid s) (ht : Solid t) : Solid (s ++ t) := by
  intro c hc
  rw [String.toList_append] at hc
  exact (List.mem_append.mp hc).elim (hs c) (ht c)

theorem Solid.trim_eq {s : String} (h : Solid s) : trim s = s :=
  trim_eq_self (fun c hc => h c (List.mem_of_mem_head? hc))
    fun c hc => h c (List.mem_of_getLast? hc)

theorem head?_of_trim_eq {s : String} (h : trim s = s) :
    ∀ c ∈ s.toList.head?, isSpace c = false := by
  have htrim : trimRight (trimLeft s.toList) = s.toList := by
    have hlist := congrArg String.toList h
    rwa [trim, String.toList_ofList] at hlist
  have hleft := trimLeft_trimRight_trimLeft s.toList
  rw [htrim, trimLeft, List.dropWhile_eq_self_iff] at hleft
  intro c hc
  cases hs : s.toList with
  | nil =>
    rw [hs] at hc
    cases hc
  | cons d rest =>
    rw [hs] at hc hleft
    cases hc
    simpa using hleft (Nat.zero_lt_succ _)

theorem prefix_trimRight_append {s : List Char} (h : trimRight s = s) (t : List Char) :
    s <+: trimRight (s ++ t) := by
  induction t using List.reverseRecOn with
  | nil =>
    exact ⟨[], by rw [List.append_nil, h]⟩
  | append_singleton t c ih =>
    rw [← List.append_assoc]
    change s <+: List.rdropWhile isSpace (s ++ t ++ [c])
    rw [List.rdropWhile_concat]
    split
    · exact ih
    · rw [List.append_assoc]
      exact List.prefix_append _ _

/-- The opening of a text stays if it has no white space at its ends. -/
theorem hasOpening_trim {opening s : String}
    (hfirst : ∀ c ∈ opening.toList.head?, isSpace c = false)
    (hlast : ∀ c ∈ opening.toList.getLast?, isSpace c = false)
    (h : hasOpening opening s = true) : hasOpening opening (trim s) = true := by
  rw [hasOpening_iff] at h ⊢
  obtain ⟨t, ht⟩ := h
  rw [trim, String.toList_ofList, ← ht]
  cases hchars : opening.toList with
  | nil => exact List.nil_prefix
  | cons c cs =>
    rw [hchars] at hfirst hlast
    have hleft : trimLeft (c :: cs ++ t) = c :: cs ++ t := trimLeft_eq_self fun d hd => hfirst d hd
    rw [hleft]
    exact prefix_trimRight_append (trimRight_eq_self hlast) t

/-- Trimming goes together with a change of characters that keeps white space apart. -/
theorem trim_map {f : Char → Char} (hf : ∀ c, isSpace (f c) = isSpace c) (s : List Char) :
    trim (String.ofList (s.map f)) = String.ofList ((trim (String.ofList s)).toList.map f) := by
  have hspace : isSpace ∘ f = isSpace := funext hf
  have hleft : ∀ l : List Char, trimLeft (l.map f) = (trimLeft l).map f := by
    intro l
    rw [trimLeft, List.dropWhile_map, hspace]
    rfl
  have hright : ∀ l : List Char, trimRight (l.map f) = (trimRight l).map f := by
    intro l
    rw [trimRight, ← List.map_reverse, List.dropWhile_map, hspace, ← List.map_reverse]
    rfl
  rw [trim, trim, String.toList_ofList, String.toList_ofList, String.toList_ofList, hleft, hright]

/-- The digits of a number are no white space. -/
theorem isSpace_of_mem_toDigits {c : Char} {base : Nat} (hbase : 1 < base) (hle : base ≤ 16) :
    ∀ (n : Nat), c ∈ Nat.toDigits base n → isSpace c = false
  | n, hc => by
    have hdigit : ∀ d, d < 16 → isSpace d.digitChar = false := by decide
    rw [Nat.toDigits_eq_if hbase] at hc
    split at hc
    · rename_i hn
      rw [List.mem_singleton.mp hc]
      exact hdigit n (Nat.lt_of_lt_of_le hn hle)
    · rename_i hn
      rcases List.mem_append.mp hc with hc | hc
      · have hless : n / base < n := Nat.div_lt_self (by omega) hbase
        exact isSpace_of_mem_toDigits hbase hle (n / base) hc
      · rw [List.mem_singleton.mp hc]
        exact hdigit _ (Nat.lt_of_lt_of_le (Nat.mod_lt n (by omega)) hle)

theorem solid_hex (width n : Nat) : Solid (hex width n) := by
  intro c hc
  rw [hex, String.toList_ofList] at hc
  rcases List.mem_append.mp hc with hc | hc
  · rw [List.eq_of_mem_replicate hc]
    decide
  · exact isSpace_of_mem_toDigits (by decide) (by decide) n hc

end Trim

section Order

theorem lt_of_le_of_ne {a b : String} (h : a ≤ b) (hne : a ≠ b) : a < b := by
  by_contra hlt
  exact hne (String.le_antisymm h (String.not_lt.mp hlt))

section Names

variable {α : Type} (name : α → String)

theorem decide_le_trans (a b c : α) (hab : decide (name a ≤ name b) = true)
    (hbc : decide (name b ≤ name c) = true) : decide (name a ≤ name c) = true := by
  simp only [decide_eq_true_eq] at hab hbc ⊢
  exact String.le_trans hab hbc

theorem decide_le_total (a b : α) :
    (decide (name a ≤ name b) || decide (name b ≤ name a)) = true := by
  simpa using String.le_total (name a) (name b)

/-- A list that is sorted by names has its names in order. -/
theorem pairwise_mergeSort (l : List α) :
    ((l.mergeSort fun a b => decide (name a ≤ name b)).map name).Pairwise (· ≤ ·) := by
  rw [List.pairwise_map]
  exact (List.pairwise_mergeSort (decide_le_trans name) (decide_le_total name) l).imp
    of_decide_eq_true

/-- Sorting by names keeps the order of those with one name. -/
theorem filter_mergeSort (l : List α) (n : String) :
    (l.mergeSort fun a b => decide (name a ≤ name b)).filter (fun a => name a = n) =
      l.filter fun a => name a = n := by
  have hname : ∀ a ∈ l.filter (fun a => name a = n), name a = n := fun a ha => by
    simpa using (List.mem_filter.mp ha).2
  have hsame : (l.filter fun a => name a = n).Pairwise
      fun a b => decide (name a ≤ name b) = true := by
    refine List.Pairwise.imp_of_mem (fun {a b} ha hb _ => ?_)
      (List.pairwise_of_forall (R := fun _ _ => True) fun _ _ => trivial)
    rw [hname a ha, hname b hb]
    exact decide_eq_true (String.le_refl n)
  -- the ones with the name are in order already, so the sort leaves them in this order
  have hsub := (List.sublist_mergeSort (decide_le_trans name) (decide_le_total name) hsame
    List.filter_sublist).filter fun a => name a = n
  rw [List.filter_filter] at hsub
  simp only [Bool.and_self] at hsub
  have hlength := ((List.mergeSort_perm l fun a b => decide (name a ≤ name b)).filter
    fun a => name a = n).length_eq
  exact (hsub.eq_of_length hlength.symm).symm

/-- Sorting by names does not change which is the first with a name. -/
theorem find?_mergeSort (l : List α) (n : String) :
    (l.mergeSort fun a b => decide (name a ≤ name b)).find? (fun a => name a = n) =
      l.find? fun a => name a = n := by
  rw [← List.head?_filter, filter_mergeSort, List.head?_filter]

end Names

/-- Names that are distinct and in order come strictly one after the other. -/
theorem pairwise_lt {names : List String} (h : names.Pairwise (· ≤ ·)) (hnodup : names.Nodup) :
    names.Pairwise (· < ·) :=
  (h.and hnodup).imp fun hab => lt_of_le_of_ne hab.1 hab.2

theorem nodup_of_pairwise_lt {names : List String} (h : names.Pairwise (· < ·)) : names.Nodup :=
  h.imp fun {a b} hab => by
    rintro rfl
    exact String.lt_irrefl a hab

/-- Two lists in strict order that have the same names are equal. -/
theorem eq_of_pairwise_lt {names others : List String} (h : names.Pairwise (· < ·))
    (h' : others.Pairwise (· < ·)) (hmem : ∀ n, n ∈ names ↔ n ∈ others) : names = others := by
  have hperm : names.Perm others :=
    (List.perm_ext_iff_of_nodup (nodup_of_pairwise_lt h) (nodup_of_pairwise_lt h')).mpr hmem
  refine hperm.eq_of_pairwise ?_ h h'
  intro a b _ _ hab hba
  exact absurd (String.lt_trans hab hba) (String.lt_irrefl a)

theorem sort_perm (names : List String) : (sort names).Perm names :=
  List.mergeSort_perm names _

theorem pairwise_sort {names : List String} (h : names.Nodup) : (sort names).Pairwise (· < ·) := by
  have hsorted := pairwise_mergeSort id names
  rw [List.map_id] at hsorted
  exact pairwise_lt hsorted ((sort_perm names).nodup_iff.mpr h)

end Order

end ScriptKit.Text
