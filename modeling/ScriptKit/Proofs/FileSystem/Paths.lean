import ScriptKit.Path
import ScriptKit.Proofs.Text.Basic

namespace ScriptKit.Path

/-- A name between the slashes of a path. -/
def IsName (n : String) : Prop :=
  n ≠ "" ∧ '/' ∉ n.toList

/-- The bytes that names take up in a path, each with the slash before it. -/
def span : List String → Nat
  | [] => 0
  | n :: names => n.utf8ByteSize + 1 + span names

variable {p n : String} {names taken : List String}

theorem isAbsolute_iff : isAbsolute p = true ↔ ∃ rest, p.toList = '/' :: rest := by
  rw [isAbsolute, Text.hasOpening_iff]
  constructor
  · rintro ⟨rest, h⟩
    exact ⟨rest, h.symm⟩
  · rintro ⟨rest, h⟩
    exact ⟨rest, h.symm⟩

theorem mem_components (h : n ∈ components p) : IsName n ∧ n.toList ⊆ p.toList := by
  obtain ⟨hmem, hne⟩ := List.mem_filter.mp h
  obtain ⟨piece, hpiece, rfl⟩ := List.mem_map.mp hmem
  obtain ⟨hsep, hsub⟩ := Text.mem_splitChar hpiece
  exact ⟨⟨by simpa using hne, by simpa using hsep⟩, by simpa using hsub⟩

@[simp] theorem rooted_singleton (n : String) : rooted [n] = "/" ++ n := by
  rw [rooted, String.intercalate_singleton]

theorem rooted_cons (n m : String) (names : List String) :
    rooted (n :: m :: names) = "/" ++ n ++ rooted (m :: names) := by
  rw [rooted, rooted, String.intercalate_cons_cons, String.append_assoc, String.append_assoc]

theorem isAbsolute_rooted (names : List String) : isAbsolute (rooted names) = true :=
  isAbsolute_iff.mpr ⟨_, String.toList_append⟩

theorem components_of_cons {rest : List Char} (h : p.toList = '/' :: rest) :
    components p = ((Text.splitChar '/' rest).map String.ofList).filter (· ≠ "") := by
  rw [components, h, Text.splitChar_self]
  rfl

/-- A path that is put together from names has these names. -/
theorem components_rooted (h : ∀ n ∈ names, IsName n) : components (rooted names) = names := by
  induction names with
  | nil => rfl
  | cons n names ih =>
    obtain ⟨⟨hne, hslash⟩, hnames⟩ := List.forall_mem_cons.mp h
    have hlist : ("/" ++ n).toList = '/' :: n.toList := String.toList_append
    cases names with
    | nil =>
      rw [rooted_singleton, components_of_cons hlist, Text.splitChar_of_not_mem hslash]
      simp [hne]
    | cons m names =>
      obtain ⟨rest, hm⟩ := isAbsolute_iff.mp (isAbsolute_rooted (m :: names))
      have hrest := ih hnames
      rw [components_of_cons hm] at hrest
      have hcons : (rooted (n :: m :: names)).toList = '/' :: (n.toList ++ '/' :: rest) := by
        rw [rooted_cons, String.toList_append, hlist, hm, List.cons_append]
      rw [components_of_cons hcons, Text.splitChar_append hslash, List.map_cons,
        String.ofList_toList, List.filter_cons_of_pos (by simpa using hne), hrest]

/-- Such a path ends in a slash only if there are no names. -/
theorem getLast?_rooted (h : ∀ n ∈ names, IsName n) (hne : names ≠ []) :
    (rooted names).toList.getLast? ≠ some '/' := by
  induction names with
  | nil => exact absurd rfl hne
  | cons n names ih =>
    obtain ⟨⟨hn, hslash⟩, hnames⟩ := List.forall_mem_cons.mp h
    cases names with
    | nil =>
      intro hlast
      rw [rooted_singleton, String.toList_append,
        List.getLast?_append_of_ne_nil _ (by simpa using hn)] at hlast
      exact hslash (List.mem_of_getLast? hlast)
    | cons m names =>
      obtain ⟨rest, hm⟩ := isAbsolute_iff.mp (isAbsolute_rooted (m :: names))
      have hrest := ih hnames (List.cons_ne_nil m names)
      rwa [rooted_cons, String.toList_append,
        List.getLast?_append_of_ne_nil _ (by rw [hm]; exact List.cons_ne_nil _ _)]

theorem mem_toList_rooted {c : Char} (h : c ∈ (rooted names).toList) :
    c = '/' ∨ ∃ n ∈ names, c ∈ n.toList := by
  induction names with
  | nil => exact Or.inl (List.mem_singleton.mp h)
  | cons n names ih =>
    have hlist : ("/" ++ n).toList = '/' :: n.toList := String.toList_append
    cases names with
    | nil =>
      rw [rooted_singleton, hlist, List.mem_cons] at h
      exact h.imp_right fun hc => ⟨n, List.mem_cons_self, hc⟩
    | cons m names =>
      rw [rooted_cons, String.toList_append, hlist, List.mem_append, List.mem_cons] at h
      rcases h with (hc | hc) | hc
      · exact Or.inl hc
      · exact Or.inr ⟨n, List.mem_cons_self, hc⟩
      · refine (ih hc).imp_right ?_
        rintro ⟨k, hk, hc⟩
        exact ⟨k, List.mem_cons_of_mem n hk, hc⟩

theorem step_of_down (h : n ≠ "." ∧ n ≠ "..") (rooted : Bool) (taken : List String) :
    step rooted taken n = n :: taken := by
  unfold step
  rw [if_neg h.1, if_neg h.2]

theorem step_up (h : n ≠ "..") (rooted : Bool) (before : List String) :
    step rooted (n :: before) ".." = before := by
  simp [step, h]

theorem foldl_step_sublist (rooted : Bool) : ∀ (names taken : List String),
    (names.foldl (step rooted) taken).Sublist (names.reverse ++ taken)
  | [], _ => List.Sublist.refl _
  | n :: names, taken => by
    -- a step adds the name, or takes one away, or does nothing
    have hstep : (step rooted taken n).Sublist (n :: taken) := by
      unfold step
      split
      · exact List.sublist_cons_self n taken
      · split
        · rename_i hn
          cases taken with
          | nil =>
            rw [hn]
            cases rooted
            · exact List.Sublist.refl _
            · exact List.nil_sublist _
          | cons last before =>
            dsimp only
            split
            · rw [hn]
            · exact (List.sublist_cons_self last before).trans (List.sublist_cons_self n _)
        · exact List.Sublist.refl _
    rw [List.foldl_cons, List.reverse_cons, List.append_assoc, List.singleton_append]
    exact (foldl_step_sublist rooted names _).trans (hstep.append_left _)

/-- The steps of a path are some of its names. -/
theorem steps_sublist (p : String) : (steps p).Sublist (components p) := by
  have hsub := (foldl_step_sublist (isAbsolute p) (components p) []).reverse
  rwa [List.append_nil, List.reverse_reverse] at hsub

theorem clean_of_isAbsolute (h : isAbsolute p = true) : clean p = rooted (steps p) :=
  if_pos h

theorem isName_of_mem_steps (p : String) : ∀ n ∈ steps p, IsName n :=
  fun _ hn => (mem_components ((steps_sublist p).subset hn)).1

theorem mem_toList_clean (h : isAbsolute p = true) {c : Char} (hc : c ∈ (clean p).toList) :
    c = '/' ∨ c ∈ p.toList := by
  rw [clean_of_isAbsolute h] at hc
  refine (mem_toList_rooted hc).imp_right ?_
  rintro ⟨n, hn, hc⟩
  exact (mem_components ((steps_sublist p).subset hn)).2 hc

theorem span_le_of_sublist (h : taken.Sublist names) : span taken ≤ span names := by
  induction h with
  | slnil => exact Nat.le_refl _
  | cons n _ ih =>
    rw [span]
    omega
  | cons_cons n _ ih =>
    rw [span, span]
    omega

theorem utf8ByteSize_rooted (hne : names ≠ []) : (rooted names).utf8ByteSize = span names := by
  induction names with
  | nil => exact absurd rfl hne
  | cons n names ih =>
    have hsize : ("/" ++ n).utf8ByteSize = n.utf8ByteSize + 1 := by
      rw [String.utf8ByteSize_append, Nat.add_comm]
      rfl
    cases names with
    | nil =>
      rw [rooted_singleton, hsize]
      rfl
    | cons m names =>
      rw [rooted_cons, String.utf8ByteSize_append, hsize, ih (List.cons_ne_nil m names)]
      rfl

theorem utf8ByteSize_ofList_cons (c : Char) (s : List Char) :
    (String.ofList (c :: s)).utf8ByteSize = c.utf8Size + (String.ofList s).utf8ByteSize := by
  rw [String.ofList_cons, String.utf8ByteSize_append, String.utf8ByteSize_singleton]

/-- A text takes up one byte less than its pieces with a slash before each. -/
theorem span_splitChar (s : List Char) :
    span ((Text.splitChar '/' s).map String.ofList) = (String.ofList s).utf8ByteSize + 1 := by
  induction s with
  | nil => rfl
  | cons c s ih =>
    rw [utf8ByteSize_ofList_cons]
    by_cases hc : c = '/'
    · subst hc
      have hslash : Char.utf8Size '/' = 1 := by decide
      rw [Text.splitChar_self, List.map_cons, span, ih, hslash, String.ofList_nil,
        String.utf8ByteSize_empty]
      omega
    · obtain ⟨piece, pieces, hs, hcs⟩ := Text.splitChar_of_ne hc s
      rw [hs, List.map_cons, span] at ih
      rw [hcs, List.map_cons, span, utf8ByteSize_ofList_cons]
      omega

/-- A clean path is no longer than the path that it is made of. -/
theorem utf8ByteSize_clean_le (h : isAbsolute p = true) :
    (clean p).utf8ByteSize ≤ p.utf8ByteSize := by
  obtain ⟨rest, hp⟩ := isAbsolute_iff.mp h
  have hsize : p.utf8ByteSize = (String.ofList rest).utf8ByteSize + 1 := by
    rw [← String.ofList_toList (s := p), hp, utf8ByteSize_ofList_cons, Nat.add_comm]
    rfl
  rw [clean_of_isAbsolute h]
  by_cases hne : steps p = []
  · rw [hne, hsize]
    exact Nat.le_add_left _ _
  · calc
      (rooted (steps p)).utf8ByteSize = span (steps p) := utf8ByteSize_rooted hne
      _ ≤ span (components p) := span_le_of_sublist (steps_sublist p)
      _ ≤ span ((Text.splitChar '/' rest).map String.ofList) := by
        rw [components_of_cons hp]
        exact span_le_of_sublist List.filter_sublist
      _ = p.utf8ByteSize := by rw [span_splitChar, hsize]

end ScriptKit.Path
