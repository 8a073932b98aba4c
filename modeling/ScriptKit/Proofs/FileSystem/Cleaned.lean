import ScriptKit.Proofs.FileSystem.Paths

namespace ScriptKit.Path

variable {p q n s t : String} {names taken paths : List String} {rooted : Bool}

section Shortest

/-- Steps that no shorter list stands for, given last first: none stays in place, and those up come
before all others, where there is no root. -/
def Shortest (rooted : Bool) : List String → Prop
  | [] => True
  | n :: before => Shortest rooted before ∧ n ≠ "." ∧
      (n = ".." → rooted = false ∧ ∀ m ∈ before, m = "..")

theorem Shortest.step (h : Shortest rooted taken) (n : String) :
    Shortest rooted (step rooted taken n) := by
  unfold Path.step
  split
  · exact h
  · rename_i hdot
    split
    · cases taken with
      | nil =>
        cases rooted
        · exact ⟨trivial, by decide, fun _ => ⟨rfl, by simp⟩⟩
        · exact trivial
      | cons last before =>
        dsimp only
        split
        · -- a step up that could not be taken back is followed by one more
          rename_i hlast
          obtain ⟨hrooted, hup⟩ := h.2.2 hlast
          exact ⟨h, by decide, fun _ => ⟨hrooted, List.forall_mem_cons.mpr ⟨hlast, hup⟩⟩⟩
        · exact h.1
    · rename_i hup
      exact ⟨h, hdot, fun hn => absurd hn hup⟩

theorem Shortest.foldl_step : ∀ (names : List String) {taken : List String},
    Shortest rooted taken → Shortest rooted (names.foldl (Path.step rooted) taken)
  | [], _, h => h
  | n :: names, _, h => Shortest.foldl_step names (h.step n)

/-- A step that makes a shortest list longer is taken as it is. -/
theorem Shortest.step_eq (h : Shortest rooted (n :: taken)) :
    Path.step rooted taken n = n :: taken := by
  obtain ⟨-, hdot, hup⟩ := h
  unfold Path.step
  rw [if_neg hdot]
  split
  · rename_i hn
    obtain ⟨hrooted, htaken⟩ := hup hn
    cases taken with
    | nil => simp [hrooted, hn]
    | cons last before => simp [htaken last List.mem_cons_self, hn]
  · rfl

theorem Shortest.foldl_reverse : ∀ {taken : List String}, Shortest rooted taken →
    taken.reverse.foldl (Path.step rooted) [] = taken
  | [], _ => rfl
  | n :: taken, h => by
    rw [List.reverse_cons, List.foldl_append, h.1.foldl_reverse]
    exact h.step_eq

/-- The steps of a shortest list lead to this list again. -/
theorem Shortest.foldl (h : Shortest rooted names.reverse) :
    (names.foldl (Path.step rooted) []).reverse = names := by
  have hagain := h.foldl_reverse
  rw [List.reverse_reverse] at hagain
  rw [hagain, List.reverse_reverse]

theorem shortest_steps (p : String) : Shortest (isAbsolute p) (steps p).reverse := by
  rw [steps, List.reverse_reverse]
  exact Shortest.foldl_step _ trivial

/-- In a shortest list below the root every step leads down. -/
theorem Shortest.leadsDown (h : Shortest true taken) : ∀ n ∈ taken, n ≠ "." ∧ n ≠ ".." := by
  induction taken with
  | nil => simp
  | cons m before ih =>
    obtain ⟨hbefore, hdot, hup⟩ := h
    refine List.forall_mem_cons.mpr ⟨⟨hdot, fun hm => ?_⟩, ih hbefore⟩
    exact absurd (hup hm).1 (by decide)

/-- Steps that all lead down are a shortest list. -/
theorem shortest_of_leadsDown : ∀ {taken : List String}, (∀ n ∈ taken, n ≠ "." ∧ n ≠ "..") →
    Shortest rooted taken
  | [], _ => trivial
  | _ :: _, h => by
    obtain ⟨⟨hdot, hup⟩, hbefore⟩ := List.forall_mem_cons.mp h
    exact ⟨shortest_of_leadsDown hbefore, hdot, fun hn => absurd hn hup⟩

end Shortest

section Components

theorem splitChar_append_cons (sep : Char) (s t : List Char) :
    Text.splitChar sep (s ++ sep :: t) = Text.splitChar sep s ++ Text.splitChar sep t := by
  induction s with
  | nil => exact Text.splitChar_self sep t
  | cons c s ih =>
    by_cases hc : c = sep
    · subst hc
      rw [List.cons_append, Text.splitChar_self, Text.splitChar_self, ih, List.cons_append]
    · obtain ⟨piece, pieces, hs, hcs⟩ := Text.splitChar_of_ne hc s
      obtain ⟨first, rest, hs', hcs'⟩ := Text.splitChar_of_ne hc (s ++ sep :: t)
      rw [ih, hs, List.cons_append] at hs'
      obtain ⟨rfl, rfl⟩ := List.cons_eq_cons.mp hs'
      rw [List.cons_append, hcs', hcs, List.cons_append]

/-- The names of a path that goes on behind a slash. -/
theorem components_append (s t : String) :
    components (s ++ "/" ++ t) = components s ++ components t := by
  have hlist : (s ++ "/" ++ t).toList = s.toList ++ '/' :: t.toList := by
    rw [String.toList_append, String.toList_append, List.append_assoc]
    rfl
  rw [components, hlist, splitChar_append_cons, List.map_append, List.filter_append]
  rfl

theorem components_of_isName (h : IsName n) : components n = [n] := by
  rw [components, Text.splitChar_of_not_mem h.2]
  simp [h.1]

theorem isAbsolute_append (h : s ≠ "") (t : String) : isAbsolute (s ++ t) = isAbsolute s := by
  have hs : s.toList ≠ [] := by simpa using h
  obtain ⟨c, rest, hlist⟩ := List.exists_cons_of_ne_nil hs
  rw [Bool.eq_iff_iff, isAbsolute_iff, isAbsolute_iff, String.toList_append, hlist]
  simp

theorem isAbsolute_of_isName (h : IsName n) : isAbsolute n = false := by
  rw [← Bool.not_eq_true, isAbsolute_iff]
  rintro ⟨rest, hlist⟩
  exact h.2 (hlist ▸ List.mem_cons_self)

/-- A slash at the front of a path adds no name. -/
theorem components_slash (s : String) : components ("/" ++ s) = components s := by
  have h := components_append "" s
  rwa [String.empty_append] at h

end Components

section Clean

/-- The text of a list of steps. -/
def ofSteps (rooted : Bool) (names : List String) : String :=
  if rooted then Path.rooted names
  else match names with
    | [] => "."
    | names => "/".intercalate names

theorem ofSteps_relative (h : names ≠ []) : ofSteps false names = "/".intercalate names := by
  cases names with
  | nil => exact absurd rfl h
  | cons n names => rfl

theorem clean_eq (p : String) : clean p = ofSteps (isAbsolute p) (steps p) := rfl

theorem rooted_eq (names : List String) : Path.rooted names = "/" ++ "/".intercalate names := rfl

theorem rooted_concat (h : names ≠ []) (n : String) :
    Path.rooted (names ++ [n]) = Path.rooted names ++ "/" ++ n := by
  induction names with
  | nil => exact absurd rfl h
  | cons m names ih =>
    cases names with
    | nil =>
      rw [List.singleton_append, rooted_cons, rooted_singleton, rooted_singleton]
      simp only [String.append_assoc]
    | cons k names =>
      rw [List.cons_append, List.cons_append, rooted_cons, ← List.cons_append,
        ih (List.cons_ne_nil k names), rooted_cons]
      simp only [String.append_assoc]

theorem intercalate_concat (h : names ≠ []) (n : String) :
    "/".intercalate (names ++ [n]) = "/".intercalate names ++ "/" ++ n := by
  have hrooted := rooted_concat h n
  rw [rooted_eq, rooted_eq, String.append_assoc, String.append_assoc] at hrooted
  have hlist := congrArg String.toList hrooted
  rw [String.toList_append, String.toList_append (s := "/")] at hlist
  rw [String.append_assoc]
  exact String.toList_injective (List.append_cancel_left hlist)

theorem components_intercalate (h : ∀ n ∈ names, IsName n) :
    components ("/".intercalate names) = names := by
  rw [← components_slash, ← rooted_eq, components_rooted h]

theorem intercalate_ne_empty (h : n ≠ "") (names : List String) :
    "/".intercalate (n :: names) ≠ "" := by
  cases names with
  | nil => rwa [String.intercalate_singleton]
  | cons m names =>
    rw [String.intercalate_cons_cons]
    simp [h]

theorem isAbsolute_intercalate (hn : n ≠ "") (names : List String) :
    isAbsolute ("/".intercalate (n :: names)) = isAbsolute n := by
  cases names with
  | nil => rw [String.intercalate_singleton]
  | cons m names => rw [String.intercalate_cons_cons, String.append_assoc, isAbsolute_append hn]

theorem isAbsolute_ofSteps (h : ∀ n ∈ names, IsName n) :
    isAbsolute (ofSteps rooted names) = rooted := by
  cases rooted with
  | true => exact isAbsolute_rooted names
  | false =>
    cases names with
    | nil => decide
    | cons n names =>
      have hn := h n List.mem_cons_self
      rw [ofSteps_relative (List.cons_ne_nil n names), isAbsolute_intercalate hn.1,
        isAbsolute_of_isName hn]

/-- The text of a shortest list of steps has these steps. -/
theorem steps_ofSteps (h : ∀ n ∈ names, IsName n) (hshort : Shortest rooted names.reverse) :
    steps (ofSteps rooted names) = names := by
  rw [steps, isAbsolute_ofSteps h]
  cases rooted with
  | true =>
    change ((components (Path.rooted names)).foldl (step true) []).reverse = names
    rw [components_rooted h, hshort.foldl]
  | false =>
    cases names with
    | nil => rfl
    | cons n names =>
      rw [ofSteps_relative (List.cons_ne_nil n names), components_intercalate h, hshort.foldl]

@[simp] theorem isAbsolute_clean (p : String) : isAbsolute (clean p) = isAbsolute p :=
  isAbsolute_ofSteps (isName_of_mem_steps p)

@[simp] theorem steps_clean (p : String) : steps (clean p) = steps p :=
  steps_ofSteps (isName_of_mem_steps p) (shortest_steps p)

/-- What is clean stays as it is. -/
@[simp] theorem clean_clean (p : String) : clean (clean p) = clean p := by
  rw [clean_eq (clean p), isAbsolute_clean, steps_clean, ← clean_eq]

end Clean

section Joined

theorem join_eq (h : paths.filter (· ≠ "") ≠ []) :
    join paths = clean ("/".intercalate (paths.filter (· ≠ ""))) := by
  rw [join]
  split
  · rename_i hnil
    exact absurd hnil h
  · rfl

/-- A name at the end of paths is among those that are joined. -/
theorem filter_concat (paths : List String) (hn : IsName n) :
    (paths ++ [n]).filter (· ≠ "") = paths.filter (· ≠ "") ++ [n] := by
  rw [List.filter_append, List.filter_singleton]
  simp [hn.1]

theorem filter_concat_ne_nil (paths : List String) (hn : IsName n) :
    (paths ++ [n]).filter (· ≠ "") ≠ [] := by
  rw [filter_concat paths hn]
  exact List.concat_ne_nil _ _

/-- Going down by one more name from where paths lead makes the list of steps longer by it. -/
theorem join_concat (h : paths.filter (· ≠ "") ≠ []) (hn : IsName n) (hdown : n ≠ "." ∧ n ≠ "..") :
    isAbsolute (join (paths ++ [n])) = isAbsolute (join paths) ∧
      steps (join (paths ++ [n])) = steps (join paths) ++ [n] := by
  have hlonger := intercalate_concat h n
  have hempty : "/".intercalate (paths.filter (· ≠ "")) ≠ "" := by
    obtain ⟨first, rest, hpresent⟩ := List.exists_cons_of_ne_nil h
    have hmem : first ∈ paths.filter (· ≠ "") := hpresent ▸ List.mem_cons_self
    rw [hpresent]
    exact intercalate_ne_empty (by simpa using (List.mem_filter.mp hmem).2) rest
  have habs : isAbsolute ("/".intercalate (paths.filter (· ≠ "")) ++ "/" ++ n) =
      isAbsolute ("/".intercalate (paths.filter (· ≠ ""))) := by
    rw [String.append_assoc, isAbsolute_append hempty]
  rw [join_eq h, join_eq (filter_concat_ne_nil paths hn), filter_concat paths hn, hlonger,
    isAbsolute_clean, isAbsolute_clean, steps_clean, steps_clean]
  refine ⟨habs, ?_⟩
  rw [steps, steps, habs, components_append, components_of_isName hn, List.foldl_append,
    List.foldl_cons, List.foldl_nil, step_of_down hdown, List.reverse_cons]

end Joined

section Parent

/-- What stands before the last name of a path that is put together from steps. -/
theorem exists_front (rooted : Bool) (h : ∀ m ∈ names, IsName m) (n : String) : ∃ front : String,
    ofSteps rooted (names ++ [n]) = front ++ n ∧ (∀ c ∈ front.toList.getLast?, c = '/') ∧
      components front = names ∧ isAbsolute front = rooted := by
  have hslash : ∀ s : String, ∀ c ∈ (s ++ "/").toList.getLast?, c = '/' := by
    intro s c hc
    rw [String.toList_append, List.getLast?_append_of_ne_nil _ (by simp)] at hc
    exact (Option.mem_some_iff.mp hc).symm
  have hsame : ∀ s : String, components (s ++ "/") = components s := by
    intro s
    have hsplit := components_append s ""
    rw [String.append_empty] at hsplit
    rw [hsplit]
    exact List.append_nil _
  cases names with
  -- alone the name has the root in front of it, or nothing
  | nil =>
    cases rooted with
    | true => exact ⟨"/", rooted_singleton n, hslash "", rfl, by decide⟩
    | false =>
      refine ⟨"", ?_, by simp, rfl, by decide⟩
      change "/".intercalate [n] = "" ++ n
      rw [String.intercalate_singleton, String.empty_append]
  | cons m names =>
    have hne : m :: names ≠ [] := List.cons_ne_nil m names
    cases rooted with
    | true =>
      have hempty : Path.rooted (m :: names) ≠ "" := by
        rw [rooted_eq]
        simp
      exact ⟨Path.rooted (m :: names) ++ "/", rooted_concat hne n, hslash _,
        (hsame _).trans (components_rooted h),
        (isAbsolute_append hempty _).trans (isAbsolute_rooted _)⟩
    | false =>
      have hm := h m List.mem_cons_self
      have hempty := intercalate_ne_empty hm.1 names
      have habs := (isAbsolute_intercalate hm.1 names).trans (isAbsolute_of_isName hm)
      exact ⟨"/".intercalate (m :: names) ++ "/", intercalate_concat hne n, hslash _,
        (hsame _).trans (components_intercalate h), (isAbsolute_append hempty _).trans habs⟩

theorem splitLast_append (h : ∀ c ∈ s.toList.getLast?, c = '/') (ht : '/' ∉ t.toList) :
    splitLast (s ++ t) = (s.toList, t.toList) := by
  have hafter : (t.toList.reverse ++ s.toList.reverse).takeWhile (· ≠ '/') = t.toList.reverse := by
    have hall : ∀ c ∈ t.toList.reverse, decide (c ≠ '/') = true := by
      intro c hc
      exact decide_eq_true fun he => ht (he ▸ List.mem_reverse.mp hc)
    rw [List.takeWhile_append_of_pos hall]
    have hstop : s.toList.reverse.takeWhile (· ≠ '/') = [] := by
      cases hs : s.toList.reverse with
      | nil => rfl
      | cons c rest =>
        have hlast : s.toList.getLast? = some c := by
          rw [← List.head?_reverse, hs, List.head?_cons]
        rw [h c hlast]
        rfl
    rw [hstop, List.append_nil]
  rw [splitLast, String.toList_append, List.reverse_append, hafter, List.reverse_reverse,
    List.length_append, Nat.add_sub_cancel, List.take_left']
  rfl

/-- The directory of a path that goes one name further than another path is that path. -/
theorem parent_ofSteps (h : ∀ m ∈ names, IsName m) (hshort : Shortest rooted names.reverse)
    (hn : IsName n) : parent (ofSteps rooted (names ++ [n])) = ofSteps rooted names := by
  obtain ⟨front, htext, hlast, hnames, habs⟩ := exists_front rooted h n
  have hsteps : steps front = names := by
    rw [steps, hnames, habs, hshort.foldl]
  rw [parent, htext, splitLast_append hlast hn.2, String.ofList_toList, clean_eq, hsteps, habs]

theorem parent_rooted (h : ∀ m ∈ names, IsName m) (hshort : Shortest true names.reverse)
    (hn : IsName n) : parent (Path.rooted (names ++ [n])) = Path.rooted names := by
  change parent (ofSteps true (names ++ [n])) = ofSteps true names
  exact parent_ofSteps h hshort hn

theorem name_ofSteps (h : ∀ m ∈ names, IsName m) (hn : IsName n) :
    name (ofSteps rooted (names ++ [n])) = n := by
  have hall : ∀ m ∈ names ++ [n], IsName m := by
    intro m hm
    rcases List.mem_append.mp hm with hm | hm
    · exact h m hm
    · rwa [List.mem_singleton.mp hm]
  have hcomponents : components (ofSteps rooted (names ++ [n])) = names ++ [n] := by
    cases rooted with
    | true => exact components_rooted hall
    | false => rw [ofSteps_relative (List.concat_ne_nil _ _), components_intercalate hall]
  rw [name, hcomponents, List.getLast?_concat]

/-- A path that goes down by one name from where paths lead is a child of the directory there. -/
theorem parent_join_concat (h : paths.filter (· ≠ "") ≠ []) (hn : IsName n)
    (hdown : n ≠ "." ∧ n ≠ "..") :
    parent (join (paths ++ [n])) = join paths ∧ name (join (paths ++ [n])) = n := by
  have hclean : ∀ {paths : List String}, paths.filter (· ≠ "") ≠ [] →
      join paths = ofSteps (isAbsolute (join paths)) (steps (join paths)) := by
    intro paths hsome
    rw [← clean_eq, join_eq hsome, clean_clean]
  obtain ⟨habs, hsteps⟩ := join_concat h hn hdown
  have htext := hclean (filter_concat_ne_nil paths hn)
  rw [habs, hsteps] at htext
  have hnames := isName_of_mem_steps (join paths)
  rw [htext]
  exact ⟨(parent_ofSteps hnames (shortest_steps _) hn).trans (hclean h).symm,
    name_ofSteps hnames hn⟩

end Parent

end ScriptKit.Path
