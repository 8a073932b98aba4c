import ScriptKit.Proofs.FileSystem.Cleaned
import ScriptKit.Proofs.FileSystem.Directories

namespace ScriptKit.Path

/-- Detours can be left out before the names are put behind others. -/
theorem foldl_step_reduced (names taken : List String) :
    ((names.foldl (step false) []).reverse).foldl (step true) taken =
      names.foldl (step true) taken := by
  induction names using List.reverseRecOn with
  | nil => rfl
  | append_singleton names n ih =>
    have hshort : Shortest false (names.foldl (step false) []) := .foldl_step names trivial
    rw [List.foldl_append, List.foldl_append, ← ih]
    generalize names.foldl (step false) [] = reduced at hshort
    simp only [List.foldl_cons, List.foldl_nil]
    by_cases hdot : n = "."
    · rw [hdot]
      rfl
    by_cases hup : n = ".."
    · -- a step up takes a name back, or is kept
      subst hup
      cases reduced with
      | nil => rfl
      | cons last before =>
        by_cases hlast : last = ".."
        · simp [step, hlast]
        · rw [step_up hlast, List.reverse_cons, List.foldl_append, List.foldl_cons, List.foldl_nil,
            step_of_down ⟨hshort.2.1, hlast⟩, step_up hlast]
    · rw [step_of_down ⟨hdot, hup⟩, List.reverse_cons, List.foldl_append]
      rfl

end ScriptKit.Path

namespace ScriptKit.FileSystem

variable {fs gs hs : FileSystem} {p q n : String} {place source target names taken : List String}
  {e : Entry}

section Places

theorem place_congr (h : gs.workingDirectory = fs.workingDirectory) (p : String) :
    gs.place p = fs.place p := by
  rw [FileSystem.place, FileSystem.place, wayTo, wayTo, h]

theorem place_eq_steps (h : Path.isAbsolute p = true) : fs.place p = Path.steps p := by
  rw [FileSystem.place, wayTo, if_pos h, foldl_step_namesOf, Path.steps, h]

theorem leadsDown_of_mem_place (fs : FileSystem) (p : String) : ∀ n ∈ fs.place p, LeadsDown n :=
  have hshort : Path.Shortest true ((fs.wayTo p).foldl (Path.step true) []) :=
    .foldl_step (fs.wayTo p) trivial
  fun n hn => hshort.leadsDown n (List.mem_reverse.mp hn)

theorem isName_of_mem_wayTo (fs : FileSystem) (p : String) : ∀ n ∈ fs.wayTo p, Path.IsName n := by
  have hnames : ∀ n ∈ namesOf p, Path.IsName n := by
    intro n hn
    rw [namesOf] at hn
    split at hn
    · rcases List.mem_append.mp hn with hn | hn
      · exact (Path.mem_components hn).1
      · rw [List.mem_singleton.mp hn]
        exact ⟨by decide, by decide⟩
    · rw [List.append_nil] at hn
      exact (Path.mem_components hn).1
  intro n hn
  rw [wayTo] at hn
  split at hn
  · exact hnames n hn
  · rcases List.mem_append.mp hn with hn | hn
    · exact (Path.mem_components hn).1
    · exact hnames n hn

theorem isName_of_mem_place (fs : FileSystem) (p : String) : ∀ n ∈ fs.place p, Path.IsName n := by
  have hsub := Path.foldl_step_sublist true (fs.wayTo p) []
  intro n hn
  have hway : n ∈ (fs.wayTo p).reverse ++ [] := hsub.subset (List.mem_reverse.mp hn)
  rw [List.append_nil, List.mem_reverse] at hway
  exact isName_of_mem_wayTo fs p n hway

/-- Cleaning a path does not change its place. -/
theorem place_clean (fs : FileSystem) (p : String) : fs.place (Path.clean p) = fs.place p := by
  by_cases habs : Path.isAbsolute p = true
  · rw [place_eq_steps ((Path.isAbsolute_clean p).trans habs), place_eq_steps habs,
      Path.steps_clean]
  · have habs : Path.isAbsolute p = false := Bool.not_eq_true _ ▸ habs
    have hclean : ∀ taken, (Path.components (Path.clean p)).foldl (Path.step true) taken =
        (Path.steps p).foldl (Path.step true) taken := by
      intro taken
      rw [Path.clean_eq, habs]
      cases hsteps : Path.steps p with
      | nil => rfl
      | cons n names =>
        rw [Path.ofSteps_relative (List.cons_ne_nil n names), ← hsteps,
          Path.components_intercalate (Path.isName_of_mem_steps p)]
    -- the names of a relative path come behind those of the working directory
    have hway : ∀ q, Path.isAbsolute q = false → fs.place q =
        ((Path.components q).foldl (Path.step true)
          ((Path.components fs.workingDirectory).foldl (Path.step true) [])).reverse := by
      intro q hq
      rw [FileSystem.place, wayTo, hq, if_neg (by decide), List.foldl_append, foldl_step_namesOf]
    rw [hway _ ((Path.isAbsolute_clean p).trans habs), hway _ habs, hclean, Path.steps, habs,
      Path.foldl_step_reduced]

/-- A name behind a path is one step more. -/
theorem place_join (fs : FileSystem) (p : String) (hn : Path.IsName n) :
    fs.place (Path.join [p, n]) = (Path.step true (fs.place p).reverse n).reverse := by
  obtain ⟨text, hjoin, habs, hnames⟩ : ∃ text, Path.join [p, n] = Path.clean text ∧
      Path.isAbsolute text = Path.isAbsolute p ∧
        Path.components text = Path.components p ++ [n] := by
    have hone := Path.components_of_isName hn
    -- a path that is empty is left out when it is joined
    by_cases hp : p = ""
    · refine ⟨n, ?_, ?_, ?_⟩
      · rw [Path.join_eq (by simp [hp, hn.1])]
        simp [hp, hn.1]
      · rw [Path.isAbsolute_of_isName hn, hp]
        decide
      · rw [hone, hp]
        rfl
    · refine ⟨p ++ "/" ++ n, ?_, ?_, ?_⟩
      · rw [Path.join_eq (by simp [hp])]
        simp [hp, hn.1, String.intercalate_cons_cons]
      · rw [String.append_assoc, Path.isAbsolute_append hp]
      · rw [Path.components_append, hone]
  rw [hjoin, place_clean, FileSystem.place, FileSystem.place, List.reverse_reverse, wayTo, wayTo,
    habs]
  split
  · rw [foldl_step_namesOf, foldl_step_namesOf, hnames, List.foldl_append]
    rfl
  · rw [List.foldl_append, List.foldl_append, foldl_step_namesOf, foldl_step_namesOf, hnames,
      List.foldl_append]
    rfl

theorem place_join_of_down (fs : FileSystem) (p : String) (hn : Path.IsName n)
    (hdown : LeadsDown n) : fs.place (Path.join [p, n]) = fs.place p ++ [n] := by
  rw [place_join fs p hn, Path.step_of_down hdown, List.reverse_cons, List.reverse_reverse]

end Places

section Reached

/-- What is found at a path is at its place. -/
theorem leadTo_place (h : fs.find p = .ok e) : fs.LeadTo (fs.place p).reverse e := by
  rw [FileSystem.place, List.reverse_reverse]
  exact leadTo_nil.foldl_step (find_eq_ok_iff.mp h).2.2.2

/-- The way to an entry leads through directories. -/
theorem LeadTo.of_append : ∀ {names : List String} {e : Entry}, fs.LeadTo (names ++ taken) e →
    ∃ e', fs.LeadTo taken e'
  | [], e, h => ⟨e, h⟩
  | _ :: _, _, h => of_append h.up

theorem LeadTo.of_prefix (h : fs.LeadTo names e) (hplace : place <+: names.reverse) :
    ∃ e', fs.LeadTo place.reverse e' := by
  obtain ⟨rest, hrest⟩ := hplace
  have hnames : names = rest.reverse ++ place.reverse := by
    rw [← List.reverse_append, hrest, List.reverse_reverse]
  rw [hnames] at h
  exact h.of_append

/-- Nothing leads to a place where nothing is found. -/
theorem not_leadTo_of_find (hnames : ∀ n ∈ names, Path.IsName n)
    (h : fs.find (Path.rooted names) = .error .notExist) : ¬fs.LeadTo names.reverse e := by
  -- the root is always there
  have hne : names ≠ [] := by
    rintro rfl
    have hroot : fs.find (Path.rooted []) = .ok .directory := by
      rw [find_eq_ok_iff]
      exact ⟨by decide, by decide, by decide, rfl⟩
    rw [hroot] at h
    cases h
  rintro ⟨-, hfollow⟩
  rw [List.reverse_reverse, (follow_of_find_rooted (e := e) hnames hne).2 h] at hfollow
  cases hfollow

/-- What names lead to in one file system they lead to in another. -/
structure Keeps (fs gs : FileSystem) : Prop where
  workingDirectory : gs.workingDirectory = fs.workingDirectory
  entries : ∀ {names e}, (∀ n ∈ names, Path.IsName n) → fs.LeadTo names e →
    gs.entries.find? (Path.rooted names.reverse) = fs.entries.find? (Path.rooted names.reverse)

theorem Keeps.refl (fs : FileSystem) : fs.Keeps fs :=
  ⟨rfl, fun _ _ => rfl⟩

theorem Keeps.follow (h : fs.Keeps gs) : ∀ {names taken : List String} {entry : Entry},
    (∀ n ∈ names, Path.IsName n) → (∀ n ∈ taken, Path.IsName n) → fs.LeadTo taken entry →
      fs.follow taken entry names = .ok e → gs.follow taken entry names = .ok e
  | [], _, _, _, _, _, hfollow => hfollow
  | _ :: _, _, .file _, _, _, _, hfollow => by cases hfollow
  | n :: names, taken, .directory, hnames, htaken, hlead, hfollow => by
    obtain ⟨hn, hmore⟩ := List.forall_mem_cons.mp hnames
    obtain ⟨entry, hstep, hrest⟩ := hlead.step hfollow
    rcases leadsDown_or n with hdown | rfl | rfl
    · have htaken' : ∀ m ∈ n :: taken, Path.IsName m := List.forall_mem_cons.mpr ⟨hn, htaken⟩
      rw [Path.step_of_down hdown] at hstep hrest
      -- the entry is the one that the name leads to in the first file system
      have hsame := h.entries htaken' hstep
      have hone := (leadTo_concat hdown hlead).mp hstep
      rw [follow_cons hdown] at hone hfollow ⊢
      rw [hsame]
      split at hone
      · cases hone
      · rename_i hlong
        rw [if_neg hlong]
        cases hentry : fs.entries.find? (Path.rooted (n :: taken).reverse) with
        | none =>
          rw [hentry] at hone
          cases hone
        | some entry' =>
          rw [hentry] at hone
          cases hone
          exact h.follow hmore htaken' hstep hrest
    -- a name that leads nowhere or up leads to where one has been before
    · have hstay : fs.follow taken .directory names = .ok e := hfollow
      have hkept := h.follow hmore htaken hlead hstay
      exact hkept
    · have hup : ∀ m ∈ taken.drop 1, Path.IsName m := fun m hm => htaken m (List.mem_of_mem_drop hm)
      have hback : fs.follow (taken.drop 1) .directory names = .ok e := hfollow
      have hlead' : fs.LeadTo (taken.drop 1) .directory := by
        cases taken with
        | nil => exact hlead
        | cons last before => exact hlead.up
      have hkept := h.follow hmore hup hlead' hback
      exact hkept

theorem Keeps.find (h : fs.Keeps gs) (hp : fs.find p = .ok e) : gs.find p = .ok e := by
  obtain ⟨hnull, hne, hlong, hfollow⟩ := find_eq_ok_iff.mp hp
  have hway : gs.wayTo p = fs.wayTo p := by rw [wayTo, wayTo, h.workingDirectory]
  refine find_eq_ok_iff.mpr ⟨hnull, hne, hlong, ?_⟩
  rw [hway]
  exact h.follow (isName_of_mem_wayTo fs p) (by simp) leadTo_nil hfollow

theorem Keeps.leadTo (h : fs.Keeps gs) (hnames : ∀ n ∈ names, Path.IsName n)
    (hlead : fs.LeadTo names e) : gs.LeadTo names e :=
  ⟨hlead.1, h.follow (fun n hn => hnames n (List.mem_reverse.mp hn)) (by simp) leadTo_nil hlead.2⟩

theorem Keeps.has (h : fs.Keeps gs) (hp : fs.Has p) : gs.Has p := by
  obtain ⟨e, he⟩ := hp
  exact ⟨e, h.find he⟩

end Reached

section Without

theorem isWithin_rooted (hnames : ∀ n ∈ names, Path.IsName n) :
    isWithin place (Path.rooted names) = true ↔ place <+: names := by
  rw [isWithin, Path.components_rooted hnames, List.isPrefixOf_iff_prefix]

theorem find?_without (h : isWithin place p = false) :
    (fs.without place).entries.find? p = fs.entries.find? p := by
  rw [without, NameTable.find?, NameTable.lookup_filter fun path => !isWithin place path, h,
    NameTable.find?]
  rfl

theorem without_comm (fs : FileSystem) (source target : List String) :
    (fs.without source).without target = (fs.without target).without source := by
  rw [without, without, without, without, List.filter_comm]

/-- Below a place that is taken away there is nothing left to be taken away. -/
theorem without_without (h : place <+: target) (fs : FileSystem) :
    (fs.without target).without place = fs.without place := by
  have hboth : ∀ path, (!isWithin place path && !isWithin target path) = !isWithin place path := by
    intro path
    by_cases hpath : isWithin target path = true
    · rw [isWithin, List.isPrefixOf_iff_prefix] at hpath
      have hplace : isWithin place path = true := List.isPrefixOf_iff_prefix.mpr (h.trans hpath)
      rw [hplace]
      rfl
    · rw [Bool.not_eq_true] at hpath
      rw [hpath, Bool.not_false, Bool.and_true]
  rw [without, without, without]
  dsimp only
  rw [List.filter_filter]
  simp only [hboth]

theorem workingDirectory_of_without
    (h : (gs.without source).without target = (fs.without source).without target) :
    gs.workingDirectory = fs.workingDirectory := by
  have hleft := congrArg FileSystem.workingDirectory h
  exact hleft

/-- What does not come from two places comes from what is left without them. -/
theorem filterMap_of_without {β : Type} {f : String × Entry → Option β}
    (hf : ∀ path entry, isWithin source path = true ∨ isWithin target path = true →
      f (path, entry) = none)
    (h : (gs.without source).without target = (fs.without source).without target) :
    gs.entries.entries.filterMap f = fs.entries.entries.filterMap f := by
  -- what is taken away gives nothing in either file system
  have hleft : ∀ hs : FileSystem, hs.entries.entries.filterMap f =
      ((hs.without source).without target).entries.entries.filterMap f := by
    intro hs
    rw [without, without]
    dsimp only
    rw [List.filterMap_filter, List.filterMap_filter]
    refine List.filterMap_congr fun entry _ => ?_
    obtain ⟨path, entry⟩ := entry
    have hpath := hf path entry
    by_cases hsource : isWithin source path = true <;>
      by_cases htarget : isWithin target path = true <;> simp_all
  rw [hleft gs, h, ← hleft fs]

/-- Nothing is reached by way of two places, and what is left without them is the same. -/
theorem Keeps.of_without (hsource : ∀ e, ¬fs.LeadTo source.reverse e)
    (htarget : ∀ e, ¬fs.LeadTo target.reverse e)
    (h : (gs.without source).without target = (fs.without source).without target) :
    fs.Keeps gs where
  workingDirectory := workingDirectory_of_without h
  entries {names e} hnames hlead := by
    -- a place on the way to an entry would be reached itself
    have houtside : ∀ place, (∀ e, ¬fs.LeadTo place.reverse e) →
        isWithin place (Path.rooted names.reverse) = false := by
      intro place hplace
      rw [← Bool.not_eq_true, isWithin_rooted fun n hn => hnames n (List.mem_reverse.mp hn)]
      intro hopens
      obtain ⟨e', he'⟩ := hlead.of_prefix hopens
      exact hplace e' he'
    have hfind := congrArg (fun fs => fs.entries.find? (Path.rooted names.reverse)) h
    rwa [find?_without (houtside target htarget), find?_without (houtside source hsource),
      find?_without (houtside target htarget), find?_without (houtside source hsource)] at hfind

/-- Of two places neither is on the way to the other. -/
def Apart (source target : List String) : Prop :=
  ¬source <+: target ∧ ¬target <+: source

/-- The files of a directory do not depend on places that are apart from it. -/
theorem filesBelow_of_without {directory : String}
    (hsource : Apart source (Path.steps (fs.absolute directory)))
    (htarget : Apart target (Path.steps (fs.absolute directory)))
    (h : (gs.without source).without target = (fs.without source).without target) :
    gs.filesBelow directory = fs.filesBelow directory := by
  have habsolute : gs.absolute directory = fs.absolute directory := by
    rw [absolute, absolute, workingDirectory_of_without h]
  -- what is below two places puts one of them on the way to the other
  have houtside : ∀ {place path}, Apart place (Path.steps (fs.absolute directory)) →
      isWithin place path = true →
        (Path.steps (fs.absolute directory)).isPrefixOf (Path.components path) = false := by
    intro place path hplace hwithin
    rw [isWithin, List.isPrefixOf_iff_prefix] at hwithin
    rw [← Bool.not_eq_true, List.isPrefixOf_iff_prefix]
    intro hbelow
    exact (List.prefix_or_prefix_of_prefix hwithin hbelow).elim hplace.1 hplace.2
  unfold filesBelow
  dsimp only
  rw [habsolute, filterMap_of_without (fun path entry hpath => ?_) h]
  cases entry with
  | directory => rfl
  | file content =>
    have hnot := hpath.elim (houtside hsource) (houtside htarget)
    dsimp only
    rw [hnot]
    rfl

end Without

section Changes

/-- Nothing changes but at a path and below it. -/
def ChangesWithin (path : String) (fs gs : FileSystem) : Prop :=
  gs.without (fs.place path) = fs.without (fs.place path)

theorem ChangesWithin.place_eq (h : ChangesWithin p fs gs) (q : String) :
    gs.place q = fs.place q := by
  have hleft := congrArg FileSystem.workingDirectory h
  exact place_congr hleft q

theorem ChangesWithin.trans (h : ChangesWithin p fs gs) (h' : ChangesWithin p gs hs) :
    ChangesWithin p fs hs := by
  rw [ChangesWithin, h.place_eq] at h'
  exact Eq.trans h' h

/-- A change within a directory of another one is a change within this. -/
theorem ChangesWithin.up (h : ChangesWithin q fs gs) (hplace : fs.place p <+: fs.place q) :
    ChangesWithin p fs gs := by
  have hmore := congrArg (·.without (fs.place p)) h
  rwa [without_without hplace, without_without hplace] at hmore

/-- A directory is made at a place that nothing leads to. -/
theorem makeDirectory_cases (h : fs.makeDirectory p = .ok gs) :
    ChangesWithin p fs gs ∧ ∀ e, ¬fs.LeadTo (fs.place p).reverse e := by
  unfold makeDirectory at h
  dsimp only at h
  split at h
  · cases h
  · rename_i hfind
    split at h
    · cases h
      refine ⟨?_, fun e => not_leadTo_of_find (isName_of_mem_place fs p) hfind⟩
      have hwithin : (!isWithin (fs.place p) (Path.rooted (fs.place p))) = false := by
        rw [(isWithin_rooted (isName_of_mem_place fs p)).mpr (List.prefix_refl _)]
        rfl
      rw [ChangesWithin, without, without]
      dsimp only
      rw [NameTable.filter_insert (f := fun path => !isWithin (fs.place p) path) hwithin]
    · cases h
  · cases h

theorem makeNew_cases {make : String → Except FileError FileSystem} {path : Nat → String}
    {exhausted : FileError} : ∀ {attempts : Nat},
      makeNew make path exhausted attempts = .ok (p, gs) → ∃ n, path n = p ∧ make p = .ok gs
  | 0, h => by cases h
  | attempts + 1, h => by
    rw [makeNew] at h
    split at h
    · rename_i hmade
      cases h
      exact ⟨_, rfl, hmade⟩
    · split at h
      · exact makeNew_cases h
      · cases h

theorem makeTemporary_cases {directory beginning : String} {number : Nat → Nat}
    (h : fs.makeTemporary directory beginning number = .ok (p, gs)) :
    ∃ n : Nat, p = Path.join [directory, beginning ++ toString n] ∧
      fs.makeDirectory p = .ok gs := by
  unfold makeTemporary at h
  dsimp only at h
  split at h
  · rename_i hmade
    cases h
    obtain ⟨n, hpath, hmade⟩ := makeNew_cases hmade
    exact ⟨number n, hpath.symm, hmade⟩
  · split at h
    · cases h
    · cases h

theorem ChangesWithin.of_removeAll (h : fs.removeAll p = .ok gs) : ChangesWithin p fs gs := by
  unfold removeAll at h
  split at h
  · cases h
    exact without_without (List.prefix_refl _) fs
  · cases h
    rfl
  · cases h

theorem ChangesWithin.of_discard (p : String) (fs : FileSystem) :
    ChangesWithin p fs (fs.discard p) := by
  unfold discard
  split
  · rename_i hleft
    exact .of_removeAll hleft
  · rfl

/-- A directory is brought to a place that nothing leads to. -/
theorem rename_cases (h : fs.rename p q = .ok gs) :
    gs = fs.relocate (fs.place p) (fs.place q) ∧ ∀ e, ¬fs.LeadTo (fs.place q).reverse e := by
  unfold rename at h
  dsimp only at h
  split at h
  · cases h
  · cases h
  · cases h
  · rename_i hfind
    split at h
    · cases h
    · split at h
      · cases h
      · cases h
        exact ⟨rfl, fun e => not_leadTo_of_find (isName_of_mem_place fs q) hfind⟩
  · cases h

/-- Only what is put beside the rest is taken away again. -/
theorem filter_append_within {rest moved : List (String × Entry)}
    (h : ∀ e ∈ moved, isWithin place e.1 = true) :
    (rest ++ moved).filter (fun e => !isWithin place e.1) =
      rest.filter fun e => !isWithin place e.1 := by
  have hnone : moved.filter (fun e => !isWithin place e.1) = [] := by
    rw [List.filter_eq_nil_iff]
    intro e he
    rw [h e he]
    decide
  rw [List.filter_append, hnone, List.append_nil]

/-- What is brought to a place is gone from where it was. -/
theorem without_relocate (htarget : ∀ n ∈ target, Path.IsName n) :
    (fs.relocate source target).without target = (fs.without source).without target := by
  have hmoved : ∀ path, isWithin target
      (Path.rooted (target ++ (Path.components path).drop source.length)) = true := by
    intro path
    refine (isWithin_rooted fun n hn => ?_).mpr (List.prefix_append _ _)
    rcases List.mem_append.mp hn with hn | hn
    · exact htarget n hn
    · exact (Path.mem_components (List.mem_of_mem_drop hn)).1
  rw [relocate, without]
  dsimp only
  rw [filter_append_within]
  · exact without_without (List.prefix_refl _) _
  · intro e he
    obtain ⟨⟨path, entry⟩, -, hentry⟩ := List.mem_filterMap.mp he
    dsimp only at hentry
    split at hentry
    · cases hentry
      exact hmoved path
    · cases hentry

end Changes

end ScriptKit.FileSystem
