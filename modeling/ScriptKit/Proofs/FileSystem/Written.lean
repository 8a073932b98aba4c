import ScriptKit.Proofs.FileSystem.Cleaned
import ScriptKit.Proofs.FileSystem.Directories

namespace ScriptKit.FileSystem

variable {fs gs : FileSystem} {p place content last : String} {names taken whole init : List String}
  {e : Entry}

section Absolute

/-- The working directory is a place from the root on. -/
def IsRooted (fs : FileSystem) : Prop :=
  Path.isAbsolute fs.workingDirectory = true

theorem isAbsolute_absolute (h : fs.IsRooted) (p : String) :
    Path.isAbsolute (fs.absolute p) = true := by
  rw [absolute, Path.absolute]
  split
  · rename_i hp
    rw [Path.isAbsolute_clean, hp]
  · have hne : fs.workingDirectory ≠ "" := by
      intro hempty
      rw [IsRooted, hempty] at h
      exact absurd h (by decide)
    have hpresent : [fs.workingDirectory, p].filter (· ≠ "") =
        fs.workingDirectory :: [p].filter (· ≠ "") :=
      List.filter_cons_of_pos (by simpa using hne)
    rw [Path.join_eq (hpresent ▸ List.cons_ne_nil _ _), Path.isAbsolute_clean, hpresent,
      Path.isAbsolute_intercalate hne]
    exact h

theorem clean_absolute (h : fs.IsRooted) (p : String) :
    Path.clean (fs.absolute p) = fs.absolute p := by
  have hne : fs.absolute p ≠ "" := by
    intro hempty
    have habs := isAbsolute_absolute h p
    rw [hempty] at habs
    exact absurd habs (by decide)
  rw [absolute, Path.absolute] at hne ⊢
  split
  · exact Path.clean_clean p
  · rename_i hp
    rw [if_neg hp, Path.join] at hne
    rw [Path.join]
    split at hne
    · exact absurd rfl hne
    · exact Path.clean_clean _

/-- A place is the same from everywhere. -/
theorem absolute_of_clean (h : Path.isAbsolute place = true) (hclean : Path.clean place = place) :
    fs.absolute place = place := by
  rw [absolute, Path.absolute, if_pos h, hclean]

end Absolute

section Reading

/-- A new entry is not on the way to places that are not as far away. -/
theorem follow_insert : ∀ {names taken : List String} {entry : Entry},
    (∀ n ∈ names, LeadsDown n ∧ Path.IsName n) → (∀ n ∈ taken, Path.IsName n) →
      (∀ n ∈ whole, Path.IsName n) → taken.length + names.length < whole.length →
        follow { fs with entries := fs.entries.insert (Path.rooted whole) e } taken entry names =
          fs.follow taken entry names
  | [], _, _, _, _, _, _ => rfl
  | _ :: _, _, .file _, _, _, _, _ => rfl
  | n :: names, taken, .directory, hnames, htaken, hwhole, hlength => by
    obtain ⟨⟨hdown, hn⟩, hnames⟩ := List.forall_mem_cons.mp hnames
    have hmore : ∀ m ∈ n :: taken, Path.IsName m := List.forall_mem_cons.mpr ⟨hn, htaken⟩
    -- the way is shorter than the path written, so it does not go through it
    have hkey : Path.rooted (n :: taken).reverse ≠ Path.rooted whole := by
      intro heq
      have hsame := congrArg Path.components heq
      rw [Path.components_rooted fun m hm => hmore m (List.mem_reverse.mp hm),
        Path.components_rooted hwhole] at hsame
      have hcount := congrArg List.length hsame
      rw [List.length_reverse] at hcount
      simp only [List.length_cons] at hcount hlength
      omega
    rw [follow_cons hdown, follow_cons hdown, NameTable.find?_insert, if_neg hkey]
    split
    · rfl
    · cases fs.entries.find? (Path.rooted (n :: taken).reverse) with
      | none => rfl
      | some entry =>
        rw [Option.elim_some, Option.elim_some]
        refine follow_insert hnames hmore hwhole ?_
        simp only [List.length_cons] at hlength ⊢
        omega

/-- An entry in a directory is found where it was put. -/
theorem follow_insert_self (hnames : ∀ n ∈ init ++ [last], LeadsDown n ∧ Path.IsName n)
    (hinit : fs.follow [] .directory init = .ok .directory)
    (hlength : last.utf8ByteSize ≤ maxNameLength) :
    follow { fs with entries := fs.entries.insert (Path.rooted (init ++ [last])) e } []
      .directory (init ++ [last]) = .ok e := by
  have hdown : ∀ n ∈ init, LeadsDown n :=
    fun n hn => (hnames n (List.mem_append_left _ hn)).1
  have hlast : LeadsDown last := (hnames last (List.mem_append_right _ (by simp))).1
  have hsame : follow { fs with entries := fs.entries.insert (Path.rooted (init ++ [last])) e } []
      .directory init = .ok .directory := by
    rw [← hinit]
    refine follow_insert (fun n hn => hnames n (List.mem_append_left _ hn)) (by simp)
      (fun n hn => (hnames n hn).2) ?_
    simp
  have hkey : Path.rooted (last :: init.reverse).reverse = Path.rooted (init ++ [last]) := by
    rw [List.reverse_cons, List.reverse_reverse]
  rw [follow_append hdown, hsame, List.append_nil]
  change follow _ init.reverse .directory [last] = .ok e
  rw [follow_cons hlast, if_neg (Nat.not_lt.mpr hlength), NameTable.find?_insert, if_pos hkey]
  rfl

/-- The way to a file leads through a directory. -/
theorem follow_of_file (hnames : ∀ n ∈ init ++ [last], LeadsDown n ∧ Path.IsName n)
    (h : fs.find (Path.rooted (init ++ [last])) = .ok (.file content)) :
    fs.follow [] .directory init = .ok .directory ∧ last.utf8ByteSize ≤ maxNameLength := by
  have hdown : ∀ n ∈ init, LeadsDown n :=
    fun n hn => (hnames n (List.mem_append_left _ hn)).1
  have hlast : LeadsDown last := (hnames last (List.mem_append_right _ (by simp))).1
  have hfollow := (follow_of_find_rooted (fun n hn => (hnames n hn).2) (List.concat_ne_nil _ _)).1 h
  rw [follow_append hdown, List.append_nil] at hfollow
  cases hinit : fs.follow [] .directory init with
  | error reason =>
    rw [hinit] at hfollow
    cases hfollow
  | ok entry =>
    rw [hinit] at hfollow
    change fs.follow init.reverse entry [last] = .ok (.file content) at hfollow
    cases entry with
    | file _ => cases hfollow
    | directory =>
      refine ⟨rfl, ?_⟩
      rw [follow_cons hlast] at hfollow
      split at hfollow
      · cases hfollow
      · rename_i hlong
        exact Nat.not_lt.mp hlong

/-- The way to the directory of a place leads to a directory. -/
theorem follow_of_isDirectory (hnames : ∀ n ∈ init ++ [last], LeadsDown n ∧ Path.IsName n)
    (h : fs.isDirectory (Path.parent (Path.rooted (init ++ [last]))) = true) :
    fs.follow [] .directory init = .ok .directory := by
  have hinit : ∀ n ∈ init, Path.IsName n := fun n hn => (hnames n (List.mem_append_left _ hn)).2
  have hshort : Path.Shortest true init.reverse := by
    refine Path.shortest_of_leadsDown fun n hn => ?_
    exact (hnames n (List.mem_append_left _ (List.mem_reverse.mp hn))).1
  have hup : Path.parent (Path.rooted (init ++ [last])) = Path.rooted init :=
    Path.parent_rooted hinit hshort (hnames last (List.mem_append_right _ (by simp))).2
  rw [hup, isDirectory] at h
  split at h
  · rename_i hthere
    by_cases hnil : init = []
    · rw [hnil]
      rfl
    · exact (follow_of_find_rooted hinit hnil).1 hthere
  · cases h

/-- The way to the last name of a place that can be written leads to a directory, and the name is
not too long. -/
theorem follow_of_write (hnames : ∀ n ∈ init ++ [last], LeadsDown n ∧ Path.IsName n)
    (habsolute : fs.absolute (Path.rooted (init ++ [last])) = Path.rooted (init ++ [last]))
    (h : fs.write (Path.rooted (init ++ [last])) content = .ok gs) :
    fs.follow [] .directory init = .ok .directory ∧ last.utf8ByteSize ≤ maxNameLength := by
  unfold write at h
  split at h
  · cases h
  · -- there is a file already
    rename_i old hfind
    exact follow_of_file hnames hfind
  · -- there is none, but its directory is there
    rename_i hfind
    split at h
    · rename_i hparent
      rw [habsolute] at hparent
      have hinit := follow_of_isDirectory hnames (Bool.and_eq_true_iff.mp hparent).2
      have hfollow := (follow_of_find_rooted (e := .directory) (fun n hn => (hnames n hn).2)
        (List.concat_ne_nil _ _)).2 hfind
      rw [follow_append fun n hn => (hnames n (List.mem_append_left _ hn)).1, List.append_nil,
        hinit] at hfollow
      exact ⟨hinit, (find?_of_follow_notExist hfollow).2.1⟩
    · cases h
  · cases h

/-- Writing puts a file in place, under a path that can be looked for. -/
theorem write_cases (h : fs.write p content = .ok gs) :
    gs = fs.put p (.file content) ∧ Char.ofNat 0 ∉ p.toList ∧ p ≠ "" ∧
      p.utf8ByteSize ≤ maxPathLength := by
  have hnull : p.toList.contains (Char.ofNat 0) = true ↔ Char.ofNat 0 ∈ p.toList :=
    List.contains_iff_mem
  unfold write at h
  split at h
  · cases h
  -- where there is a file the path has been looked up
  · rename_i hfind
    obtain ⟨hzero, hne, hsize, -⟩ := find_eq_ok_iff.mp hfind
    cases h
    exact ⟨rfl, hzero, hne, hsize⟩
  -- where there is none only the parent has to be there, and the path is one that may be looked up
  · rename_i hfind
    split at h
    · rename_i hparent
      have hne : p ≠ "" := by simpa using (Bool.and_eq_true_iff.mp hparent).1
      unfold find at hfind
      rw [if_neg hne] at hfind
      split at hfind
      · cases hfind
      · rename_i hzero
        split at hfind
        · cases hfind
        · rename_i hsize
          cases h
          exact ⟨rfl, fun hmem => hzero (hnull.mpr hmem), hne, Nat.not_lt.mp hsize⟩
    · cases h
  · cases h

/-- Writing does not change where a path leads. -/
theorem absolute_of_write (h : fs.write p content = .ok gs) (q : String) :
    gs.absolute q = fs.absolute q := by
  rw [(write_cases h).1]
  rfl

/-- What was written to a place is read there. -/
theorem read_of_write (hplace : Path.isAbsolute place = true) (hclean : Path.clean place = place)
    (h : fs.write place content = .ok gs) : gs.read place = .ok content := by
  obtain ⟨hgs, hzero, hne, hsize⟩ := write_cases h
  have habsolute : fs.absolute place = place := absolute_of_clean hplace hclean
  have hrooted : Path.rooted (Path.steps place) = place := by
    rw [← Path.clean_of_isAbsolute hplace, hclean]
  have hsteps : ∀ n ∈ Path.steps place, LeadsDown n ∧ Path.IsName n := by
    have hshort := Path.shortest_steps place
    rw [hplace] at hshort
    exact fun n hn =>
      ⟨hshort.leadsDown n (List.mem_reverse.mpr hn), Path.isName_of_mem_steps place n hn⟩
  have hthere : gs.find place = .ok (.file content) := by
    rcases List.eq_nil_or_concat' (Path.steps place) with hnil | ⟨init, last, hconcat⟩
    · -- the root is a directory, which cannot be written
      have hroot : fs.find "/" = .ok .directory := by
        rw [find_eq_ok_iff]
        exact ⟨by decide, by decide, by decide, rfl⟩
      rw [hnil] at hrooted
      rw [← hrooted] at h
      change fs.write "/" content = .ok gs at h
      rw [write, hroot] at h
      cases h
    · rw [hconcat] at hsteps hrooted
      rw [← hrooted] at h habsolute
      obtain ⟨hinit, hlength⟩ := follow_of_write hsteps habsolute h
      have hway : gs.wayTo place = init ++ [last] := by
        rw [wayTo, if_pos hplace, ← hclean, namesOf_clean hplace, hconcat]
        rw [hconcat]
        exact List.concat_ne_nil _ _
      have hentries : gs = { fs with
          entries := fs.entries.insert (Path.rooted (init ++ [last])) (.file content) } := by
        rw [hgs, put, ← hrooted, habsolute]
      rw [find_eq_ok_iff, hway]
      refine ⟨hzero, hne, hsize, ?_⟩
      rw [hentries]
      exact follow_insert_self hsteps hinit hlength
  rw [read, inspect, hthere]

end Reading

end ScriptKit.FileSystem
