import ScriptKit.Package.Checksum
import ScriptKit.Proofs.FileSystem.Places

namespace ScriptKit.FileSystem

variable {fs gs hs : FileSystem} {p directory n : String} {pre taken names rest : List String}
  {e : Entry}

section Following

/-- The first name is followed, and the others from the place that it leads to. -/
theorem LeadTo.follow_cons (h : fs.LeadTo taken .directory) (n : String) (rest : List String) :
    fs.follow taken .directory (n :: rest) =
      (fs.follow taken .directory [n]).bind fun e => fs.follow (Path.step true taken n) e rest := by
  rcases leadsDown_or n with hdown | rfl | rfl
  · rw [Path.step_of_down hdown, FileSystem.follow_cons hdown, FileSystem.follow_cons hdown]
    split
    · rfl
    · cases fs.entries.find? (Path.rooted (n :: taken).reverse) <;> rfl
  · rfl
  · cases taken with
    | nil => rfl
    | cons last before =>
      rw [Path.step_up (h.1 last List.mem_cons_self).2]
      rfl

/-- Names that lead to a directory can be followed further from there. -/
theorem LeadTo.follow_append : ∀ {names taken : List String} {entry : Entry},
    fs.LeadTo taken entry → fs.follow taken entry names = .ok e →
      fs.follow taken entry (names ++ rest) =
        fs.follow (names.foldl (Path.step true) taken) e rest
  | [], _, _, _, hfollow => by
    cases hfollow
    rfl
  | _ :: _, _, .file _, _, hfollow => by cases hfollow
  | n :: names, taken, .directory, h, hfollow => by
    rw [h.follow_cons] at hfollow
    rw [List.cons_append, h.follow_cons, List.foldl_cons]
    cases hone : fs.follow taken .directory [n] with
    | error reason =>
      rw [hone] at hfollow
      cases hfollow
    | ok entry =>
      rw [hone] at hfollow
      obtain ⟨entry', hlead, hentry⟩ := h.step hone
      cases hentry
      exact hlead.follow_append hfollow

/-- What is missing at one name from a directory on is an entry of this name. -/
theorem find?_of_follow_notExist (h : fs.follow taken .directory [n] = .error .notExist) :
    LeadsDown n ∧ n.utf8ByteSize ≤ maxNameLength ∧
      fs.entries.find? (Path.rooted (n :: taken).reverse) = none := by
  have hdown : LeadsDown n := by
    refine ⟨?_, ?_⟩
    · rintro rfl
      cases h
    · rintro rfl
      cases h
  rw [FileSystem.follow_cons hdown] at h
  split at h
  · cases h
  · rename_i hlong
    cases hentry : fs.entries.find? (Path.rooted (n :: taken).reverse) with
    | none => exact ⟨hdown, Nat.not_lt.mp hlong, rfl⟩
    | some entry =>
      rw [hentry] at h
      cases h

/-- Looking for a path that is put together from names is following them. -/
theorem follow_of_find_rooted (hnames : ∀ n ∈ names, Path.IsName n) (hne : names ≠ []) :
    (fs.find (Path.rooted names) = .ok e → fs.follow [] .directory names = .ok e) ∧
      (fs.find (Path.rooted names) = .error .notExist →
        fs.follow [] .directory names = .error .notExist) := by
  have habs : Path.isAbsolute (Path.rooted names) = true := Path.isAbsolute_rooted names
  have hempty : Path.rooted names ≠ "" := by
    intro h
    rw [h] at habs
    exact absurd habs (by decide)
  have hparts : namesOf (Path.rooted names) = names := by
    rw [namesOf, Path.components_rooted hnames, if_neg (Path.getLast?_rooted hnames hne),
      List.append_nil]
  rw [find, if_neg hempty, wayTo, if_pos habs, hparts]
  split
  · exact ⟨by simp, by simp⟩
  · split
    · exact ⟨by simp, by simp⟩
    · exact ⟨id, id⟩

end Following

section Files

/-- The files, without the directories. -/
def files (fs : FileSystem) : List (String × Entry) :=
  fs.entries.entries.filter fun e => e.2 ≠ .directory

/-- Nothing is taken away between two file systems, and only directories are new. -/
structure SameFiles (fs gs : FileSystem) : Prop extends Lasts fs gs where
  files : gs.files = fs.files

theorem SameFiles.refl (fs : FileSystem) : fs.SameFiles fs :=
  ⟨.refl fs, rfl⟩

theorem SameFiles.trans (h : fs.SameFiles gs) (h' : gs.SameFiles hs) : fs.SameFiles hs :=
  ⟨h.toLasts.trans h'.toLasts, h'.files.trans h.files⟩

theorem sameFiles_put_directory (h : fs.entries.find? (fs.absolute p) = none) :
    fs.SameFiles (fs.put p .directory) where
  toLasts := lasts_put_directory fs p
  files := by
    have hnew : fs.entries.contains (fs.absolute p) = false := by
      rw [NameTable.contains, h]
      rfl
    have hput : (fs.put p .directory).entries.entries =
        fs.entries.entries ++ [(fs.absolute p, .directory)] := by
      rw [put, NameTable.insert, hnew]
      rfl
    rw [FileSystem.files, hput, List.filter_append, FileSystem.files]
    simp

theorem filterMap_files {β : Type} {f : String × Entry → Option β}
    (hf : ∀ path, f (path, .directory) = none) :
    fs.entries.entries.filterMap f = fs.files.filterMap f := by
  rw [FileSystem.files, List.filterMap_filter]
  refine List.filterMap_congr fun entry _ => ?_
  obtain ⟨path, entry⟩ := entry
  cases entry with
  | file content => simp
  | directory => simp [hf]

theorem SameFiles.filesBelow (h : fs.SameFiles gs) (directory : String) :
    gs.filesBelow directory = fs.filesBelow directory := by
  have habsolute : gs.absolute directory = fs.absolute directory := by
    rw [absolute, absolute, h.workingDirectory]
  unfold FileSystem.filesBelow
  dsimp only
  rw [habsolute, filterMap_files (fun _ => rfl), h.files, ← filterMap_files fun _ => rfl]

/-- The checksum of a directory depends on the files below it. -/
theorem checksum_congr (hfs : fs.find directory = .ok .directory)
    (hgs : gs.find directory = .ok .directory)
    (hfiles : gs.filesBelow directory = fs.filesBelow directory) :
    Package.checksum gs directory = Package.checksum fs directory := by
  have hcounted : Package.countedFiles gs directory = Package.countedFiles fs directory := by
    rw [Package.countedFiles, Package.countedFiles, hfiles]
  rw [Package.checksum, Package.checksum, Package.checksumBytes, Package.checksumBytes, inspect,
    inspect, hfs, hgs, hcounted]

end Files

section Making

/-- Makes one directory, if it is missing. -/
def ensureDirectory (fs : FileSystem) (place : String) : Except FileError FileSystem :=
  match fs.find place with
  | .ok .directory => .ok fs
  | .ok (.file _) => fails "mkdir" place .notDirectory
  | .error .notExist => .ok (fs.put place .directory)
  | .error reason => fails "mkdir" place reason

theorem makeDirectories_eq (fs : FileSystem) (path : String) : fs.makeDirectories path =
    (waypoints [] (Path.steps (fs.absolute path))).foldlM ensureDirectory fs := rfl

/-- Below a directory the next one is made, and no file is touched. -/
theorem ensureDirectory_spec (hpre : fs.follow [] .directory pre = .ok .directory)
    (hnames : ∀ m ∈ pre ++ [n], Path.IsName m)
    (h : fs.ensureDirectory (Path.rooted (pre ++ [n])) = .ok gs) :
    fs.SameFiles gs ∧ gs.follow [] .directory (pre ++ [n]) = .ok .directory := by
  have hne : pre ++ [n] ≠ [] := by simp
  unfold ensureDirectory at h
  split at h
  · rename_i hfind
    cases h
    exact ⟨.refl _, (follow_of_find_rooted hnames hne).1 hfind⟩
  · cases h
  · rename_i hfind
    cases h
    have hmissing := (follow_of_find_rooted (e := .directory) hnames hne).2 hfind
    rw [leadTo_nil.follow_append hpre] at hmissing
    obtain ⟨hdown, hlong, hnone⟩ := find?_of_follow_notExist hmissing
    -- the place is written in full, so what is put there is a new entry
    have hplace : fs.absolute (Path.rooted (pre ++ [n])) =
        Path.rooted (n :: pre.foldl (Path.step true) []).reverse := by
      rw [absolute, Path.absolute, if_pos (Path.isAbsolute_rooted _),
        Path.clean_of_isAbsolute (Path.isAbsolute_rooted _), Path.steps,
        Path.isAbsolute_rooted, Path.components_rooted hnames, List.foldl_append, List.foldl_cons,
        List.foldl_nil, Path.step_of_down hdown]
    have hsame : fs.SameFiles (fs.put (Path.rooted (pre ++ [n])) .directory) :=
      sameFiles_put_directory (hplace ▸ hnone)
    refine ⟨hsame, ?_⟩
    obtain ⟨e', hpre', hdir⟩ := hsame.toLasts.follow id hpre
    rw [hdir rfl] at hpre'
    rw [leadTo_nil.follow_append hpre', FileSystem.follow_cons hdown,
      if_neg (Nat.not_lt.mpr hlong), put, NameTable.find?_insert, if_pos hplace.symm]
    rfl
  · cases h

theorem foldlM_ensureDirectory : ∀ {names pre : List String} {fs : FileSystem},
    fs.follow [] .directory pre = .ok .directory → (∀ m ∈ pre ++ names, Path.IsName m) →
      (waypoints pre names).foldlM ensureDirectory fs = .ok gs → fs.SameFiles gs
  | [], _, _, _, _, h => by
    cases h
    exact .refl _
  | n :: names, pre, fs, hpre, hnames, h => by
    rw [waypoints, List.foldlM_cons] at h
    rw [List.append_cons] at hnames
    cases hmade : fs.ensureDirectory (Path.rooted (pre ++ [n])) with
    | error reason =>
      rw [hmade] at h
      cases h
    | ok made =>
      rw [hmade] at h
      obtain ⟨hsame, hthere⟩ :=
        ensureDirectory_spec hpre (fun m hm => hnames m (List.mem_append_left names hm)) hmade
      exact hsame.trans (foldlM_ensureDirectory hthere hnames h)

/-- Making directories changes no file. -/
theorem SameFiles.of_makeDirectories (h : fs.makeDirectories p = .ok gs) : fs.SameFiles gs := by
  rw [makeDirectories_eq] at h
  exact foldlM_ensureDirectory rfl (Path.isName_of_mem_steps _) h

end Making

end ScriptKit.FileSystem
