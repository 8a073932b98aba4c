import ScriptKit.Package.Resolver
import ScriptKit.Proofs.FileSystem.Canonical
import ScriptKit.Proofs.Package.Names
import ScriptKit.Yaml.Codec

namespace ScriptKit.Package

variable {fs : FileSystem} {r : Resolver} {m : Manifest} {directory target place path p : String}
  {paths : List String} {e : Entry}

theorem stat_eq_ok_iff : fs.stat p = .ok e ↔ fs.find p = .ok e := by
  rw [FileSystem.stat, FileSystem.inspect]
  cases fs.find p <;> simp [FileSystem.fails]

namespace Resolver

/-- The entry file that a directory names: that of its manifest, or the usual one if it has no
manifest. -/
inductive EntryOf (r : Resolver) (directory : String) : String → Prop
  | usual {e : FileError} (h : r.files.stat (Path.join [directory, manifestName]) = .error e) :
    EntryOf r directory (Path.join [directory, defaultMain])
  | main {m : Manifest} (hthere : r.files.Has (Path.join [directory, manifestName]))
    (h : Manifest.load r.yaml r.files (Path.join [directory, manifestName]) = .ok m) :
    EntryOf r directory m.mainPath

/-- What a path stands for: a file for itself, and a directory for its entry, if that is there. -/
def StandsFor (r : Resolver) (place p : String) : Prop :=
  (∃ content, r.files.find place = .ok (.file content)) ∧ p = place ∨
    r.files.find place = .ok .directory ∧ r.EntryOf place p ∧ r.files.Has p

section Cases

theorem directoryEntry_cases (h : (r.directoryEntry directory).1 = .ok p) :
    r.EntryOf directory p ∧ r.files.Has p := by
  unfold directoryEntry at h
  dsimp only at h
  split at h
  · cases h
  · rename_i path hentry
    split at h
    · cases h
    · rename_i hthere
      cases h
      refine ⟨?_, FileSystem.has_of_stat hthere⟩
      -- the usual entry is taken if there is no manifest, and otherwise the one that it names
      split at hentry
      · rename_i hmissing
        cases hentry
        exact .usual hmissing
      · rename_i hmanifest
        split at hentry
        · rename_i hload
          cases hentry
          exact .main (FileSystem.has_of_stat hmanifest) hload
        · cases hentry

/-- A path is one of several, and those before it are missing. -/
def IsFirst (fs : FileSystem) (paths : List String) (place : String) : Prop :=
  ∃ before after, paths = before ++ place :: after ∧
    ∀ q ∈ before, ∃ e, fs.stat q = .error e ∧ e.isMissing = true

theorem firstOf_cases : ∀ {paths : List String}, (r.firstOf directory target paths).1 = .ok p →
    ∃ place, IsFirst r.files paths place ∧ r.StandsFor place p
  | [], h => by cases h
  | path :: rest, h => by
    unfold firstOf at h
    split at h
    · rename_i hstat
      obtain ⟨hentry, hthere⟩ := directoryEntry_cases h
      exact ⟨path, ⟨[], rest, rfl, by simp⟩,
        Or.inr ⟨stat_eq_ok_iff.mp hstat, hentry, hthere⟩⟩
    · rename_i content hstat
      obtain rfl : path = p := Except.ok.inj h
      exact ⟨path, ⟨[], rest, rfl, by simp⟩, Or.inl ⟨⟨content, stat_eq_ok_iff.mp hstat⟩, rfl⟩⟩
    · rename_i e hstat
      split at h
      · rename_i hmissing
        obtain ⟨place, ⟨before, after, rfl, hbefore⟩, hstands⟩ := firstOf_cases h
        exact ⟨place, ⟨path :: before, after, rfl,
          List.forall_mem_cons.mpr ⟨⟨e, hstat, hmissing⟩, hbefore⟩⟩, hstands⟩
      · cases h

/-- The paths that a target can mean as seen from a directory. -/
def candidates (r : Resolver) (directory target : String) : List String :=
  let path := r.place directory (Text.trim target)
  path :: if Path.extension path = "" then [path ++ sourceExtension] else []

theorem eq_of_candidate (h : place ∈ r.candidates directory target) :
    place = r.place directory (Text.trim target) ∨
      place = r.place directory (Text.trim target) ++ sourceExtension := by
  unfold candidates at h
  dsimp only at h
  rw [List.mem_cons] at h
  refine h.imp_right fun hmore => ?_
  split at hmore
  · exact List.mem_singleton.mp hmore
  · cases hmore

/-- What a target means is what the first of its candidates that exists stands for. -/
theorem resolve_cases (h : (r.resolve directory target).1 = .ok p) :
    ∃ place, IsFirst r.files (r.candidates directory target) place ∧ r.StandsFor place p := by
  unfold resolve at h
  dsimp only at h
  split at h
  · cases h
  · exact firstOf_cases h

theorem IsFirst.mem (h : IsFirst fs paths place) : place ∈ paths := by
  obtain ⟨before, after, rfl, -⟩ := h
  simp

end Cases

section Canonical

variable (hrooted : r.files.IsRooted)
include hrooted

theorem canonical_place (directory target : String) :
    Path.Canonical (r.place directory target) := by
  unfold place
  dsimp only
  split
  · exact FileSystem.canonical_absolute hrooted _
  · split
    · exact FileSystem.canonical_absolute hrooted _
    · exact FileSystem.canonical_absolute hrooted _

theorem canonical_of_candidate (h : place ∈ r.candidates directory target) :
    Path.Canonical place := by
  have hplace := canonical_place hrooted directory (Text.trim target)
  rcases eq_of_candidate h with heq | heq
  · rw [heq]
    exact hplace
  · rw [heq]
    exact hplace.append_ending (by decide) (by decide)

/-- The paths that a manifest names are canonical, whether they are absolute or not. -/
theorem canonical_locate (h : Manifest.load r.yaml r.files path = .ok m) (q : String) :
    Path.Canonical (m.locate q) := by
  have hpath : Path.Canonical m.path := by
    rw [Manifest.path_of_load h]
    exact FileSystem.canonical_absolute hrooted path
  unfold Manifest.locate
  split
  · rename_i habs
    exact .of_clean habs
  · exact .join hpath.parent.rooted q

theorem EntryOf.canonical (h : r.EntryOf directory p) (hdirectory : Path.Canonical directory) :
    Path.Canonical p := by
  cases h with
  | usual _ => exact .join hdirectory.rooted _
  | main _ hload => exact canonical_locate hrooted hload _

/-- A target means a canonical path, at which there is something. -/
theorem canonical_of_resolve (h : (r.resolve directory target).1 = .ok p) :
    Path.Canonical p ∧ r.files.Has p := by
  obtain ⟨place, hfirst, hstands⟩ := resolve_cases h
  have hplace : Path.Canonical place := canonical_of_candidate hrooted hfirst.mem
  rcases hstands with ⟨⟨content, hfile⟩, rfl⟩ | ⟨-, hentry, hthere⟩
  · exact ⟨hplace, _, hfile⟩
  · exact ⟨hentry.canonical hrooted hplace, hthere⟩

end Canonical

section Files

/-- A target means something that is there, and it means a file, unless it finds a directory that
names another directory as its entry. -/
theorem resolve_isFile (h : (r.resolve directory target).1 = .ok p) :
    r.files.Has p ∧
      ((∀ place q, IsFirst r.files (r.candidates directory target) place →
        r.files.find place = .ok .directory → r.EntryOf place q →
          r.files.find q ≠ .ok .directory) →
        ∃ content, r.files.find p = .ok (.file content)) := by
  obtain ⟨place, hfirst, hstands⟩ := resolve_cases h
  rcases hstands with ⟨⟨content, hfile⟩, rfl⟩ | ⟨hplace, hentry, hthere⟩
  · exact ⟨⟨_, hfile⟩, fun _ => ⟨content, hfile⟩⟩
  · refine ⟨hthere, fun hentries => ?_⟩
    obtain ⟨e, he⟩ := hthere
    cases e with
    | file content => exact ⟨content, he⟩
    | directory => exact absurd he (hentries place p hfirst hplace hentry)

/-- Two packages without manifests. The usual entry of the first is a file, that of the second is a
directory. -/
def packages : Resolver where
  yaml := Yaml.codec
  files := ⟨⟨[("/a", .directory), ("/a/main.charly", .file "1;"), ("/b", .directory),
    ("/b/main.charly", .directory)]⟩, "/"⟩
  dependencies := .empty

theorem resolve_isFile_packages :
    (packages.resolve "/" "a").1 = .ok "/a/main.charly" ∧
      (∃ content, packages.files.find "/a/main.charly" = .ok (.file content)) ∧
      (packages.resolve "/" "b").1 = .ok "/b/main.charly" ∧
      packages.files.find "/b/main.charly" = .ok .directory := by
  have hresolve : (packages.resolve "/" "a").1 = .ok "/a/main.charly" := by decide
  have hcandidates : packages.candidates "/" "a" = ["/a", "/a.charly"] := by decide
  have hnone : packages.files.find (Path.join ["/a", manifestName]) = .error .notExist := by decide
  have hentries : ∀ place q, IsFirst packages.files (packages.candidates "/" "a") place →
      packages.files.find place = .ok .directory → packages.EntryOf place q →
        packages.files.find q ≠ .ok .directory := by
    intro place q hfirst hplace hentry
    have hmem := hfirst.mem
    rw [hcandidates, List.mem_pair] at hmem
    obtain rfl : place = "/a" := hmem.resolve_right fun heq => by
      rw [heq] at hplace
      exact absurd hplace (by decide)
    -- there is no manifest, so the entry is the usual one
    cases hentry with
    | usual _ => decide
    | main hthere _ =>
      obtain ⟨e, he⟩ := hthere
      rw [hnone] at he
      cases he
  exact ⟨hresolve, (resolve_isFile hresolve).2 hentries, by decide, by decide⟩

end Files

end Resolver

end ScriptKit.Package
