import Mathlib.Logic.Function.Iterate
import ScriptKit.Package.ManifestFile
import ScriptKit.Proofs.FileSystem.Canonical

namespace ScriptKit.Package.Manifest

variable {fs : FileSystem} {origin d : String} {r s : Except FindError String}

section Candidates

/-- The path of the manifest of a directory. -/
def inDirectory (directory : String) : String :=
  Path.join [directory, manifestName]

/-- The directory from which a search sets out: the place itself, or the one that holds it if it is
a file. -/
def startOf (fs : FileSystem) (start : String) : String :=
  let place := fs.absolute start
  if fs.isFile place then Path.parent place else place

/-- The directory a number of levels above another. At the root there is none above. -/
def above (directory : String) (levels : Nat) : String :=
  Path.parent^[levels] directory

/-- A directory has a manifest, which is not a directory itself. -/
def HasManifest (fs : FileSystem) (directory : String) : Prop :=
  ∃ content, fs.find (inDirectory directory) = .ok (.file content)

theorem find_eq (fs : FileSystem) (start : String) :
    find fs start = findFrom fs (startOf fs start) (Path.steps (startOf fs start)).reverse := rfl

@[simp] theorem above_zero (directory : String) : above directory 0 = directory := rfl

@[simp] theorem above_succ (directory : String) (k : Nat) :
    above directory (k + 1) = above (Path.parent directory) k :=
  Function.iterate_succ_apply Path.parent k directory

theorem above_of_top (htop : Path.parent d = d) (k : Nat) : above d k = d :=
  Function.iterate_fixed htop k

/-- What the entry in a directory says about the search: a file ends it, a directory or a missing
entry does not count, and any other problem is told. -/
theorem decided_cases (fs : FileSystem) (d : String) :
    decided fs (inDirectory d) = some (.ok (inDirectory d)) ∧ HasManifest fs d ∨
      decided fs (inDirectory d) = none ∧ ¬HasManifest fs d ∨
      ∃ e, decided fs (inDirectory d) = some (.error (.file e)) ∧
        fs.stat (inDirectory d) = .error e ∧ e.isMissing = false := by
  unfold decided HasManifest FileSystem.stat FileSystem.inspect
  cases hfind : fs.find (inDirectory d) with
  | ok entry =>
    cases entry with
    | file content => exact Or.inl ⟨rfl, content, rfl⟩
    | directory => exact Or.inr (Or.inl ⟨rfl, by simp⟩)
  | error reason =>
    refine Or.inr ?_
    dsimp only [FileSystem.fails]
    split
    · exact Or.inl ⟨rfl, by simp⟩
    · rename_i hmissing
      exact Or.inr ⟨_, rfl, rfl, by simpa using hmissing⟩

end Candidates

section Walk

/-- The walk of a search: it goes on from a directory to the one above as long as nothing is decided
there, and gives up at a directory that is its own parent. -/
inductive Search (fs : FileSystem) (origin : String) : String → Except FindError String → Prop
  | decides {directory result} (h : decided fs (inDirectory directory) = some result) :
    Search fs origin directory result
  | ends {directory} (h : decided fs (inDirectory directory) = none)
    (htop : Path.parent directory = directory) :
    Search fs origin directory (.error (.notFound origin))
  | climbs {directory result} (h : decided fs (inDirectory directory) = none)
    (hup : Path.parent directory ≠ directory)
    (hrest : Search fs origin (Path.parent directory) result) : Search fs origin directory result

/-- A walk can end in one way only. -/
theorem Search.unique (hr : Search fs origin d r) (hs : Search fs origin d s) : r = s := by
  induction hr with
  | decides h =>
    cases hs with
    | decides h' => exact Option.some.inj (h.symm.trans h')
    | ends h' _ => cases h.symm.trans h'
    | climbs h' _ _ => cases h.symm.trans h'
  | ends h htop =>
    cases hs with
    | decides h' => cases h.symm.trans h'
    | ends _ _ => rfl
    | climbs _ hup _ => exact absurd htop hup
  | climbs h hup _ ih =>
    cases hs with
    | decides h' => cases h.symm.trans h'
    | ends _ htop => exact absurd htop hup
    | climbs _ _ hrest => exact ih hrest

/-- A name leads from a directory to another one. -/
theorem parent_rooted_cons {name : String} {rest : List String}
    (hnames : ∀ n ∈ name :: rest, Path.IsName n ∧ FileSystem.LeadsDown n) :
    Path.parent (Path.rooted (name :: rest).reverse) = Path.rooted rest.reverse ∧
      Path.rooted rest.reverse ≠ Path.rooted (name :: rest).reverse := by
  obtain ⟨hname, hrest⟩ := List.forall_mem_cons.mp hnames
  have hbefore : ∀ n ∈ rest.reverse, Path.IsName n := fun n hn =>
    (hrest n (List.mem_reverse.mp hn)).1
  have hall : ∀ n ∈ (name :: rest).reverse, Path.IsName n := fun n hn =>
    (hnames n (List.mem_reverse.mp hn)).1
  have hshort : Path.Shortest true rest.reverse.reverse := by
    rw [List.reverse_reverse]
    exact Path.shortest_of_leadsDown fun n hn => (hrest n hn).2
  refine ⟨?_, fun heq => ?_⟩
  · rw [List.reverse_cons]
    exact Path.parent_rooted hbefore hshort hname.1
  · have hsame := congrArg Path.components heq
    rw [Path.components_rooted hbefore, Path.components_rooted hall, List.reverse_inj] at hsame
    exact List.cons_ne_self name rest hsame.symm

/-- Looking along the names of a directory is walking up from it. -/
theorem search_findFrom : ∀ {names : List String},
    (∀ n ∈ names, Path.IsName n ∧ FileSystem.LeadsDown n) →
      Search fs origin (Path.rooted names.reverse) (findFrom fs origin names)
  | [], _ => by
    have htop : Path.parent (Path.rooted []) = Path.rooted [] := by decide
    rw [findFrom]
    cases h : decided fs (candidate []) with
    | some r => exact .decides h
    | none => exact .ends h htop
  | name :: rest, hnames => by
    obtain ⟨hparent, hne⟩ := parent_rooted_cons hnames
    rw [findFrom]
    cases h : decided fs (candidate (name :: rest)) with
    | some r => exact .decides h
    | none =>
      refine .climbs h (hparent ▸ hne) ?_
      rw [hparent]
      exact search_findFrom (List.forall_mem_cons.mp hnames).2

/-- Going up from a directory comes to the root. -/
theorem exists_above_eq_root : ∀ {names : List String},
    (∀ n ∈ names, Path.IsName n ∧ FileSystem.LeadsDown n) →
      ∃ k, above (Path.rooted names.reverse) k = "/"
  | [], _ => ⟨0, rfl⟩
  | name :: rest, hnames => by
    obtain ⟨k, hk⟩ := exists_above_eq_root (List.forall_mem_cons.mp hnames).2
    exact ⟨k + 1, by rw [above_succ, (parent_rooted_cons hnames).1, hk]⟩

end Walk

section Nearest

/-- How a search is to end that sets out from a directory: with the manifest of the nearest
directory that has one, with the news that none has one on the whole way up, or with a problem that
was met before there was a manifest. -/
inductive Nearest (fs : FileSystem) (origin directory : String) :
    Except FindError String → Prop
  | found (k : Nat) (hthere : HasManifest fs (above directory k))
    (hcloser : ∀ j < k, ¬HasManifest fs (above directory j)) :
    Nearest fs origin directory (.ok (inDirectory (above directory k)))
  | missing (h : ∀ k, ¬HasManifest fs (above directory k)) :
    Nearest fs origin directory (.error (.notFound origin))
  | problem (k : Nat) {e} (hstat : fs.stat (inDirectory (above directory k)) = .error e)
    (hmissing : e.isMissing = false) (hcloser : ∀ j < k, ¬HasManifest fs (above directory j)) :
    Nearest fs origin directory (.error (.file e))

theorem Nearest.climb (hd : ¬HasManifest fs d) (h : Nearest fs origin (Path.parent d) r) :
    Nearest fs origin d r := by
  have hmore : ∀ {k}, (∀ j < k, ¬HasManifest fs (above (Path.parent d) j)) →
      ∀ j < k + 1, ¬HasManifest fs (above d j) := by
    rintro k hk (_ | j) hj
    · exact hd
    · rw [above_succ]
      exact hk j (Nat.lt_of_succ_lt_succ hj)
  cases h with
  | found k hthere hcloser =>
    rw [← above_succ] at hthere ⊢
    exact .found (k + 1) hthere (hmore hcloser)
  | missing h => exact .missing fun k => hmore (fun j _ => h j) k (Nat.lt_succ_self k)
  | problem k hstat hmissing hcloser =>
    rw [← above_succ] at hstat
    exact .problem (k + 1) hstat hmissing (hmore hcloser)

/-- However a walk ends, it ends as it is to. -/
theorem Search.nearest (h : Search fs origin d r) : Nearest fs origin d r := by
  induction h with
  | @decides d r h =>
    obtain ⟨hfile, hthere⟩ | ⟨hnone, -⟩ | ⟨e, herror, hstat, hmissing⟩ := decided_cases fs d
    · cases h.symm.trans hfile
      exact .found 0 hthere (by simp)
    · cases h.symm.trans hnone
    · cases h.symm.trans herror
      exact .problem 0 hstat hmissing (by simp)
  | @ends d h htop =>
    obtain ⟨hfile, -⟩ | ⟨-, hnot⟩ | ⟨e, herror, -⟩ := decided_cases fs d
    · cases h.symm.trans hfile
    · refine .missing fun k => ?_
      rwa [above_of_top htop]
    · cases h.symm.trans herror
  | @climbs d r h _ _ ih =>
    obtain ⟨hfile, -⟩ | ⟨-, hnot⟩ | ⟨e, herror, -⟩ := decided_cases fs d
    · cases h.symm.trans hfile
    · exact ih.climb hnot
    · cases h.symm.trans herror

theorem canonical_startOf (hrooted : fs.IsRooted) (start : String) :
    Path.Canonical (startOf fs start) := by
  have hplace := FileSystem.canonical_absolute hrooted start
  unfold startOf
  dsimp only
  split
  · exact hplace.parent
  · exact hplace

/-- The walk up from where a search sets out reaches the root, ends in one way, and what it ends
with is the nearest manifest, or that there is none. -/
theorem find_nearest (hrooted : fs.IsRooted) (start : String) :
    (∃ k, above (startOf fs start) k = "/") ∧
      (∀ r, Search fs (startOf fs start) (startOf fs start) r ↔ r = find fs start) ∧
      Nearest fs (startOf fs start) (startOf fs start) (find fs start) := by
  have hstart := canonical_startOf hrooted start
  have hnames : ∀ n ∈ (Path.steps (startOf fs start)).reverse,
      Path.IsName n ∧ FileSystem.LeadsDown n := fun n hn =>
    ⟨Path.isName_of_mem_steps _ n (List.mem_reverse.mp hn),
      hstart.leadsDown n (List.mem_reverse.mp hn)⟩
  -- the walk up begins with all the names of the start, the last one first
  have hplace : Path.rooted (Path.steps (startOf fs start)).reverse.reverse = startOf fs start := by
    rw [List.reverse_reverse]
    exact hstart.eq_rooted.symm
  have hsearch : Search fs (startOf fs start) (startOf fs start) (find fs start) := by
    rw [find_eq]
    have hwalk : Search fs (startOf fs start)
        (Path.rooted (Path.steps (startOf fs start)).reverse.reverse)
        (findFrom fs (startOf fs start) (Path.steps (startOf fs start)).reverse) :=
      search_findFrom hnames
    rwa [hplace] at hwalk
  have hroot := exists_above_eq_root hnames
  rw [hplace] at hroot
  refine ⟨hroot, fun r => ⟨fun hr => hr.unique hsearch, fun hr => ?_⟩, hsearch.nearest⟩
  rw [hr]
  exact hsearch

/-- A package whose directory holds another one in which the name of the manifest is taken by a
directory. -/
def shadowed : FileSystem :=
  ⟨⟨[("/p", .directory), ("/p/package.yml", .file "name: p"), ("/p/a", .directory),
    ("/p/a/package.yml", .directory), ("/p/a/b", .directory), ("/p/a/b/main", .file "1;")]⟩, "/p"⟩

theorem find_nearest_shadowed :
    shadowed.IsRooted ∧ find shadowed "a/b/main" = .ok "/p/package.yml" ∧
      startOf shadowed "a/b/main" = "/p/a/b" ∧
      Nearest shadowed "/p/a/b" "/p/a/b" (.ok "/p/package.yml") := by
  have hrooted : shadowed.IsRooted := show Path.isAbsolute "/p" = true by decide
  have hfind : find shadowed "a/b/main" = .ok "/p/package.yml" := by decide
  have hstart : startOf shadowed "a/b/main" = "/p/a/b" := by decide
  have hnearest := (find_nearest hrooted "a/b/main").2.2
  rw [hfind, hstart] at hnearest
  exact ⟨hrooted, hfind, hstart, hnearest⟩

end Nearest

end ScriptKit.Package.Manifest
