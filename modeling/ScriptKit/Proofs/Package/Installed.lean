import ScriptKit.Package.Resolver
import ScriptKit.Proofs.Package.Fetched
import ScriptKit.Proofs.Package.Locked
import ScriptKit.Yaml.Codec

namespace ScriptKit.Package

namespace Manifest

variable {m : Manifest} {lock : Option Lockfile} {cache name : String}

/-- Where a dependency comes from, as the installer and the resolver see it. -/
def spec (m : Manifest) (name : String) : DependencySpec :=
  (m.dependencies.find? name).getD .empty

/-- The directory of one dependency. -/
def dependencyRoot (m : Manifest) (lock : Option Lockfile) (cache name : String) :
    Except NotLocked (String × String) :=
  if (m.spec name).path ≠ "" then .ok (name, m.locate (m.spec name).path)
  else
    match lock.bind (·.find? name) with
    | some p => .ok (name, checkoutDirectory cache name p.version)
    | none => .error ⟨name⟩

theorem dependencyRoots_eq (m : Manifest) (lock : Option Lockfile) (cache : String) :
    m.dependencyRoots lock cache = m.dependencyNames.mapM (m.dependencyRoot lock cache) := rfl

theorem dependencyRoot_of_path (h : (m.spec name).path ≠ "") :
    m.dependencyRoot lock cache name = .ok (name, m.locate (m.spec name).path) :=
  if_pos h

theorem dependencyRoot_of_locked {l : Lockfile} {p : LockedPackage} (h : (m.spec name).path = "")
    (hp : l.find? name = some p) :
    m.dependencyRoot (some l) cache name = .ok (name, checkoutDirectory cache name p.version) := by
  rw [dependencyRoot, if_neg (not_not_intro h), Option.bind_some, hp]

theorem locked_of_dependencyRoot {l : Lockfile} {r : String × String} (h : (m.spec name).path = "")
    (hr : m.dependencyRoot (some l) cache name = .ok r) :
    ∃ p, l.find? name = some p ∧ r = (name, checkoutDirectory cache name p.version) := by
  rw [dependencyRoot, if_neg (not_not_intro h), Option.bind_some] at hr
  split at hr
  · rename_i p hp
    exact ⟨p, hp, (Except.ok.inj hr).symm⟩
  · cases hr

end Manifest

namespace Installer

variable {i : Installer} {fs gs : FileSystem} {lock lock' : Lockfile} {name : String}
  {package : LockedPackage}

/-- A dependency is in place: its directory is known and exists. -/
def InPlace (i : Installer) (fs : FileSystem) (lock : Lockfile) (name : String) : Prop :=
  ∃ directory, i.manifest.dependencyRoot (some lock) i.cache name = .ok (name, directory) ∧
    fs.Has directory

theorem InPlace.mono (h : i.InPlace fs lock name) (hkeep : ∀ p, fs.Has p → gs.Has p) :
    i.InPlace gs lock name := by
  obtain ⟨directory, hroot, hhas⟩ := h
  exact ⟨directory, hroot, hkeep directory hhas⟩

theorem inPlace_of_path (hpath : (i.manifest.spec name).path ≠ "")
    (hhas : fs.Has (i.manifest.locate (i.manifest.spec name).path)) : i.InPlace fs lock name :=
  ⟨_, Manifest.dependencyRoot_of_path hpath, hhas⟩

/-- The directory of a checkout is that of the locked version, however that is written. -/
theorem inPlace_of_checkout (hpath : (i.manifest.spec name).path = "")
    (hlocked : (lock.find? name).map LockedPackage.normalised = some package.normalised)
    (hhas : fs.Has (checkoutDirectory i.cache name package.version)) : i.InPlace fs lock name := by
  obtain ⟨q, hq, hqp⟩ := Option.map_eq_some_iff.mp hlocked
  have htrim : Text.trim q.version = Text.trim package.version :=
    congrArg LockedPackage.version hqp
  refine ⟨_, Manifest.dependencyRoot_of_locked hpath hq, ?_⟩
  rw [← checkoutDirectory_trim, htrim, checkoutDirectory_trim]
  exact hhas

/-- Only how a package is locked decides where it is. -/
theorem InPlace.relock (h : i.InPlace fs lock name)
    (hsame : (lock'.find? name).map LockedPackage.normalised =
      (lock.find? name).map LockedPackage.normalised) : i.InPlace fs lock' name := by
  obtain ⟨directory, hroot, hhas⟩ := h
  by_cases hpath : (i.manifest.spec name).path = ""
  · obtain ⟨p, hp, hdirectory⟩ := Manifest.locked_of_dependencyRoot hpath hroot
    have hlocked : (lock'.find? name).map LockedPackage.normalised = some p.normalised := by
      rw [hsame, hp, Option.map_some]
    rw [(Prod.mk.inj hdirectory).2] at hhas
    exact inPlace_of_checkout hpath hlocked hhas
  · rw [Manifest.dependencyRoot_of_path hpath] at hroot
    cases hroot
    exact inPlace_of_path hpath hhas

section One

theorem has_of_checksum {path sum : String} (h : checksum fs path = .ok sum) : fs.Has path := by
  unfold checksum checksumBytes FileSystem.inspect at h
  cases hfind : fs.find path with
  | ok e => exact ⟨e, hfind⟩
  | error reason =>
    rw [hfind] at h
    cases h

theorem has_locate {spec : DependencySpec} (h : fs.Has (i.dependencyPath spec)) :
    fs.Has (i.manifest.locate spec.path) := by
  unfold dependencyPath at h
  unfold Manifest.locate
  split
  · rename_i habs
    rw [if_pos habs] at h
    obtain ⟨e, he⟩ := h
    exact ⟨e, FileSystem.find_clean habs he⟩
  · rename_i habs
    rwa [if_neg habs] at h

theorem installPath_spec {spec : DependencySpec} (h : i.installPath fs name spec = .ok package) :
    package.name = name ∧ fs.Has (i.manifest.locate spec.path) := by
  unfold installPath at h
  dsimp only at h
  split at h
  · cases h
  · cases h
  · rename_i hstat
    split at h
    · cases h
    · cases h
      exact ⟨rfl, has_locate (FileSystem.has_of_stat hstat)⟩

/-- A fetch that succeeds makes the directory for checkouts, checks the commit out there, and takes
the checksum of the checkout. -/
theorem fetch_cases {url : String} {pin : Pin} (h : i.fetch fs name url pin = (.ok package, gs)) :
    ∃ made commit sum, fs.makeDirectories (checkoutBase i.cache name) = .ok made ∧
      (Fetch.mk (checkoutBase i.cache name) url pin).checkOut i.git
        (i.numbers (checkoutBase i.cache name)) made = (.ok commit, gs) ∧
      checksum gs (checkoutDirectory i.cache name (pinnedVersion pin.descriptor commit)) =
        .ok sum ∧
      package =
        ⟨name, pinnedVersion pin.descriptor commit, "git+" ++ url ++ "@" ++ commit, sum⟩ := by
  unfold fetch at h
  dsimp only at h
  split at h
  · cases h
  · rename_i made hmade
    split at h
    · cases h
    · rename_i commit fetched hfetched
      split at h
      · cases h
      · rename_i sum hsum
        cases h
        exact ⟨made, commit, sum, hmade, hfetched, hsum, rfl⟩

theorem fetch_spec {url : String} {pin : Pin} (hgit : i.git.Confined)
    (h : i.fetch fs name url pin = (.ok package, gs)) :
    package.name = name ∧ (∀ p, fs.Has p → gs.Has p) ∧
      gs.Has (checkoutDirectory i.cache name package.version) := by
  obtain ⟨made, commit, sum, hmade, hfetched, hsum, hpackage⟩ := fetch_cases h
  have hversion : package.version = pinnedVersion pin.descriptor commit := by rw [hpackage]
  have hkept : ∀ p, fs.Has p → gs.Has p := fun p hp =>
    (Fetch.addsBeside_of_checkOut hgit hfetched).keeps.has
      ((FileSystem.Lasts.of_makeDirectories hmade).has hp)
  refine ⟨by rw [hpackage], hkept, ?_⟩
  rw [hversion]
  exact has_of_checksum hsum

theorem cached_spec {url : String} {pin : Pin} (h : i.cached? fs lock name url pin = some package) :
    lock.find? name = some package ∧ fs.Has (checkoutDirectory i.cache name package.version) := by
  obtain ⟨hfind, htest⟩ := Option.filter_eq_some_iff.mp h
  exact ⟨hfind, FileSystem.stat_isOk_iff.mp (Bool.and_eq_true_iff.mp htest).2⟩

/-- How a dependency is installed: from its path, from the cache or by a fetch. -/
inductive Way (i : Installer) (fs : FileSystem) (lock : Lockfile) (name : String)
    (package : LockedPackage) : FileSystem → Prop
  | path (hpath : (i.manifest.spec name).path ≠ "")
      (hinstall : i.installPath fs name (i.manifest.spec name) = .ok package) :
      Way i fs lock name package fs
  | cached {pin : Pin} (hpath : (i.manifest.spec name).path = "")
      (hpin : (i.manifest.spec name).pin? = some pin)
      (hcached : i.cached? fs lock name (Text.trim (i.manifest.spec name).git) pin =
        some package) : Way i fs lock name package fs
  | fetched {pin : Pin} {gs : FileSystem} (hpath : (i.manifest.spec name).path = "")
      (hpin : (i.manifest.spec name).pin? = some pin)
      (hfetch : i.fetch fs name (Text.trim (i.manifest.spec name).git) pin = (.ok package, gs)) :
      Way i fs lock name package gs

theorem installOne_eq (i : Installer) (fs : FileSystem) (lock : Lockfile) (name : String) :
    i.installOne fs lock name = if (i.manifest.spec name).path ≠ "" then
      (i.installPath fs name (i.manifest.spec name), fs)
      else i.installGit fs lock name (i.manifest.spec name) := rfl

theorem way_of_installOne (h : i.installOne fs lock name = (.ok package, gs)) :
    i.Way fs lock name package gs := by
  rw [installOne_eq] at h
  split at h
  · rename_i hpath
    obtain ⟨hinstall, rfl⟩ := Prod.mk.inj h
    exact .path hpath hinstall
  · rename_i hpath
    unfold installGit at h
    dsimp only at h
    split at h
    · cases h
    · rename_i pin hpin
      split at h
      · rename_i hcached
        cases h
        exact .cached (not_not.mp hpath) hpin hcached
      · exact .fetched (not_not.mp hpath) hpin h

/-- What a successful installation of one dependency gives: a package of its name, and once this is
locked the dependency is in place. -/
structure Installed (i : Installer) (fs gs : FileSystem) (name : String) (package : LockedPackage) :
    Prop where
  name_eq : package.name = name
  keeps : ∀ p, fs.Has p → gs.Has p
  inPlace : ∀ lock, (lock.find? name).map LockedPackage.normalised = some package.normalised →
    i.InPlace gs lock name

theorem installOne_spec (hname : IsCanonical name) (hgit : i.git.Confined)
    (h : i.installOne fs lock name = (.ok package, gs)) : i.Installed fs gs name package := by
  cases way_of_installOne h with
  | path hpath hinstall =>
    obtain ⟨hpackage, hhas⟩ := installPath_spec hinstall
    exact ⟨hpackage, fun _ hp => hp, fun _ _ => inPlace_of_path hpath hhas⟩
  | cached hpath _ hcached =>
    obtain ⟨hfind, hhas⟩ := cached_spec hcached
    exact ⟨(Lockfile.find?_spec hfind).2.trans hname, fun _ hp => hp,
      fun _ hlocked => inPlace_of_checkout hpath hlocked hhas⟩
  | fetched hpath _ hfetch =>
    obtain ⟨hpackage, hkept, hhas⟩ := fetch_spec hgit hfetch
    exact ⟨hpackage, hkept, fun _ hlocked => inPlace_of_checkout hpath hlocked hhas⟩

end One

section All

/-- The names in `done` are locked and in place. -/
structure Settled (i : Installer) (fs : FileSystem) (lock : Lockfile) (done : List String) :
    Prop where
  inOrder : lock.InOrder
  locked : ∀ n ∈ done, (lock.find? n).isSome = true
  inPlace : ∀ n ∈ done, i.InPlace fs lock n

/-- Installing one more dependency leaves those in place that were. -/
theorem Settled.add {done : List String} (h : i.Settled fs lock done) (hname : IsCanonical name)
    (hdone : ∀ n ∈ done, IsCanonical n) (hi : i.Installed fs gs name package) :
    i.Settled gs (lock.upsert package).1 (name :: done) := by
  have hcanonical : IsCanonical package.name := by
    rw [hi.name_eq]
    exact hname
  have hmatch : canonicalName name = package.name := hname.trans hi.name_eq.symm
  have hfind := h.inOrder.find?_upsert hcanonical
  have hnew : ((lock.upsert package).1.find? name).map LockedPackage.normalised =
      some package.normalised := by
    rw [hfind, if_pos hmatch]
  -- what was in place before is found as it was, up to how it is written
  have hold : ∀ n ∈ done, n ≠ name → ((lock.upsert package).1.find? n).map
      LockedPackage.normalised = (lock.find? n).map LockedPackage.normalised := by
    intro n hn hne
    rw [hfind, if_neg]
    rw [(hdone n hn : canonicalName n = n), hi.name_eq]
    exact hne
  refine ⟨h.inOrder.upsert hcanonical, ?_, ?_⟩
  · intro n hn
    rw [← Option.isSome_map (f := LockedPackage.normalised)]
    by_cases hne : n = name
    · rw [hne, hnew]
      rfl
    · have hn := List.mem_of_ne_of_mem hne hn
      rw [hold n hn hne, Option.isSome_map]
      exact h.locked n hn
  · intro n hn
    by_cases hne : n = name
    · rw [hne]
      exact hi.inPlace _ hnew
    · have hn := List.mem_of_ne_of_mem hne hn
      exact ((h.inPlace n hn).mono hi.keeps).relock (hold n hn hne)

/-- A run over names settles them all. -/
theorem installAll_spec (hgit : i.git.Confined) : ∀ (names : List String) {fs : FileSystem}
    {done : List String} {p q : Progress}, (∀ n ∈ names, IsCanonical n) →
      (∀ n ∈ done, IsCanonical n) → i.Settled fs p.lock done →
      i.installAll fs p names = (.ok q, gs) → i.Settled gs q.lock (names.reverse ++ done)
  | [], _, _, _, _, _, _, h, hrun => by
    cases hrun
    exact h
  | name :: names, fs, done, p, q, hnames, hdone, h, hrun => by
    obtain ⟨hname, hnames⟩ := List.forall_mem_cons.mp hnames
    rw [installAll] at hrun
    split at hrun
    · cases hrun
    · rename_i package fs' hone
      have hadd : i.Settled fs' (p.add package).lock (name :: done) :=
        h.add hname hdone (installOne_spec hname hgit hone)
      have hrest := installAll_spec hgit names hnames
        (List.forall_mem_cons.mpr ⟨hname, hdone⟩) hadd hrun
      rwa [List.reverse_cons, List.append_assoc, List.singleton_append]

/-- Dropping the entries of other names leaves one entry for each name, and all in place. -/
theorem Settled.prune {done names : List String} (h : i.Settled fs lock done)
    (hdone : ∀ n, n ∈ done ↔ n ∈ names) (hnames : ∀ n ∈ names, IsCanonical n)
    (hsorted : names.Pairwise (· < ·)) : (lock.prune names).1.names = names ∧
      ∀ n ∈ names, i.InPlace fs (lock.prune names).1 n := by
  have hsame : names.map canonicalName = names := by
    conv_rhs => rw [← List.map_id names]
    exact List.map_congr_left hnames
  refine ⟨?_, ?_⟩
  · refine Text.eq_of_pairwise_lt (h.inOrder.prune names).sorted hsorted fun n => ?_
    rw [Lockfile.names_prune, hsame, List.mem_filter, List.contains_iff_mem]
    refine ⟨And.right, fun hn => ⟨?_, hn⟩⟩
    have hfound := Lockfile.find?_isSome_iff.mp (h.locked n ((hdone n).mpr hn))
    rwa [(hnames n hn : canonicalName n = n)] at hfound
  · intro n hn
    refine (h.inPlace n ((hdone n).mpr hn)).relock ?_
    rw [Lockfile.find?_prune (List.mem_map_of_mem hn)]

/-- Roots are found for all names if they are for each. -/
theorem mapM_of_forall {f : String → Except NotLocked (String × String)} {Q : String → Prop} :
    ∀ {names : List String}, (∀ n ∈ names, ∃ directory, f n = .ok (n, directory) ∧ Q directory) →
      ∃ roots, names.mapM f = .ok roots ∧ roots.map Prod.fst = names ∧ ∀ r ∈ roots, Q r.2
  | [], _ => ⟨[], rfl, rfl, by simp⟩
  | n :: names, h => by
    obtain ⟨⟨directory, hroot, hq⟩, hnames⟩ := List.forall_mem_cons.mp h
    obtain ⟨roots, hroots, hfst, hall⟩ := mapM_of_forall hnames
    refine ⟨(n, directory) :: roots, ?_, ?_, List.forall_mem_cons.mpr ⟨hq, hall⟩⟩
    · rw [List.mapM_cons, hroot, hroots]
      rfl
    · rw [List.map_cons, hfst]

theorem install_of_installAll {q : Progress}
    (h : i.installAll fs ⟨lock, false, []⟩ i.manifest.dependencyNames = (.ok q, gs)) :
    i.install fs lock = (.ok
      { q with
        lock := (q.lock.prune i.manifest.dependencyNames).1
        changed := q.changed || (q.lock.prune i.manifest.dependencyNames).2 }, gs) := by
  unfold install
  dsimp only
  rw [h]

end All

section Sample

/-- An installer with a cache of its own, for which every repository has one commit. -/
def ofOneCommit (m : Manifest) : Installer :=
  ⟨m, "/k", .oneCommit "c0", fun _ n => n⟩

theorem confined_ofOneCommit (m : Manifest) : (ofOneCommit m).git.Confined :=
  Git.confined_oneCommit "c0"

def twoKindsText : String :=
  "name: a\ndependencies:\n  d: e\n  g-h:\n    git: u\n    tag: t\n"

/-- A package with a dependency on a directory and one on a repository, and a lockfile that knows a
checkout for the first one and nothing for the other. -/
def outdated : FileSystem :=
  .ofLists "/w" [("/w/package.yml", twoKindsText),
    ("/w/package.lock", "root: a\npackages:\n- name: d\n  version: v\n")] ["/w/e"]

def twoKinds : Manifest where
  path := "/w/package.yml"
  name := "a"
  version := ""
  main := ""
  prelude := []
  dependencies := ⟨[("d", { DependencySpec.empty with path := "e" }),
    ("g_h", { DependencySpec.empty with git := "u", tag := "t" })]⟩

def oldLock : Lockfile :=
  ⟨"/w/package.lock", "a", "", "", [⟨"d", "v", "", ""⟩]⟩

theorem load_of_decode {yaml : Yaml.Codec} {path text : String} {doc : Yaml.Document} {m : Manifest}
    (hpath : path ≠ "") (hread : fs.read (fs.absolute path) = .ok text)
    (hdoc : yaml.read text = some (some doc)) (hm : Manifest.decode doc (fs.absolute path) = .ok m)
    (hissues : m.issues = []) : Manifest.load yaml fs path = .ok m := by
  rw [Manifest.load, if_neg hpath]
  dsimp only
  rw [hread]
  dsimp only
  rw [Manifest.parse, hdoc]
  dsimp only
  rw [hm]
  dsimp only
  rw [hissues]
  rfl

theorem issues_eq_nil {m : Manifest} (hname : m.name ≠ "") (hprelude : m.prelude = [])
    (h : ∀ n ∈ m.dependencies.names,
      ((m.dependencies.find? n).map DependencySpec.issues).getD [] = []) : m.issues = [] := by
  unfold Manifest.issues
  dsimp only
  rw [if_neg hname, hprelude, List.zipIdx_nil, List.filterMap_nil, List.append_nil, List.nil_append]
  refine List.flatMap_eq_nil_iff.mpr fun n hn => ?_
  have hn := h n ((Text.sort_perm m.dependencies.names).mem_iff.mp hn)
  split
  · rename_i d hd
    rw [hd] at hn
    exact List.map_eq_nil_iff.mpr hn
  · rfl

theorem load_twoKinds : Manifest.load Yaml.codec outdated "package.yml" = .ok twoKinds := by
  have hplace : outdated.absolute "package.yml" = "/w/package.yml" := by decide
  have hread : outdated.read (outdated.absolute "package.yml") = .ok twoKindsText :=
    eq_ok_of_toOption (by decide +kernel)
  have hdecode : ((Yaml.codec.read twoKindsText).bind id).bind (fun doc =>
      (Manifest.decode doc "/w/package.yml").toOption) = some twoKinds := by
    decide +kernel
  obtain ⟨doc, hfound, hm⟩ := Option.bind_eq_some_iff.mp hdecode
  obtain ⟨found, hdoc, rfl⟩ := Option.bind_eq_some_iff.mp hfound
  rw [← hplace] at hm
  exact load_of_decode (by decide) hread hdoc (eq_ok_of_toOption hm)
    (issues_eq_nil (by decide) rfl (by decide))

theorem load_oldLock : Lockfile.load Yaml.codec outdated "package.lock" = .ok oldLock :=
  eq_ok_of_toOption (by decide +kernel)

theorem dependencyNames_twoKinds : twoKinds.dependencyNames = ["d", "g_h"] :=
  List.mergeSort_of_pairwise (by decide)

/-- Both packages are installed, which changes the lockfile. -/
theorem exists_installed_twoKinds : ∃ (q : Progress) (gs : FileSystem),
    (ofOneCommit twoKinds).installAll outdated ⟨oldLock, false, []⟩ twoKinds.dependencyNames =
      (.ok q, gs) ∧ q.changed = true := by
  have hrun : ((ofOneCommit twoKinds).installAll outdated ⟨oldLock, false, []⟩
      ["d", "g_h"]).1.toOption.map (·.changed) = some true := by
    decide +kernel
  rw [dependencyNames_twoKinds]
  generalize (ofOneCommit twoKinds).installAll outdated ⟨oldLock, false, []⟩ ["d", "g_h"] = run
    at hrun ⊢
  obtain ⟨result, gs⟩ := run
  obtain ⟨q, hq, hchanged⟩ := Option.map_eq_some_iff.mp hrun
  exact ⟨q, gs, Prod.ext (eq_ok_of_toOption hq) rfl, hchanged⟩

end Sample

/-- After an installation that succeeds the lockfile has an entry for each dependency, sorted by
name, and no other, and the resolver finds a directory for each that exists. -/
theorem install_agrees {p : Progress}
    (hmanifest : ∃ yaml files path, Manifest.load yaml files path = .ok i.manifest)
    (hgit : i.git.Confined)
    (hlock : (∃ root tool time, lock = .new root tool time) ∨
      ∃ yaml files path, Lockfile.load yaml files path = .ok lock)
    (hnodup : (lock.packages.map (·.name)).Nodup)
    (h : i.install fs lock = (.ok p, gs)) :
    p.lock.packages.map (·.name) = i.manifest.dependencyNames ∧
      (p.lock.packages.map (·.name)).Pairwise (· < ·) ∧
      ∃ roots, i.manifest.dependencyRoots (some p.lock) i.cache = .ok roots ∧
        roots.map Prod.fst = i.manifest.dependencyNames ∧
        ∀ r ∈ roots, (gs.stat r.2).isOk = true := by
  obtain ⟨yaml, files, path, hload⟩ := hmanifest
  obtain ⟨hcanonical, hdistinct⟩ := Manifest.canonicalNames_of_load hload
  have hperm : i.manifest.dependencyNames.Perm i.manifest.dependencies.names := Text.sort_perm _
  have hnames : ∀ n ∈ i.manifest.dependencyNames, IsCanonical n :=
    fun n hn => hcanonical n (hperm.mem_iff.mp hn)
  -- the names are distinct, so each is before the next once they are sorted
  have hsorted : i.manifest.dependencyNames.Pairwise (· < ·) := Text.pairwise_sort hdistinct
  have horder : lock.InOrder := by
    rcases hlock with ⟨root, tool, time, rfl⟩ | ⟨yaml, files, path, hlock⟩
    · exact Lockfile.inOrder_new root tool time
    · exact Lockfile.inOrder_of_load hlock hnodup
  unfold install at h
  dsimp only at h
  split at h
  · cases h
  · rename_i q fs' hrun
    cases h
    -- nothing is installed yet, and pruning leaves what has been
    have hstart : i.Settled fs (Progress.mk lock false []).lock [] := ⟨horder, by simp, by simp⟩
    have hsettled := installAll_spec hgit _ hnames (by simp) hstart hrun
    obtain ⟨hpruned, hplace⟩ := hsettled.prune (by simp) hnames hsorted
    obtain ⟨roots, hroots, hfst, hall⟩ := mapM_of_forall hplace
    rw [← Manifest.dependencyRoots_eq] at hroots
    refine ⟨hpruned, ?_, roots, hroots, hfst, ?_⟩
    · rw [← hpruned] at hsorted
      exact hsorted
    · exact fun r hr => FileSystem.stat_isOk_iff.mpr (hall r hr)

theorem install_agrees_outdated : ∃ (i : Installer) (lock : Lockfile) (p : Progress)
    (gs : FileSystem), Manifest.load Yaml.codec outdated "package.yml" = .ok i.manifest ∧
      Lockfile.load Yaml.codec outdated "package.lock" = .ok lock ∧ i.git.Confined ∧
      i.manifest.dependencyNames = ["d", "g_h"] ∧ lock.packages.map (·.name) = ["d"] ∧
      (lock.packages.map (·.name)).Nodup ∧ i.install outdated lock = (.ok p, gs) ∧
      p.lock.packages.map (·.name) = i.manifest.dependencyNames ∧
      (p.lock.packages.map (·.name)).Pairwise (· < ·) ∧
      ∃ roots, i.manifest.dependencyRoots (some p.lock) i.cache = .ok roots ∧
        roots.map Prod.fst = i.manifest.dependencyNames ∧
        ∀ r ∈ roots, (gs.stat r.2).isOk = true := by
  have hgit := confined_ofOneCommit twoKinds
  have hnodup : (oldLock.packages.map (·.name)).Nodup := by decide
  obtain ⟨q, gs, hrun, -⟩ := exists_installed_twoKinds
  have hinstall := install_of_installAll hrun
  exact ⟨ofOneCommit twoKinds, oldLock, _, gs, load_twoKinds, load_oldLock, hgit,
    dependencyNames_twoKinds, rfl, hnodup, hinstall,
    install_agrees ⟨_, _, _, load_twoKinds⟩ hgit (Or.inr ⟨_, _, _, load_oldLock⟩) hnodup hinstall⟩

end Installer

end ScriptKit.Package
