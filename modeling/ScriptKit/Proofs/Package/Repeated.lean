import ScriptKit.Proofs.FileSystem.Directories
import ScriptKit.Proofs.Package.Installed

namespace ScriptKit.Package

variable {fs gs : FileSystem} {directory name : String} {package : LockedPackage}

/-- What a directory holds, as far as it counts, is the same in two file systems. -/
structure SameContent (fs gs : FileSystem) (directory : String) : Prop where
  stat : gs.stat directory = fs.stat directory
  checksum : checksum gs directory = checksum fs directory

theorem find_of_stat {e : Entry} (h : fs.stat directory = .ok e) : fs.find directory = .ok e := by
  unfold FileSystem.stat FileSystem.inspect at h
  split at h
  · rename_i hfind
    cases h
    exact hfind
  · cases h

theorem stat_of_find {e : Entry} (h : fs.find directory = .ok e) : fs.stat directory = .ok e := by
  rw [FileSystem.stat, FileSystem.inspect, h]

/-- A directory that is still there and holds the same files counts as before. -/
theorem sameContent_of_filesBelow (hfs : fs.find directory = .ok .directory)
    (hgs : gs.find directory = .ok .directory)
    (hfiles : gs.filesBelow directory = fs.filesBelow directory) : SameContent fs gs directory where
  stat := by rw [stat_of_find hfs, stat_of_find hgs]
  checksum := FileSystem.checksum_congr hfs hgs hfiles

theorem SameContent.trans {hs : FileSystem} (h : SameContent fs gs directory)
    (h' : SameContent gs hs directory) : SameContent fs hs directory :=
  ⟨h'.stat.trans h.stat, h'.checksum.trans h.checksum⟩

section Normalised

theorem solid_sha256 (message : List UInt8) : Text.Solid (Digest.sha256 message) := by
  intro c hc
  rw [Digest.sha256, String.toList_join, List.mem_flatMap] at hc
  obtain ⟨digits, hdigits, hc⟩ := hc
  obtain ⟨x, -, rfl⟩ := List.mem_map.mp hdigits
  exact Text.solid_hex _ _ c hc

theorem trim_checksum {path sum : String} (h : checksum fs path = .ok sum) : Text.trim sum = sum := by
  obtain ⟨bytes, -, rfl⟩ : ∃ bytes, checksumBytes fs path = .ok bytes ∧
      Digest.sha256 bytes = sum := by
    rw [checksum] at h
    cases hbytes : checksumBytes fs path with
    | error e =>
      rw [hbytes] at h
      cases h
    | ok bytes =>
      rw [hbytes] at h
      exact ⟨bytes, rfl, Except.ok.inj h⟩
  exact (solid_sha256 bytes).trim_eq

/-- A source that names a directory is trimmed if that has no white space at its end. -/
theorem trim_pathSource (h : ∀ c ∈ directory.toList.getLast?, Text.isSpace c = false) :
    Text.trim ("path:" ++ directory) = "path:" ++ directory := by
  have hlist : ("path:" ++ directory).toList = 'p' :: 'a' :: 't' :: 'h' :: ':' :: directory.toList :=
    String.toList_append
  refine Text.trim_eq_self ?_ ?_
  · intro c hc
    rw [hlist] at hc
    cases hc
    decide
  · intro c hc
    rw [String.toList_append] at hc
    by_cases hempty : directory.toList = []
    · rw [hempty] at hc
      cases hc
      decide
    · rw [List.getLast?_append_of_ne_nil _ hempty] at hc
      exact h c hc

/-- A descriptor is never empty, and has no white space at its ends. -/
theorem descriptor_of_pin {spec : DependencySpec} {pin : Pin} (h : spec.pin? = some pin) :
    pin.descriptor ≠ "" ∧ Text.trim pin.descriptor = pin.descriptor := by
  unfold DependencySpec.pin? at h
  dsimp only at h
  split at h
  · rename_i hne
    cases h
    exact ⟨hne, Text.trim_trim _⟩
  · split at h
    · rename_i hne
      cases h
      exact ⟨hne, Text.trim_trim _⟩
    · split at h
      · rename_i hne
        cases h
        exact ⟨hne, Text.trim_trim _⟩
      · cases h

end Normalised

namespace Installer

variable {i : Installer} {lock : Lockfile} {n url descriptor : String} {pin : Pin}

section Reusable

theorem isReusable_iff : isReusable url descriptor package = true ↔
    Text.hasOpening ("git+" ++ url ++ "@") package.source = true ∧
      (package.version = descriptor ∨
        Text.hasOpening (descriptor ++ "@") package.version = true) := by
  rw [isReusable, Bool.and_eq_true, Bool.or_eq_true, decide_eq_true_iff]

/-- The version of a checkout shows the descriptor it was made for. -/
theorem pinnedVersion_shows (h : Text.trim descriptor = descriptor) (hne : descriptor ≠ "")
    (commit : String) : pinnedVersion descriptor commit = descriptor ∨
      Text.hasOpening (descriptor ++ "@") (pinnedVersion descriptor commit) = true := by
  unfold pinnedVersion
  dsimp only
  rw [h]
  split
  · exact Or.inl rfl
  · split
    · rename_i hsame
      rw [Bool.or_eq_true, decide_eq_true_iff, decide_eq_true_iff] at hsame
      exact Or.inl (hsame.resolve_left hne).symm
    · rw [Text.hasOpening_iff, String.toList_append (s := descriptor ++ "@")]
      exact Or.inr (List.prefix_append _ _)

theorem isReusable_fetched {commit : String} (h : Text.trim descriptor = descriptor)
    (hne : descriptor ≠ "") (hsource : package.source = "git+" ++ url ++ "@" ++ commit)
    (hversion : package.version = pinnedVersion descriptor commit) :
    isReusable url descriptor package = true := by
  rw [isReusable_iff, hsource, hversion]
  refine ⟨?_, pinnedVersion_shows h hne commit⟩
  rw [Text.hasOpening_iff, String.toList_append (s := "git+" ++ url ++ "@")]
  exact List.prefix_append _ _

/-- A package that was made for a repository and a pin is so after it is normalised. -/
theorem isReusable_normalised (h : Text.trim descriptor = descriptor) (hne : descriptor ≠ "")
    (hr : isReusable url descriptor package = true) :
    isReusable url descriptor package.normalised = true := by
  obtain ⟨hsource, hversion⟩ := isReusable_iff.mp hr
  -- nothing ends in a space that ends in the mark behind the descriptor
  have hat : ∀ s : String, ∀ c ∈ (s ++ "@").toList.getLast?, Text.isSpace c = false := by
    intro s c hc
    rw [String.toList_append, List.getLast?_append_of_ne_nil _ (by simp)] at hc
    cases hc
    decide
  refine isReusable_iff.mpr ⟨?_, ?_⟩
  · refine Text.hasOpening_trim ?_ (hat _) hsource
    intro c hc
    rw [String.toList_append, String.toList_append] at hc
    cases hc
    decide
  · rcases hversion with hversion | hversion
    -- the version is the descriptor, or begins with it and the mark
    · exact Or.inl (congrArg Text.trim hversion |>.trans h)
    · refine Or.inr (Text.hasOpening_trim ?_ (hat _) hversion)
      intro c hc
      have hfirst := Text.head?_of_trim_eq h
      have hchars : descriptor.toList ≠ [] := by simpa using hne
      rw [String.toList_append, List.head?_append_of_ne_nil _ hchars] at hc
      exact hfirst c hc

end Reusable

section Fitting

/-- A locked package fits a dependency if it is what installing the dependency gives. -/
inductive Fits (i : Installer) (fs : FileSystem) (name : String) (package : LockedPackage) : Prop
  | path (hpath : (i.manifest.spec name).path ≠ "")
      (hinstall : i.installPath fs name (i.manifest.spec name) = .ok package)
  | checkout {pin : Pin} (hpath : (i.manifest.spec name).path = "")
      (hpin : (i.manifest.spec name).pin? = some pin)
      (hreusable : isReusable (Text.trim (i.manifest.spec name).git) pin.descriptor package = true)
      (hthere : fs.Has (checkoutDirectory i.cache name package.version))

theorem Way.fits (h : i.Way fs lock name package gs) : i.Fits gs name package := by
  cases h with
  | path hpath hinstall => exact .path hpath hinstall
  | cached hpath hpin hcached =>
    obtain ⟨-, htest⟩ := Option.filter_eq_some_iff.mp hcached
    obtain ⟨hreusable, hthere⟩ := Bool.and_eq_true_iff.mp htest
    exact .checkout hpath hpin hreusable (FileSystem.stat_isOk_iff.mp hthere)
  | @fetched pin _ hpath hpin hfetch =>
    obtain ⟨made, commit, sum, -, -, hsum, hpackage⟩ := fetch_cases hfetch
    obtain ⟨hne, htrim⟩ := descriptor_of_pin hpin
    have hversion : package.version = pinnedVersion pin.descriptor commit := by rw [hpackage]
    refine .checkout hpath hpin (isReusable_fetched htrim hne (by rw [hpackage]) hversion) ?_
    rw [hversion]
    exact has_of_checksum hsum

/-- Installing a dependency that is locked by a package that fits gives this package again. -/
theorem installOne_of_fits (hfind : lock.find? name = some package)
    (h : i.Fits fs name package) : i.installOne fs lock name = (.ok package, fs) := by
  rw [installOne_eq]
  cases h with
  | path hpath hinstall => rw [if_pos hpath, hinstall]
  | @checkout pin hpath hpin hreusable hthere =>
    have hcached : i.cached? fs lock name (Text.trim (i.manifest.spec name).git) pin =
        some package := by
      rw [cached?, hfind, Option.filter_some, if_pos]
      exact Bool.and_eq_true_iff.mpr ⟨hreusable, FileSystem.stat_isOk_iff.mpr hthere⟩
    rw [if_neg (not_not_intro hpath), installGit, hpin]
    dsimp only
    rw [hcached]

/-- No directory of a path dependency has white space at its end. -/
def PlainPaths (i : Installer) : Prop :=
  ∀ n ∈ i.manifest.dependencyNames, (i.manifest.spec n).path ≠ "" →
    ∀ c ∈ (i.dependencyPath (i.manifest.spec n)).toList.getLast?, Text.isSpace c = false

/-- Fetches into a place leave a directory that exists as it is. -/
def Spares (i : Installer) (base directory : String) : Prop :=
  ∀ {fs gs : FileSystem} {f : Fetch} {commit : String}, f.base = base →
    f.checkOut i.git (i.numbers base) fs = (.ok commit, gs) →
      fs.find directory = .ok .directory → SameContent fs gs directory

/-- Fetching the packages of repositories leaves the directories of path dependencies as they
are. -/
def SparesPaths (i : Installer) : Prop :=
  ∀ n ∈ i.manifest.dependencyNames, (i.manifest.spec n).path ≠ "" →
    ∀ m ∈ i.manifest.dependencyNames, (i.manifest.spec m).path = "" →
      i.Spares (checkoutBase i.cache m) (i.dependencyPath (i.manifest.spec n))

/-- A directory that does not hold a place is spared by fetches into this. -/
theorem spares_of_not_prefix {base : String} (hgit : i.git.Confined)
    (hdirectory : Path.isAbsolute directory = true) (hbase : Path.isAbsolute base = true)
    (h : ¬Path.steps directory <+: Path.steps base) : i.Spares base directory := by
  intro fs gs f commit hf hfetch hfind
  have hbeside := Fetch.addsBeside_of_checkOut hgit hfetch
  rw [hf, FileSystem.place_eq_steps hbase] at hbeside
  have hsteps : Path.steps (fs.absolute directory) = Path.steps directory := by
    rw [FileSystem.absolute, Path.absolute, if_pos hdirectory, Path.steps_clean]
  have hlead := FileSystem.leadTo_place hfind
  rw [FileSystem.place_eq_steps hdirectory, ← hsteps] at hlead
  rw [← hsteps] at h
  exact sameContent_of_filesBelow hfind (hbeside.keeps.find hfind) (hbeside.filesBelow hlead h)

/-- Paths are given in full, and no directory of a path dependency holds checkouts. -/
def PathsApart (i : Installer) : Prop :=
  ∀ n ∈ i.manifest.dependencyNames, (i.manifest.spec n).path ≠ "" →
    ∀ m ∈ i.manifest.dependencyNames, (i.manifest.spec m).path = "" →
      Path.isAbsolute (i.dependencyPath (i.manifest.spec n)) = true ∧
        Path.isAbsolute (checkoutBase i.cache m) = true ∧
          ¬Path.steps (i.dependencyPath (i.manifest.spec n)) <+: Path.steps (checkoutBase i.cache m)

theorem PathsApart.sparesPaths (h : i.PathsApart) (hgit : i.git.Confined) : i.SparesPaths := by
  intro n hn hpath m hm hother
  obtain ⟨hdirectory, hbase, houtside⟩ := h n hn hpath m hm hother
  exact spares_of_not_prefix hgit hdirectory hbase houtside

theorem installPath_cases {spec : DependencySpec} (h : i.installPath fs name spec = .ok package) :
    fs.stat (i.dependencyPath spec) = .ok .directory ∧ ∃ sum,
      checksum fs (i.dependencyPath spec) = .ok sum ∧
        package = ⟨name, "path", "path:" ++ i.dependencyPath spec, sum⟩ := by
  unfold installPath at h
  dsimp only at h
  split at h
  · cases h
  · cases h
  · rename_i hstat
    split at h
    · cases h
    · rename_i sum hsum
      cases h
      exact ⟨hstat, sum, hsum, rfl⟩

/-- A package that fits does so after it is normalised. -/
theorem Fits.normalised (hplain : i.PlainPaths) (hname : IsCanonical name)
    (hmem : name ∈ i.manifest.dependencyNames) (h : i.Fits fs name package) :
    i.Fits fs name package.normalised := by
  cases h with
  | path hpath hinstall =>
    obtain ⟨-, sum, hsum, rfl⟩ := installPath_cases hinstall
    have hversion : Text.trim "path" = "path" := by decide
    have hsource := trim_pathSource (hplain name hmem hpath)
    have hpackage : LockedPackage.normalised
        ⟨name, "path", "path:" ++ i.dependencyPath (i.manifest.spec name), sum⟩ =
          ⟨name, "path", "path:" ++ i.dependencyPath (i.manifest.spec name), sum⟩ := by
      rw [LockedPackage.normalised]
      dsimp only
      rw [hname, hversion, hsource, trim_checksum hsum]
    rw [hpackage]
    exact .path hpath hinstall
  | checkout hpath hpin hreusable hthere =>
    obtain ⟨hne, htrim⟩ := descriptor_of_pin hpin
    refine .checkout hpath hpin (isReusable_normalised htrim hne hreusable) ?_
    rw [LockedPackage.normalised, checkoutDirectory_trim]
    exact hthere

/-- Fetching one package keeps what a path dependency was locked with. -/
theorem installPath_of_sameContent {spec : DependencySpec}
    (hsame : SameContent fs gs (i.dependencyPath spec))
    (h : i.installPath fs name spec = .ok package) : i.installPath gs name spec = .ok package := by
  unfold installPath at h ⊢
  dsimp only at h ⊢
  rw [hsame.stat, hsame.checksum]
  exact h

theorem Way.sameContent (h : i.Way fs lock name package gs)
    (hspare : (i.manifest.spec name).path = "" →
      i.Spares (checkoutBase i.cache name) directory)
    (hfind : fs.find directory = .ok .directory) : SameContent fs gs directory := by
  cases h with
  | path => exact ⟨rfl, rfl⟩
  | cached => exact ⟨rfl, rfl⟩
  | fetched hpath _ hfetch =>
    obtain ⟨made, commit, sum, hmade, hfetched, -, -⟩ := fetch_cases hfetch
    have hfiles := FileSystem.SameFiles.of_makeDirectories hmade
    have hthere := hfiles.find_directory hfind
    have hmade := sameContent_of_filesBelow hfind hthere (hfiles.filesBelow directory)
    exact hmade.trans (hspare hpath rfl hfetched hthere)

/-- Installing one dependency leaves packages that fit others so. -/
theorem Fits.kept {new : LockedPackage} (hgit : i.git.Confined) (hspare : i.SparesPaths)
    (hn : n ∈ i.manifest.dependencyNames) (hname : name ∈ i.manifest.dependencyNames)
    (hcanonical : IsCanonical name) (hone : i.installOne fs lock name = (.ok new, gs))
    (h : i.Fits fs n package) : i.Fits gs n package := by
  cases h with
  | path hpath hinstall =>
    obtain ⟨hstat, -⟩ := installPath_cases hinstall
    have hsame := (way_of_installOne hone).sameContent (hspare n hn hpath name hname)
      (find_of_stat hstat)
    exact .path hpath (installPath_of_sameContent hsame hinstall)
  | checkout hpath hpin hreusable hthere =>
    exact .checkout hpath hpin hreusable
      ((installOne_spec hcanonical hgit hone).keeps _ hthere)

end Fitting

section Again

/-- Every name in `done` is locked by a package that fits. -/
structure UpToDate (i : Installer) (fs : FileSystem) (lock : Lockfile) (done : List String) :
    Prop where
  canonical : lock.Canonical
  fits : ∀ n ∈ done, ∃ package, lock.find? n = some package ∧ i.Fits fs n package

/-- The assumptions on an installer: its manifest knows dependencies by their names, and what it
fetches does not disturb what is there. -/
structure Orderly (i : Installer) : Prop where
  canonical : ∀ n ∈ i.manifest.dependencyNames, IsCanonical n
  confined : i.git.Confined
  spares : i.SparesPaths
  plain : i.PlainPaths

/-- Installing one more dependency keeps the others up to date. -/
theorem UpToDate.add {done : List String} (hi : i.Orderly) (h : i.UpToDate fs lock done)
    (hname : name ∈ i.manifest.dependencyNames) (hdone : ∀ n ∈ done, n ∈ i.manifest.dependencyNames)
    (hone : i.installOne fs lock name = (.ok package, gs)) :
    i.UpToDate gs (lock.upsert package).1 (name :: done) := by
  have hcanonical := hi.canonical name hname
  have hpackage : package.name = name := (installOne_spec hcanonical hi.confined hone).name_eq
  have hknown : IsCanonical package.name := by
    rw [hpackage]
    exact hcanonical
  have hfind := h.canonical.find?_upsert hknown
  -- what is found now is as it was before, or this normalised
  have hnow : ∀ n ∈ i.manifest.dependencyNames, ∀ locked, i.Fits gs n locked →
      (if canonicalName n = package.name then some package else lock.find? n) = some locked →
        ∃ found, (lock.upsert package).1.find? n = some found ∧ i.Fits gs n found := by
    intro n hn locked hfits hlocked
    have hupsert := hfind n
    by_cases hold : (lock.find? package.name).isSome = true
    · rw [if_pos hold] at hupsert
      exact ⟨locked, hupsert.trans hlocked, hfits⟩
    · rw [if_neg hold] at hupsert
      have hnormalised := congrArg (Option.map LockedPackage.normalised) hlocked
      exact ⟨locked.normalised, hupsert.trans hnormalised,
        hfits.normalised hi.plain (hi.canonical n hn) hn⟩
  refine ⟨h.canonical.upsert hknown, ?_⟩
  intro n hn
  by_cases hne : n = name
  · subst hne
    have hmatch : canonicalName n = package.name := Eq.trans hcanonical hpackage.symm
    exact hnow n hname package (way_of_installOne hone).fits (if_pos hmatch)
  · have hn := List.mem_of_ne_of_mem hne hn
    obtain ⟨locked, hlocked, hfits⟩ := h.fits n hn
    have hother : canonicalName n ≠ package.name := by
      rw [hpackage, hi.canonical n (hdone n hn)]
      exact hne
    refine hnow n (hdone n hn) locked ?_ ((if_neg hother).trans hlocked)
    exact hfits.kept hi.confined hi.spares (hdone n hn) hname hcanonical hone

theorem UpToDate.installAll (hi : i.Orderly) : ∀ (names : List String) {fs : FileSystem}
    {done : List String} {p q : Progress}, (∀ n ∈ names, n ∈ i.manifest.dependencyNames) →
      (∀ n ∈ done, n ∈ i.manifest.dependencyNames) → i.UpToDate fs p.lock done →
      i.installAll fs p names = (.ok q, gs) → i.UpToDate gs q.lock (names.reverse ++ done)
  | [], _, _, _, _, _, _, h, hrun => by
    cases hrun
    exact h
  | name :: names, fs, done, p, q, hnames, hdone, h, hrun => by
    obtain ⟨hname, hnames⟩ := List.forall_mem_cons.mp hnames
    rw [Installer.installAll] at hrun
    split at hrun
    · cases hrun
    · rename_i package fs' hone
      have hadd : i.UpToDate fs' (p.add package).lock (name :: done) :=
        h.add hi hname hdone hone
      have hrest := UpToDate.installAll hi names hnames
        (List.forall_mem_cons.mpr ⟨hname, hdone⟩) hadd hrun
      rwa [List.reverse_cons, List.append_assoc, List.singleton_append]

/-- Dependencies that are locked by packages that fit are used as they are. -/
theorem installAll_of_upToDate : ∀ (names lines : List String),
    i.UpToDate fs lock names → ∃ lines', i.installAll fs ⟨lock, false, lines⟩ names =
      (.ok ⟨lock, false, lines'⟩, fs)
  | [], lines, _ => ⟨lines, rfl⟩
  | name :: names, lines, h => by
    obtain ⟨⟨package, hfind, hfits⟩, hnames⟩ := List.forall_mem_cons.mp h.fits
    obtain ⟨lines', hrest⟩ := installAll_of_upToDate names
      (lines ++ ["Using " ++ package.name ++ " " ++ package.version])
      ⟨h.canonical, hnames⟩
    have hadd : Progress.add ⟨lock, false, lines⟩ package =
        ⟨lock, false, lines ++ ["Using " ++ package.name ++ " " ++ package.version]⟩ := by
      rw [Progress.add]
      dsimp only
      rw [Lockfile.upsert_of_find? hfind]
      rfl
    refine ⟨lines', ?_⟩
    rw [Installer.installAll, installOne_of_fits hfind hfits]
    dsimp only
    rw [hadd, hrest]

theorem UpToDate.prune {names : List String} (h : i.UpToDate fs lock names) :
    i.UpToDate fs (lock.prune names).1 names := by
  refine ⟨h.canonical.prune names, ?_⟩
  intro n hn
  rw [Lockfile.find?_prune (List.mem_map_of_mem hn)]
  exact h.fits n hn

end Again

/-- Installing again changes nothing: every dependency is used as it is locked, and the lockfile
stays what it is. -/
theorem install_again {p : Progress}
    (hmanifest : ∃ yaml files path, Manifest.load yaml files path = .ok i.manifest)
    (hgit : i.git.Confined) (hspare : i.SparesPaths) (hplain : i.PlainPaths)
    (hlock : lock.Canonical) (h : i.install fs lock = (.ok p, gs)) :
    ∃ lines, i.install gs p.lock = (.ok ⟨p.lock, false, lines⟩, gs) := by
  obtain ⟨yaml, files, path, hload⟩ := hmanifest
  have hperm : i.manifest.dependencyNames.Perm i.manifest.dependencies.names := Text.sort_perm _
  have hcanonical : ∀ n ∈ i.manifest.dependencyNames, IsCanonical n :=
    fun n hn => (Manifest.canonicalNames_of_load hload).canonical n (hperm.mem_iff.mp hn)
  have hi : i.Orderly := ⟨hcanonical, hgit, hspare, hplain⟩
  unfold install at h
  dsimp only at h
  split at h
  · cases h
  · rename_i q fs' hrun
    cases h
    have hstart : i.UpToDate fs (Progress.mk lock false []).lock [] := ⟨hlock, by simp⟩
    have hdone := UpToDate.installAll hi _ (fun n hn => hn) (by simp) hstart hrun
    -- the names are all those of the manifest, so that pruning takes none of them away
    have hnow : i.UpToDate gs (q.lock.prune i.manifest.dependencyNames).1
        i.manifest.dependencyNames :=
      UpToDate.prune ⟨hdone.canonical, fun n hn => hdone.fits n (by simpa using hn)⟩
    obtain ⟨lines, hagain⟩ := installAll_of_upToDate _ [] hnow
    refine ⟨lines, ?_⟩
    rw [install_of_installAll hagain]
    dsimp only
    rw [Lockfile.prune_prune]
    rfl

/-- The directory of the one package ends in no white space, and the other is kept elsewhere. -/
theorem paths_twoKinds :
    (ofOneCommit twoKinds).PlainPaths ∧ (ofOneCommit twoKinds).PathsApart := by
  have hnames : ∀ n ∈ twoKinds.dependencyNames, n = "d" ∨ n = "g_h" := by
    rw [dependencyNames_twoKinds]
    simp
  have hpaths : (twoKinds.spec "d").path ≠ "" ∧ (twoKinds.spec "g_h").path = "" := by decide
  have hdirectory : (ofOneCommit twoKinds).dependencyPath (twoKinds.spec "d") = "/w/e" := by
    decide +kernel
  refine ⟨fun n hn hpath c hc => ?_, fun n hn hpath k hk hother => ?_⟩
  · obtain rfl : n = "d" := (hnames n hn).resolve_right fun heq => hpath (heq ▸ hpaths.2)
    change c ∈ ((ofOneCommit twoKinds).dependencyPath (twoKinds.spec "d")).toList.getLast? at hc
    rw [hdirectory] at hc
    cases hc
    decide
  · obtain rfl : n = "d" := (hnames n hn).resolve_right fun heq => hpath (heq ▸ hpaths.2)
    obtain rfl : k = "g_h" := (hnames k hk).resolve_left fun heq => hpaths.1 (heq ▸ hother)
    change Path.isAbsolute ((ofOneCommit twoKinds).dependencyPath (twoKinds.spec "d")) = true ∧
      Path.isAbsolute (checkoutBase "/k" "g_h") = true ∧
        ¬Path.steps ((ofOneCommit twoKinds).dependencyPath (twoKinds.spec "d")) <+:
          Path.steps (checkoutBase "/k" "g_h")
    rw [hdirectory]
    decide +kernel

theorem install_again_twoKinds : ∃ (i : Installer) (lock : Lockfile) (p : Progress)
    (gs : FileSystem), Manifest.load Yaml.codec outdated "package.yml" = .ok i.manifest ∧
      i.manifest.dependencyNames = ["d", "g_h"] ∧ i.git.Confined ∧ i.SparesPaths ∧
      i.PlainPaths ∧ lock.Canonical ∧ i.install outdated lock = (.ok p, gs) ∧ p.changed = true ∧
      ∃ lines, i.install gs p.lock = (.ok ⟨p.lock, false, lines⟩, gs) := by
  have hgit := confined_ofOneCommit twoKinds
  have hlock := Lockfile.canonical_of_load load_oldLock
  obtain ⟨q, gs, hrun, hchanged⟩ := exists_installed_twoKinds
  obtain ⟨hplain, hapart⟩ := paths_twoKinds
  have hspares := hapart.sparesPaths hgit
  have hinstall := install_of_installAll hrun
  have hchanged : (q.changed || (q.lock.prune twoKinds.dependencyNames).2) = true := by
    rw [hchanged, Bool.true_or]
  exact ⟨ofOneCommit twoKinds, oldLock, _, gs, load_twoKinds, dependencyNames_twoKinds, hgit,
    hspares, hplain, hlock, hinstall, hchanged,
    install_again ⟨_, _, _, load_twoKinds⟩ hgit hspares hplain hlock hinstall⟩

end Installer

end ScriptKit.Package
