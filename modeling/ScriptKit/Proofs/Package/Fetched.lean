import ScriptKit.Package.Install
import ScriptKit.Proofs.FileSystem.Within
import ScriptKit.Proofs.Package.Names

namespace ScriptKit.Package

open FileSystem

variable {fs gs : FileSystem} {base : List String} {directory : String}

section Names

/-- The character that stands for another one in the name of a directory. -/
def segmentChar (c : Char) : Char :=
  if isSegmentChar c then c else '_'

theorem segmentChar_ne_slash (c : Char) : segmentChar c ≠ '/' := by
  unfold segmentChar
  split
  · rintro rfl
    rename_i hc
    exact absurd hc (by decide)
  · decide

theorem toList_pathSegment (version : String) : (pathSegment version).toList =
    if Text.trim version = "" then "head".toList
    else (Text.trim version).toList.map segmentChar := by
  unfold pathSegment
  split
  · rename_i hnil
    rw [if_pos (String.toList_eq_nil_iff.mp hnil)]
  · rename_i hsome
    rw [if_neg fun hempty => hsome (String.toList_eq_nil_iff.mpr hempty), String.toList_ofList]
    rfl

theorem isName_pathSegment (version : String) : Path.IsName (pathSegment version) := by
  have hlist := toList_pathSegment version
  refine ⟨?_, ?_⟩
  · intro hempty
    rw [hempty] at hlist
    split at hlist
    · exact absurd hlist (by decide)
    · rename_i hne
      exact hne (String.toList_eq_nil_iff.mp (List.map_eq_nil_iff.mp hlist.symm))
  · rw [hlist]
    split
    · decide
    · rw [List.mem_map]
      rintro ⟨c, -, hc⟩
      exact segmentChar_ne_slash c hc

/-- The name of a temporary directory leads down. -/
theorem isName_temporary (n : Nat) :
    Path.IsName ("git-fetch-" ++ toString n) ∧ LeadsDown ("git-fetch-" ++ toString n) := by
  have hlist : ("git-fetch-" ++ toString n).toList = "git-fetch-".toList ++ Nat.toDigits 10 n := by
    rw [String.toList_append]
    simp [Nat.repr]
  have hother : ∀ s : String, s.toList.head? ≠ some 'g' → "git-fetch-" ++ toString n ≠ s := by
    rintro s hs rfl
    rw [hlist] at hs
    exact hs rfl
  refine ⟨⟨hother "" (by decide), ?_⟩, hother "." (by decide), hother ".." (by decide)⟩
  rw [hlist]
  intro hmem
  rcases List.mem_append.mp hmem with hmem | hmem
  · exact absurd hmem (by decide)
  · exact absurd (Nat.isDigit_of_mem_toDigits (by decide) (by decide) hmem) (by decide)

theorem place_prefix_git (fs : FileSystem) (directory : String) :
    fs.place directory <+: fs.place (Path.join [directory, ".git"]) := by
  rw [place_join_of_down fs directory ⟨by decide, by decide⟩ ⟨by decide, by decide⟩]
  exact List.prefix_append _ _

end Names

/-- Two file systems differ only in places that nothing leads to in the first one, in a directory or
around it. -/
inductive AddsBeside (base : List String) (fs : FileSystem) : FileSystem → Prop
  | nothing : AddsBeside base fs fs
  | places {source target : List String} {gs : FileSystem}
    (hsource : ∀ e, ¬fs.LeadTo source.reverse e) (htarget : ∀ e, ¬fs.LeadTo target.reverse e)
    (hsourceUp : source.dropLast <+: base) (htargetUp : target.dropLast <+: base)
    (h : (gs.without source).without target = (fs.without source).without target) :
    AddsBeside base fs gs

namespace AddsBeside

theorem keeps (h : AddsBeside base fs gs) : fs.Keeps gs := by
  cases h with
  | nothing => exact .refl fs
  | places hsource htarget _ _ h => exact .of_without hsource htarget h

/-- A place that is not reached is apart from a directory that holds no part of the base. -/
theorem apart {place steps : List String} {e : Entry} (hplace : ∀ e, ¬fs.LeadTo place.reverse e)
    (hup : place.dropLast <+: base) (hsteps : fs.LeadTo steps.reverse e)
    (hbase : ¬steps <+: base) : Apart place steps := by
  refine ⟨fun hopens => ?_, fun hopens => ?_⟩
  -- the place is not on the way to the directory, as it would be reached
  · rw [← List.reverse_reverse steps] at hopens
    obtain ⟨e', he'⟩ := hsteps.of_prefix hopens
    exact hplace e' he'
  -- the directory is not on the way to the place, as it would hold the base or be the place itself
  · rcases List.eq_nil_or_concat' place with hnil | ⟨init, last, hconcat⟩
    · rw [hnil] at hplace
      exact hplace _ leadTo_nil
    · rw [hconcat, List.dropLast_concat] at hup
      rw [hconcat, List.prefix_concat_iff] at hopens
      rcases hopens with heq | hopens
      · rw [← hconcat] at heq
        exact hplace e (heq ▸ hsteps)
      · exact hbase (hopens.trans hup)

theorem filesBelow (h : AddsBeside base fs gs)
    (hsteps : fs.LeadTo (Path.steps (fs.absolute directory)).reverse .directory)
    (hbase : ¬Path.steps (fs.absolute directory) <+: base) :
    gs.filesBelow directory = fs.filesBelow directory := by
  cases h with
  | nothing => rfl
  | places hsource htarget hsourceUp htargetUp h =>
    exact filesBelow_of_without (apart hsource hsourceUp hsteps hbase)
      (apart htarget htargetUp hsteps hbase) h

end AddsBeside

section Library

/-- A repository whose files are in a directory. -/
def Repository.ConfinedTo (repository : Repository) (directory : String) : Prop :=
  ∀ worktree, repository.worktree = .ok worktree → ∀ {fs commit result gs},
    worktree.checkout fs commit = (result, gs) → ChangesWithin directory fs gs

/-- A library that changes nothing but in the directories that it is given. -/
structure Git.Confined (git : Git) : Prop where
  clone : ∀ {fs directory url result gs}, git.clone fs directory url = (result, gs) →
    ChangesWithin directory fs gs
  repository : ∀ {fs directory url repository gs},
    git.clone fs directory url = (.ok repository, gs) → repository.ConfinedTo directory

end Library

namespace Fetch

variable {f : Fetch} {git : Git} {repository : Repository} {number : Nat → Nat}
  {clone commit : String}

/-- The directory of a commit is in that for versions, or around it. -/
theorem dropLast_target (fs : FileSystem) (f : Fetch) (commit : String) :
    (fs.place (f.target commit)).dropLast <+: fs.place f.base := by
  rw [target, place_join fs f.base (isName_pathSegment _)]
  generalize pathSegment (pinnedVersion f.pin.descriptor commit) = segment
  -- a version may be named by a dot or two, which lead nowhere or up
  rcases leadsDown_or segment with hdown | rfl | rfl
  · simp [Path.step_of_down hdown]
  · change (fs.place f.base).reverse.reverse.dropLast <+: fs.place f.base
    rw [List.reverse_reverse]
    exact List.dropLast_prefix _
  · rcases List.eq_nil_or_concat' (fs.place f.base) with hnil | ⟨init, last, hconcat⟩
    · rw [hnil]
      exact List.prefix_refl _
    · have hlast : last ≠ ".." := by
        refine (leadsDown_of_mem_place fs f.base last ?_).2
        rw [hconcat]
        simp
      rw [hconcat, List.reverse_append, List.reverse_singleton, List.singleton_append,
        Path.step_up hlast, List.reverse_reverse]
      exact (List.dropLast_prefix init).trans (List.prefix_append init [last])

/-- Publishing changes nothing but the clone, until it is given the path of its commit. -/
theorem publish_cases {result : Except InstallError Unit}
    (hrepository : repository.ConfinedTo clone)
    (h : f.publish repository fs clone commit = (result, gs)) :
    ChangesWithin clone fs gs ∨ result = .ok () ∧ ∃ mid, ChangesWithin clone fs mid ∧
      mid.rename clone (f.target commit) = .ok gs := by
  unfold publish at h
  split at h
  · cases h
    exact Or.inl rfl
  · rename_i worktree hworktree
    split at h
    · rename_i hcheckout
      cases h
      exact Or.inl (hrepository worktree hworktree hcheckout)
    · rename_i checked hcheckout
      have hchecked := hrepository worktree hworktree hcheckout
      split at h
      · cases h
        exact Or.inl hchecked
      · rename_i bare hbare
        have hbare := hchecked.trans
          ((ChangesWithin.of_removeAll hbare).up (place_prefix_git checked clone))
        split at h
        · cases h
          exact Or.inl hbare
        · rename_i hnamed
          cases h
          exact Or.inr ⟨rfl, bare, hbare, hnamed⟩

theorem adopt_cases {result : Except InstallError String}
    (hrepository : repository.ConfinedTo clone)
    (h : f.adopt repository fs clone = (result, gs)) :
    ChangesWithin clone fs gs ∨ ∃ commit, result = .ok commit ∧ ∃ mid, ChangesWithin clone fs mid ∧
      mid.rename clone (f.target commit) = .ok gs := by
  unfold adopt at h
  split at h
  · cases h
    exact Or.inl rfl
  · rename_i commit hcommit
    split at h
    · cases h
      exact Or.inl (.of_discard clone fs)
    · cases hpublish : f.publish repository fs clone commit with
      | mk published named =>
        rw [hpublish] at h
        cases h
        refine (publish_cases hrepository hpublish).imp_right ?_
        rintro ⟨rfl, mid, hmid⟩
        exact ⟨commit, rfl, mid, hmid⟩

/-- A fetch clones at a place that nothing leads to. -/
theorem checkOut_cases {result : Except InstallError String} (hgit : git.Confined)
    (h : f.checkOut git number fs = (result, gs)) :
    gs = fs ∨ ∃ clone, (∀ e, ¬fs.LeadTo (fs.place clone).reverse e) ∧
      (fs.place clone).dropLast = fs.place f.base ∧ (ChangesWithin clone fs gs ∨
        ∃ mid commit, ChangesWithin clone fs mid ∧
          mid.rename clone (f.target commit) = .ok gs) := by
  unfold checkOut at h
  split at h
  · cases h
    exact Or.inl rfl
  · rename_i clone made htemporary
    obtain ⟨n, rfl, hmade⟩ := makeTemporary_cases htemporary
    obtain ⟨hname, hdown⟩ := isName_temporary n
    obtain ⟨hmade, hnew⟩ := makeDirectory_cases hmade
    -- whatever happens from here on happens in the new directory, up to the last step
    refine Or.inr ⟨_, hnew, ?_, ?_⟩
    · rw [place_join_of_down fs f.base hname hdown, List.dropLast_concat]
    · split at h
      · cases h
        exact Or.inl hmade
      · rename_i cleared hcleared
        have hcleared := hmade.trans (.of_removeAll hcleared)
        split at h
        · rename_i hclone
          cases h
          exact Or.inl ((hcleared.trans (hgit.clone hclone)).trans (.of_discard _ _))
        · rename_i repository cloned hclone
          have hcloned := hcleared.trans (hgit.clone hclone)
          have hrepository := hgit.repository hclone
          split at h
          · rename_i hadopt
            cases h
            rcases adopt_cases hrepository hadopt with hadopted | ⟨commit, hresult, -⟩
            · exact Or.inl ((hcloned.trans hadopted).trans (.of_discard _ _))
            · cases hresult
          · rename_i hadopt
            cases h
            rcases adopt_cases hrepository hadopt with hadopted | ⟨commit, -, mid, hmid, hrename⟩
            · exact Or.inl (hcloned.trans hadopted)
            · exact Or.inr ⟨mid, commit, hcloned.trans hmid, hrename⟩

/-- Whatever comes of a fetch, it adds something in the directory for versions, or around it, where
nothing was. -/
theorem addsBeside_of_checkOut {result : Except InstallError String} (hgit : git.Confined)
    (h : f.checkOut git number fs = (result, gs)) : AddsBeside (fs.place f.base) fs gs := by
  obtain rfl | ⟨clone, hnew, hup, hwithin | ⟨mid, commit, hmid, hrename⟩⟩ := checkOut_cases hgit h
  · exact .nothing
  · exact .places hnew hnew (hup ▸ List.prefix_refl _) (hup ▸ List.prefix_refl _)
      (congrArg (·.without (fs.place clone)) hwithin)
  · obtain ⟨hgs, hfree⟩ := rename_cases hrename
    rw [hmid.place_eq] at hgs
    rw [hmid.place_eq] at hgs hfree
    -- what the clone has been given is not on the way to where it is brought
    have hkeeps : fs.Keeps mid :=
      .of_without hnew hnew (congrArg (·.without (fs.place clone)) hmid)
    have htarget : ∀ e, ¬fs.LeadTo (fs.place (f.target commit)).reverse e := fun e he =>
      hfree e (hkeeps.leadTo (fun n hn => isName_of_mem_place fs _ n (List.mem_reverse.mp hn)) he)
    refine .places hnew htarget (hup ▸ List.prefix_refl _) (dropLast_target fs f commit) ?_
    have hmoved : gs.without (fs.place (f.target commit)) =
        (fs.without (fs.place clone)).without (fs.place (f.target commit)) := by
      rw [hgs, without_relocate (isName_of_mem_place fs _), hmid]
    rw [without_comm, hmoved, without_comm, without_without (List.prefix_refl _)]

end Fetch

section Sample

/-- Repositories that have one commit each, without any files. -/
def Git.oneCommit (commit : String) : Git where
  clone fs directory _ :=
    let repository : Repository := ⟨fun _ => .ok commit, .ok ⟨fun fs _ => (.ok (), fs)⟩⟩
    match fs.makeDirectory directory with
    | .error e => (.error e.message, fs)
    | .ok made =>
      match made.makeDirectory (Path.join [directory, ".git"]) with
      | .error e => (.error e.message, made)
      | .ok whole => (.ok repository, whole)

theorem Git.confined_oneCommit (commit : String) : (oneCommit commit).Confined where
  clone {fs directory url result gs} h := by
    unfold oneCommit at h
    dsimp only at h
    split at h
    · cases h
      rfl
    · rename_i made hmade
      have hmade := (makeDirectory_cases hmade).1
      split at h
      · cases h
        exact hmade
      · rename_i hwhole
        cases h
        exact hmade.trans ((makeDirectory_cases hwhole).1.up (place_prefix_git made directory))
  repository {fs directory url repository gs} h := by
    intro worktree hworktree fs commit result gs hcheckout
    unfold oneCommit at h
    dsimp only at h
    split at h
    · cases h
    · split at h
      · cases h
      · cases h
        cases hworktree
        cases hcheckout
        rfl

end Sample

end ScriptKit.Package
