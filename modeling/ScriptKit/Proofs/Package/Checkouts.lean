import ScriptKit.Proofs.FileSystem.Cleaned
import ScriptKit.Proofs.Package.Repeated

namespace ScriptKit.Package

variable {url url' descriptor descriptor' commit commit' version : String}

section Commits

/-- A commit as it is written: forty hexadecimal digits. -/
structure IsCommit (commit : String) : Prop where
  length : commit.toList.length = 40
  digits : ∀ c ∈ commit.toList, (Text.hexValue? c).isSome = true

theorem toNat_of_hexValue? {c : Char} (h : (Text.hexValue? c).isSome = true) :
    48 ≤ c.toNat ∧ c.toNat ≤ 102 := by
  have hle : ∀ a b : Char, a ≤ b ↔ a.toNat ≤ b.toNat := fun _ _ => Iff.rfl
  unfold Text.hexValue? Text.isDigit at h
  unfold Text.toLower at h
  simp only [hle, Bool.and_eq_true, decide_eq_true_eq] at h
  split at h
  · -- a capital letter stands between the digits and the small letters
    rename_i hcapital
    have hfirst : 'A'.toNat = 65 := rfl
    have hlast : 'Z'.toNat = 90 := rfl
    omega
  · have h0 : '0'.toNat = 48 := rfl
    have h9 : '9'.toNat = 57 := rfl
    have ha : 'a'.toNat = 97 := rfl
    have hf : 'f'.toNat = 102 := rfl
    split at h
    · omega
    · split at h
      · omega
      · cases h

theorem IsCommit.at_not_mem (h : IsCommit commit) : '@' ∉ commit.toList := by
  intro hmem
  exact absurd (h.digits '@' hmem) (by decide)

theorem IsCommit.ne_empty (h : IsCommit commit) : commit ≠ "" := by
  rintro rfl
  exact absurd h.length (by decide)

theorem IsCommit.solid (h : IsCommit commit) : Text.Solid commit := by
  intro c hc
  have hbounds := toNat_of_hexValue? (h.digits c hc)
  unfold Text.isSpace
  simp only [Bool.or_eq_false_iff, Bool.and_eq_false_iff, decide_eq_false_iff_not]
  omega

theorem IsCommit.trim_eq (h : IsCommit commit) : Text.trim commit = commit :=
  h.solid.trim_eq

theorem pinnedVersion_of_isCommit (h : IsCommit commit) (descriptor : String) :
    pinnedVersion descriptor commit =
      if Text.trim descriptor = "" ∨ Text.trim descriptor = commit then commit
      else Text.trim descriptor ++ "@" ++ commit := by
  rw [pinnedVersion, h.trim_eq, if_neg h.ne_empty]
  simp only [Bool.or_eq_true, decide_eq_true_eq]

/-- The version of a checkout is the commit alone only for a pin that is the commit itself. -/
theorem pinnedVersion_eq (hcommit : IsCommit commit) (htrim : Text.trim descriptor = descriptor)
    (hne : descriptor ≠ "") : pinnedVersion descriptor commit =
      if descriptor = commit then commit else descriptor ++ "@" ++ commit := by
  rw [pinnedVersion_of_isCommit hcommit, htrim]
  simp [hne]

end Commits

section Reuse

/-- A text and a mark open a text with the mark and a word behind it exactly if the text is that
one, or the mark follows it earlier. -/
theorem append_mark_prefix_iff {mark : Char} {word : List Char} (h : mark ∉ word) :
    ∀ {s t : List Char}, s ++ [mark] <+: t ++ mark :: word ↔ s = t ∨ s ++ [mark] <+: t
  | [], [] => by simp
  | [], c :: t => by simp [List.cons_prefix_cons]
  | c :: s, [] => by
    have hshort : ¬ s ++ [mark] <+: word := by
      intro hfront
      exact h (hfront.subset (List.mem_append_right s List.mem_cons_self))
    simp [List.cons_prefix_cons, hshort]
  | c :: s, d :: t => by
    rw [List.cons_append, List.cons_append, List.cons_prefix_cons, List.cons_prefix_cons,
      append_mark_prefix_iff h, List.cons_eq_cons, and_or_left]

/-- What is joined by an at sign with a commit opens with a text and an at sign exactly if it is
joined to that text, or to one that goes on with an at sign behind it. -/
theorem hasOpening_joined_iff (hcommit : IsCommit commit) (s t : String) :
    Text.hasOpening (s ++ "@") (t ++ "@" ++ commit) = true ↔
      t = s ∨ Text.hasOpening (s ++ "@") t = true := by
  have hjoined : (t ++ "@" ++ commit).toList = t.toList ++ '@' :: commit.toList := by
    rw [String.toList_append, String.toList_append, List.append_assoc]
    rfl
  have hmarked : (s ++ "@").toList = s.toList ++ ['@'] := String.toList_append
  rw [Text.hasOpening_iff, Text.hasOpening_iff, hjoined, hmarked,
    append_mark_prefix_iff hcommit.at_not_mem, String.toList_inj, eq_comm]

theorem hasOpening_append (opening s t : String) :
    Text.hasOpening (opening ++ s) (opening ++ t) = Text.hasOpening s t := by
  rw [Bool.eq_iff_iff, Text.hasOpening_iff, Text.hasOpening_iff, String.toList_append,
    String.toList_append, List.prefix_append_right_inj]

theorem source_shows_iff (hcommit : IsCommit commit) :
    Text.hasOpening ("git+" ++ url ++ "@") ("git+" ++ url' ++ "@" ++ commit) = true ↔
      url' = url ∨ Text.hasOpening (url ++ "@") url' = true := by
  have hsplit : "git+" ++ url' ++ "@" ++ commit = "git+" ++ (url' ++ "@" ++ commit) := by
    simp only [String.append_assoc]
  rw [hsplit, String.append_assoc, hasOpening_append, hasOpening_joined_iff hcommit]

theorem version_shows_iff (hcommit : IsCommit commit) (htrim : Text.trim descriptor' = descriptor')
    (hne : descriptor' ≠ "") :
    (pinnedVersion descriptor' commit = descriptor ∨
      Text.hasOpening (descriptor ++ "@") (pinnedVersion descriptor' commit) = true) ↔
      descriptor' = descriptor ∨ Text.hasOpening (descriptor ++ "@") descriptor' = true ∨
        descriptor' ≠ commit ∧ descriptor = descriptor' ++ "@" ++ commit := by
  rw [pinnedVersion_eq hcommit htrim hne]
  -- the version is the descriptor alone if that is the commit, and otherwise the two joined
  split
  · rename_i hsame
    subst hsame
    simp
  · rename_i hother
    rw [hasOpening_joined_iff hcommit]
    simp only [hother, not_false_eq_true, true_and, ne_eq]
    constructor
    · rintro (h | h | h)
      · exact Or.inr (Or.inr h.symm)
      · exact Or.inl h
      · exact Or.inr (Or.inl h)
    · rintro (h | h | h)
      · exact Or.inr (Or.inl h)
      · exact Or.inr (Or.inr h)
      · exact Or.inl h.symm

namespace Installer

/-- A checkout of a commit for a repository and a pin is used for others exactly if these are the
same, or where an at sign in them can be taken for the one that joins them with the commit. -/
theorem checkout_reused_iff (url url' descriptor name sum : String) (hcommit : IsCommit commit)
    (htrim : Text.trim descriptor' = descriptor') (hne : descriptor' ≠ "") :
    let made : LockedPackage :=
      ⟨name, pinnedVersion descriptor' commit, "git+" ++ url' ++ "@" ++ commit, sum⟩
    (isReusable url descriptor made = true ↔
      (url' = url ∨ Text.hasOpening (url ++ "@") url' = true) ∧
        (descriptor' = descriptor ∨ Text.hasOpening (descriptor ++ "@") descriptor' = true ∨
          descriptor' ≠ commit ∧ descriptor = descriptor' ++ "@" ++ commit)) ∧
    (Text.hasOpening (url ++ "@") url' = false →
      Text.hasOpening (descriptor ++ "@") descriptor' = false →
      descriptor ≠ descriptor' ++ "@" ++ commit →
        (isReusable url descriptor made = true ↔ url = url' ∧ descriptor = descriptor')) := by
  intro made
  have hmade : isReusable url descriptor made = true ↔
      (url' = url ∨ Text.hasOpening (url ++ "@") url' = true) ∧
        (descriptor' = descriptor ∨ Text.hasOpening (descriptor ++ "@") descriptor' = true ∨
          descriptor' ≠ commit ∧ descriptor = descriptor' ++ "@" ++ commit) := by
    rw [isReusable_iff, source_shows_iff hcommit, version_shows_iff hcommit htrim hne]
  refine ⟨hmade, fun hurl hdescriptor hfull => ?_⟩
  rw [hmade, hurl, hdescriptor]
  simp [hfull, eq_comm]

theorem checkout_reused_iff_tags :
    let commit := "0123456789abcdef0123456789abcdef01234567"
    let made (tag : String) : LockedPackage :=
      ⟨"d", pinnedVersion tag commit, "git+" ++ "u" ++ "@" ++ commit, "x"⟩
    IsCommit commit ∧ Text.trim "v1" = "v1" ∧ "v1" ≠ "" ∧
      isReusable "u" "v1" (made "v1") = true ∧ ¬isReusable "u" "v2" (made "v1") = true ∧
      ¬isReusable "w" "v1" (made "v1") = true ∧ isReusable "u" "v1" (made "v1@beta") = true := by
  intro commit made
  have hcommit : IsCommit commit := ⟨by decide, List.all_eq_true.mp (by decide)⟩
  have htrim : Text.trim "v1" = "v1" := by decide
  have hne : "v1" ≠ "" := by decide
  have hown := checkout_reused_iff "u" "u" "v1" "d" "x" hcommit htrim hne
  have htag := checkout_reused_iff "u" "u" "v2" "d" "x" hcommit htrim hne
  have hurl := checkout_reused_iff "w" "u" "v1" "d" "x" hcommit htrim hne
  have hmark := checkout_reused_iff "u" "u" "v1" "d" "x" hcommit
    (by decide : Text.trim "v1@beta" = "v1@beta") (by decide)
  refine ⟨hcommit, htrim, hne, hown.1.mpr ?_, ?_, ?_, hmark.1.mpr ?_⟩
  · exact ⟨Or.inl rfl, Or.inl rfl⟩
  · rw [htag.2 (by decide) (by decide) (by decide)]
    decide
  · rw [hurl.2 (by decide) (by decide) (by decide)]
    decide
  · exact ⟨Or.inl rfl, Or.inr (Or.inl (by decide))⟩

end Installer

end Reuse

section Directories

theorem segmentChar_eq_dot_iff (c : Char) : segmentChar c = '.' ↔ c = '.' := by
  constructor
  · intro h
    unfold segmentChar at h
    split at h
    · exact h
    · exact absurd h (by decide)
  · rintro rfl
    decide

/-- Dots come from dots only. -/
theorem map_segmentChar_eq_iff : ∀ {dots s : List Char}, (∀ c ∈ dots, c = '.') →
    (s.map segmentChar = dots ↔ s = dots)
  | [], s, _ => by simp
  | d :: dots, [], _ => by simp
  | d :: dots, c :: s, h => by
    obtain ⟨rfl, hdots⟩ := List.forall_mem_cons.mp h
    rw [List.map_cons, List.cons_eq_cons, List.cons_eq_cons, segmentChar_eq_dot_iff,
      map_segmentChar_eq_iff hdots]

theorem pathSegment_eq_iff {dots : String} {n : Nat} (hdots : dots.toList = List.replicate n '.')
    (hne : dots ≠ "") : pathSegment version = dots ↔ Text.trim version = dots := by
  have honly : ∀ c ∈ dots.toList, c = '.' := by
    intro c hc
    exact List.eq_of_mem_replicate (hdots ▸ hc)
  rw [← String.toList_inj, toList_pathSegment]
  split
  · rename_i hempty
    rw [hempty]
    refine iff_of_false ?_ (Ne.symm hne)
    intro hhead
    exact absurd (honly 'h' (hhead ▸ by decide)) (by decide)
  · rw [map_segmentChar_eq_iff honly, String.toList_inj]

/-- A version names a directory by a single component, which leads down unless the version is one
of the two that mean a directory already. The checkout is then a child of the directory for its
package. -/
theorem checkout_beneath (cache name version : String) :
    Path.IsName (pathSegment version) ∧
    (pathSegment version = "." ↔ Text.trim version = ".") ∧
    (pathSegment version = ".." ↔ Text.trim version = "..") ∧
    (Text.trim version ≠ "." → Text.trim version ≠ ".." →
      Path.parent (checkoutDirectory cache name version) =
        Path.join [cache, "pkg", "src", canonicalName name] ∧
      Path.name (checkoutDirectory cache name version) = pathSegment version) := by
  have hname := isName_pathSegment version
  have hdot : pathSegment version = "." ↔ Text.trim version = "." :=
    pathSegment_eq_iff (n := 1) (by decide) (by decide)
  have hdots : pathSegment version = ".." ↔ Text.trim version = ".." :=
    pathSegment_eq_iff (n := 2) (by decide) (by decide)
  refine ⟨hname, hdot, hdots, fun hstay hup => ?_⟩
  -- the directory is below another one, so its name is that of the version
  have hsome : [cache, "pkg", "src", canonicalName name].filter (· ≠ "") ≠ [] := by
    refine List.ne_nil_of_mem (a := "pkg") (List.mem_filter.mpr ⟨?_, by decide⟩)
    simp
  have hdown : pathSegment version ≠ "." ∧ pathSegment version ≠ ".." :=
    ⟨fun h => hstay (hdot.mp h), fun h => hup (hdots.mp h)⟩
  have hchild : checkoutDirectory cache name version =
      Path.join ([cache, "pkg", "src", canonicalName name] ++ [pathSegment version]) := rfl
  rw [hchild]
  exact Path.parent_join_concat hsome hname hdown

theorem checkout_beneath_tag :
    Text.trim " feat/x@1" ≠ "." ∧ Text.trim " feat/x@1" ≠ ".." ∧
      Path.parent (checkoutDirectory "/c" "my-lib" " feat/x@1") =
        Path.join ["/c", "pkg", "src", "my_lib"] ∧
      Path.name (checkoutDirectory "/c" "my-lib" " feat/x@1") = "feat_x_1" := by
  have hstay : Text.trim " feat/x@1" ≠ "." := by decide
  have hup : Text.trim " feat/x@1" ≠ ".." := by decide
  obtain ⟨hparent, hname⟩ := (checkout_beneath "/c" "my-lib" " feat/x@1").2.2.2 hstay hup
  exact ⟨hstay, hup, hparent, hname⟩

end Directories

section Apart

theorem isSegmentChar_of_hexValue? {c : Char} (h : (Text.hexValue? c).isSome = true) :
    isSegmentChar c = true := by
  suffices hkind : Text.isLetter c = true ∨ Text.isDigit c = true by
    rw [isSegmentChar]
    rcases hkind with hkind | hkind <;> simp [hkind]
  unfold Text.hexValue? at h
  dsimp only at h
  unfold Text.toLower at h
  split at h
  · rename_i hcapital
    exact Or.inl (by simp [Text.isLetter, hcapital])
  · split at h
    · rename_i hdigit
      exact Or.inr hdigit
    · split at h
      · rename_i hsmall
        obtain ⟨ha, hf⟩ := Bool.and_eq_true_iff.mp hsmall
        have hz : c ≤ 'z' := Char.le_trans (of_decide_eq_true hf) (by decide)
        exact Or.inl (by simp [Text.isLetter, of_decide_eq_true ha, hz])
      · cases h

theorem IsCommit.map_segmentChar (h : IsCommit commit) :
    commit.toList.map segmentChar = commit.toList := by
  refine (List.map_congr_left fun c hc => ?_).trans (List.map_id _)
  exact if_pos (isSegmentChar_of_hexValue? (h.digits c hc))

/-- What the name of a checkout has before the commit: nothing for a pin without a descriptor of its
own, else the descriptor as far as a name can hold it. -/
def label (descriptor commit : String) : List Char :=
  if Text.trim descriptor = "" ∨ Text.trim descriptor = commit then []
  else (Text.trim descriptor).toList.map segmentChar ++ ['_']

/-- A descriptor that is joined with a commit leaves no white space at the ends. -/
theorem trim_joined (h : IsCommit commit) (hne : Text.trim descriptor ≠ "") :
    Text.trim (Text.trim descriptor ++ "@" ++ commit) = Text.trim descriptor ++ "@" ++ commit := by
  have hfront : (Text.trim descriptor).toList ≠ [] := by simpa using hne
  have hback : commit.toList ≠ [] := by simpa using h.ne_empty
  refine Text.trim_eq_self (fun c hc => ?_) fun c hc => ?_
  · rw [String.append_assoc, String.toList_append, List.head?_append_of_ne_nil _ hfront] at hc
    exact Text.head?_of_trim_eq (Text.trim_trim descriptor) c hc
  · rw [String.toList_append, List.getLast?_append_of_ne_nil _ hback] at hc
    exact h.solid c (List.mem_of_getLast? hc)

/-- The name of a checkout ends in the commit. -/
theorem toList_pathSegment_pinnedVersion (h : IsCommit commit) (descriptor : String) :
    (pathSegment (pinnedVersion descriptor commit)).toList =
      label descriptor commit ++ commit.toList := by
  rw [pinnedVersion_of_isCommit h, label, toList_pathSegment]
  split
  · rw [h.trim_eq, if_neg h.ne_empty, h.map_segmentChar]
    rfl
  · rename_i hbare
    have hne : Text.trim descriptor ≠ "" := fun hempty => hbare (Or.inl hempty)
    have hjoined : Text.trim descriptor ++ "@" ++ commit ≠ "" := by simp [hne]
    rw [trim_joined h hne, if_neg hjoined, String.toList_append, String.toList_append,
      List.map_append, List.map_append, h.map_segmentChar]
    rfl

theorem pathSegment_pinnedVersion_leadsDown (h : IsCommit commit) (descriptor : String) :
    pathSegment (pinnedVersion descriptor commit) ≠ "." ∧
      pathSegment (pinnedVersion descriptor commit) ≠ ".." := by
  have hlength : 40 ≤ (pathSegment (pinnedVersion descriptor commit)).toList.length := by
    rw [toList_pathSegment_pinnedVersion h, List.length_append, h.length]
    exact Nat.le_add_left _ _
  refine ⟨fun hdot => ?_, fun hdots => ?_⟩
  · rw [hdot] at hlength
    exact absurd hlength (by decide)
  · rw [hdots] at hlength
    exact absurd hlength (by decide)

/-- The last name of the directory of a checkout is the one that is made of its version, unless that
leads nowhere or up. -/
theorem name_checkoutDirectory (cache name : String)
    (hdown : pathSegment version ≠ "." ∧ pathSegment version ≠ "..") :
    Path.name (checkoutDirectory cache name version) = pathSegment version := by
  have hsome : [cache, "pkg", "src", canonicalName name].filter (· ≠ "") ≠ [] := by
    refine List.ne_nil_of_mem (a := "pkg") (List.mem_filter.mpr ⟨?_, by decide⟩)
    simp
  exact (Path.parent_join_concat hsome (isName_pathSegment version) hdown).2

/-- Two pins name their checkouts alike only if they are for the same commit, and then exactly if the
names open alike. So the cache has no directory for two commits, whatever the pins, the packages and
the places of the caches are. -/
theorem checkouts_apart (hcommit : IsCommit commit) (hcommit' : IsCommit commit')
    (descriptor descriptor' : String) :
    (pathSegment (pinnedVersion descriptor commit) =
        pathSegment (pinnedVersion descriptor' commit') ↔
      commit = commit' ∧ label descriptor commit = label descriptor' commit') ∧
    ∀ cache cache' name name', checkoutDirectory cache name (pinnedVersion descriptor commit) =
      checkoutDirectory cache' name' (pinnedVersion descriptor' commit') → commit = commit' := by
  have hsegment : pathSegment (pinnedVersion descriptor commit) =
      pathSegment (pinnedVersion descriptor' commit') ↔
        commit = commit' ∧ label descriptor commit = label descriptor' commit' := by
    rw [← String.toList_inj, toList_pathSegment_pinnedVersion hcommit,
      toList_pathSegment_pinnedVersion hcommit']
    constructor
    -- commits are equally long, so equal versions end in the same commit
    · intro h
      have hparts := List.append_inj' h (hcommit.length.trans hcommit'.length.symm)
      exact ⟨String.toList_inj.mp hparts.2, hparts.1⟩
    · rintro ⟨rfl, hlabel⟩
      rw [hlabel]
  refine ⟨hsegment, fun cache cache' name name' h => ?_⟩
  have hname := congrArg Path.name h
  rw [name_checkoutDirectory cache name (pathSegment_pinnedVersion_leadsDown hcommit descriptor),
    name_checkoutDirectory cache' name' (pathSegment_pinnedVersion_leadsDown hcommit' descriptor')]
    at hname
  exact (hsegment.mp hname).1

theorem checkouts_apart_branches :
    let commit := "0123456789abcdef0123456789abcdef01234567"
    let commit' := "0123456789abcdef0123456789abcdef01234568"
    IsCommit commit ∧ IsCommit commit' ∧
      pathSegment (pinnedVersion "feat/x" commit) = pathSegment (pinnedVersion "feat_x" commit) ∧
      pathSegment (pinnedVersion "feat/x" commit) ≠ pathSegment (pinnedVersion "feat_x" commit') ∧
      checkoutDirectory "/c" "lib" (pinnedVersion commit' commit) ≠
        checkoutDirectory "/c" "lib" (pinnedVersion "" commit') := by
  intro commit commit'
  have hcommit : IsCommit commit := ⟨by decide, List.all_eq_true.mp (by decide)⟩
  have hcommit' : IsCommit commit' := ⟨by decide, List.all_eq_true.mp (by decide)⟩
  refine ⟨hcommit, hcommit', ?_, fun h => ?_, fun h => ?_⟩
  · exact (checkouts_apart hcommit hcommit "feat/x" "feat_x").1.mpr ⟨rfl, by decide⟩
  · have hsame := ((checkouts_apart hcommit hcommit' "feat/x" "feat_x").1.mp h).1
    exact absurd hsame (by decide)
  · have hsame := (checkouts_apart hcommit hcommit' commit' "").2 "/c" "/c" "lib" "lib" h
    exact absurd hsame (by decide)

end Apart

end ScriptKit.Package
