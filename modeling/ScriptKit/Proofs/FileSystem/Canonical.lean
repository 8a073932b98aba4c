import ScriptKit.Proofs.FileSystem.Written

namespace ScriptKit.Path

variable {p n : String} {names : List String}

/-- A path that is joined to one from the root on begins there and has the names of both. -/
theorem exists_joined (h : isAbsolute p = true) (q : String) : ∃ text : String,
    join [p, q] = clean text ∧ isAbsolute text = true ∧
      components text = components p ++ components q := by
  have hp : p ≠ "" := by
    rintro rfl
    exact absurd h (by decide)
  by_cases hq : q = ""
  · refine ⟨p, ?_, h, ?_⟩
    · simp [join, hp, hq]
    · rw [hq]
      exact (List.append_nil _).symm
  · refine ⟨p ++ "/" ++ q, ?_, ?_, components_append p q⟩
    · simp [join, hp, hq, String.intercalate_cons_cons]
    · rw [String.append_assoc, isAbsolute_append hp, h]

theorem steps_join (h : isAbsolute p = true) (q : String) :
    steps (join [p, q]) = ((components p ++ components q).foldl (step true) []).reverse := by
  obtain ⟨text, hjoin, habs, hnames⟩ := exists_joined h q
  rw [hjoin, steps_clean, steps, habs, hnames]

/-- A path from the root on that says nothing twice: the one name by which a place goes. -/
structure Canonical (p : String) : Prop where
  rooted : isAbsolute p = true
  clean : clean p = p

namespace Canonical

theorem of_clean (h : isAbsolute p = true) : Canonical (Path.clean p) :=
  ⟨(isAbsolute_clean p).trans h, clean_clean p⟩

theorem join (h : isAbsolute p = true) (q : String) : Canonical (Path.join [p, q]) := by
  obtain ⟨text, hjoin, habs, -⟩ := exists_joined h q
  exact hjoin ▸ of_clean habs

theorem eq_rooted (h : Canonical p) : p = Path.rooted (steps p) := by
  rw [← clean_of_isAbsolute h.rooted, h.clean]

/-- The names of such a path lead down. -/
theorem leadsDown (h : Canonical p) : ∀ n ∈ steps p, FileSystem.LeadsDown n := by
  have hshort := shortest_steps p
  rw [h.rooted] at hshort
  exact fun n hn => hshort.leadsDown n (List.mem_reverse.mpr hn)

theorem of_names (h : ∀ n ∈ names, IsName n ∧ FileSystem.LeadsDown n) :
    Canonical (Path.rooted names) := by
  have hshort : Shortest true names.reverse :=
    shortest_of_leadsDown fun n hn => (h n (List.mem_reverse.mp hn)).2
  have hsteps : steps (ofSteps true names) = names := steps_ofSteps (fun n hn => (h n hn).1) hshort
  change steps (Path.rooted names) = names at hsteps
  refine ⟨isAbsolute_rooted names, ?_⟩
  rw [clean_of_isAbsolute (isAbsolute_rooted names), hsteps]

theorem parent (h : Canonical p) : Canonical (Path.parent p) := by
  have hnames := isName_of_mem_steps p
  have hdown := h.leadsDown
  have heq := h.eq_rooted
  rcases List.eq_nil_or_concat' (steps p) with hnil | ⟨init, last, hconcat⟩
  · rw [heq, hnil]
    exact ⟨by decide, by decide⟩
  · rw [hconcat] at hnames hdown heq
    have hinit : ∀ n ∈ init, IsName n ∧ FileSystem.LeadsDown n := fun n hn =>
      ⟨hnames n (List.mem_append_left _ hn), hdown n (List.mem_append_left _ hn)⟩
    have hshort : Shortest true init.reverse :=
      shortest_of_leadsDown fun n hn => (hinit n (List.mem_reverse.mp hn)).2
    rw [heq, parent_rooted (fun n hn => (hinit n hn).1) hshort (hnames last (by simp))]
    exact of_names hinit

/-- Behind the last name there is room for an ending. -/
theorem append_ending (h : Canonical p) {ending : String} (hslash : '/' ∉ ending.toList)
    (hlong : 2 < ending.toList.length) : Canonical (p ++ ending) := by
  -- the ending makes a name too long to be one of the two that do not lead down
  have hname : ∀ n, '/' ∉ n.toList → IsName (n ++ ending) ∧ FileSystem.LeadsDown (n ++ ending) := by
    intro n hn
    have hlength : 2 < (n ++ ending).toList.length := by
      rw [String.toList_append, List.length_append]
      omega
    refine ⟨⟨?_, ?_⟩, ?_, ?_⟩
    · intro hempty
      rw [hempty] at hlength
      exact absurd hlength (by decide)
    · rw [String.toList_append, List.mem_append]
      exact not_or.mpr ⟨hn, hslash⟩
    · intro hdot
      rw [hdot] at hlength
      exact absurd hlength (by decide)
    · intro hdots
      rw [hdots] at hlength
      exact absurd hlength (by decide)
  have hnames := isName_of_mem_steps p
  have hdown := h.leadsDown
  have heq := h.eq_rooted
  -- without a name the ending is the name; otherwise it makes the last name longer
  rcases List.eq_nil_or_concat' (steps p) with hnil | ⟨init, last, hconcat⟩
  · have hroot : p ++ ending = Path.rooted ["" ++ ending] := by
      rw [heq, hnil, rooted_singleton, String.empty_append]
      rfl
    rw [hroot]
    exact of_names (by simpa using hname "" (by decide))
  · rw [hconcat] at hnames hdown heq
    have hlast := hnames last (by simp)
    have hlonger : p ++ ending = Path.rooted (init ++ [last ++ ending]) := by
      rw [heq]
      cases init with
      | nil => simp [String.append_assoc]
      | cons n init =>
        rw [rooted_concat (List.cons_ne_nil n init), rooted_concat (List.cons_ne_nil n init),
          String.append_assoc]
    rw [hlonger]
    refine of_names fun n hn => ?_
    rcases List.mem_append.mp hn with hn | hn
    · exact ⟨hnames n (List.mem_append_left _ hn), hdown n (List.mem_append_left _ hn)⟩
    · rw [List.mem_singleton.mp hn]
      exact hname last hlast.2

end Canonical

end ScriptKit.Path

namespace ScriptKit.FileSystem

/-- Names that lead from one entry to another: each is followed in the directory that has been
reached. The names that lead to the two from the root are given last first. -/
inductive Leads (fs : FileSystem) :
    List String → Entry → List String → List String → Entry → Prop
  | here {taken e} : Leads fs taken e [] taken e
  | stay {taken rest place e} (h : Leads fs taken .directory rest place e) :
    Leads fs taken .directory ("." :: rest) place e
  | up {taken rest place e} (h : Leads fs (taken.drop 1) .directory rest place e) :
    Leads fs taken .directory (".." :: rest) place e
  | down {taken n rest entry place e} (hdown : LeadsDown n)
    (hlong : n.utf8ByteSize ≤ maxNameLength)
    (hentry : fs.entries.find? (Path.rooted (n :: taken).reverse) = some entry)
    (h : Leads fs (n :: taken) entry rest place e) : Leads fs taken .directory (n :: rest) place e

variable {fs : FileSystem} {p q n : String} {taken names place : List String}
  {entry e : Entry}

section Leading

theorem leads_of_follow : ∀ {names taken : List String} {entry : Entry},
    fs.follow taken entry names = .ok e → ∃ place, fs.Leads taken entry names place e
  | [], taken, _, h => by
    cases h
    exact ⟨taken, .here⟩
  | _ :: _, _, .file _, h => by cases h
  | n :: names, taken, .directory, h => by
    rcases leadsDown_or n with hdown | rfl | rfl
    · rw [follow_cons hdown] at h
      split at h
      · cases h
      · rename_i hlong
        cases hentry : fs.entries.find? (Path.rooted (n :: taken).reverse) with
        | none =>
          rw [hentry] at h
          cases h
        | some entry =>
          rw [hentry] at h
          obtain ⟨place, hrest⟩ := leads_of_follow h
          exact ⟨place, .down hdown (Nat.not_lt.mp hlong) hentry hrest⟩
    · have hfollow : fs.follow taken .directory names = .ok e := h
      obtain ⟨place, hrest⟩ := leads_of_follow hfollow
      exact ⟨place, .stay hrest⟩
    · have hfollow : fs.follow (taken.drop 1) .directory names = .ok e := h
      obtain ⟨place, hrest⟩ := leads_of_follow hfollow
      exact ⟨place, .up hrest⟩

theorem Leads.follow (h : fs.Leads taken entry names place e) :
    fs.follow taken entry names = .ok e := by
  induction h with
  | here => rfl
  | stay _ ih => exact ih
  | up _ ih => exact ih
  | down hdown hlong hentry _ ih =>
    rw [follow_cons hdown, if_neg (Nat.not_lt.mpr hlong), hentry]
    exact ih

/-- Names can be followed exactly if they lead somewhere. -/
theorem follow_eq_ok_iff :
    fs.follow taken entry names = .ok e ↔ ∃ place, fs.Leads taken entry names place e :=
  ⟨leads_of_follow, fun ⟨_, h⟩ => h.follow⟩

/-- Where names lead to is told by the names alone, since every step up goes to the directory that
the last step down came from. -/
theorem Leads.place_eq (h : fs.Leads taken entry names place e)
    (htaken : ∀ n ∈ taken, LeadsDown n) : place = names.foldl (Path.step true) taken := by
  induction h with
  | here => rfl
  | stay _ ih => exact ih htaken
  | @up taken _ _ _ _ ih =>
    have hstep : Path.step true taken ".." = taken.drop 1 := by
      cases taken with
      | nil => rfl
      | cons last before => exact Path.step_up (htaken last List.mem_cons_self).2 true before
    rw [List.foldl_cons, hstep]
    exact ih fun n hn => htaken n (List.mem_of_mem_drop hn)
  | @down taken n _ _ _ _ hdown _ _ _ ih =>
    rw [List.foldl_cons, Path.step_of_down hdown]
    exact ih (List.forall_mem_cons.mpr ⟨hdown, htaken⟩)

end Leading

section Same

/-- Two paths under which the same file or directory is found: both can be followed, and lead to the
same place. -/
def SameEntry (fs : FileSystem) (p q : String) : Prop :=
  fs.Has p ∧ fs.Has q ∧ ∃ place e, fs.Leads [] .directory (fs.wayTo p) place e ∧
    fs.Leads [] .directory (fs.wayTo q) place e

/-- The way to a path is that to its absolute one, but for detours. -/
theorem foldl_wayTo (hrooted : fs.IsRooted) (p : String) :
    (fs.wayTo p).foldl (Path.step true) [] = (Path.steps (fs.absolute p)).reverse := by
  rw [wayTo, absolute, Path.absolute]
  split
  · rename_i habs
    rw [foldl_step_namesOf, Path.steps_clean, Path.steps, habs, List.reverse_reverse]
  · rw [Path.steps_join hrooted, List.reverse_reverse, List.foldl_append, List.foldl_append,
      foldl_step_namesOf]

theorem canonical_absolute (hrooted : fs.IsRooted) (p : String) :
    Path.Canonical (fs.absolute p) :=
  ⟨isAbsolute_absolute hrooted p, clean_absolute hrooted p⟩

/-- What a path leads to is at the end of the steps of its absolute path. -/
theorem exists_leads_of_has (hrooted : fs.IsRooted) (hp : fs.Has p) :
    ∃ e, fs.Leads [] .directory (fs.wayTo p) (Path.steps (fs.absolute p)).reverse e ∧
      fs.follow [] .directory (Path.steps (fs.absolute p)) = .ok e := by
  obtain ⟨e, he⟩ := hp
  have hfollow := (find_eq_ok_iff.mp he).2.2.2
  obtain ⟨place, hleads⟩ := follow_eq_ok_iff.mp hfollow
  have hplace := hleads.place_eq (by simp)
  have hlead := (leadTo_nil.foldl_step hfollow).2
  rw [foldl_wayTo hrooted] at hplace hlead
  rw [List.reverse_reverse] at hlead
  exact ⟨e, hplace ▸ hleads, hlead⟩

/-- Two spellings are for the same entry exactly if their absolute paths are the same. -/
theorem sameEntry_iff (hrooted : fs.IsRooted) (hp : fs.Has p) (hq : fs.Has q) :
    fs.SameEntry p q ↔ fs.absolute p = fs.absolute q := by
  constructor
  · rintro ⟨-, -, place, e, hpe, hqe⟩
    have hsteps := (hpe.place_eq (by simp)).symm.trans (hqe.place_eq (by simp))
    rw [foldl_wayTo hrooted, foldl_wayTo hrooted, List.reverse_inj] at hsteps
    rw [(canonical_absolute hrooted p).eq_rooted, (canonical_absolute hrooted q).eq_rooted, hsteps]
  · intro h
    obtain ⟨e, hpe, hfollow⟩ := exists_leads_of_has hrooted hp
    obtain ⟨e', hqe, hfollow'⟩ := exists_leads_of_has hrooted hq
    rw [h] at hpe hfollow
    obtain rfl : e = e' := Except.ok.inj (hfollow.symm.trans hfollow')
    exact ⟨hp, hq, _, e, hpe, hqe⟩

end Same

end ScriptKit.FileSystem
