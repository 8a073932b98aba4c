import ScriptKit.FileSystem
import ScriptKit.Proofs.FileSystem.Paths
import ScriptKit.Proofs.Value.Names

namespace ScriptKit.FileSystem

variable {fs gs hs : FileSystem} {p : String} {taken down names rest : List String} {e : Entry}

/-- There is a file or directory at a path. -/
def Has (fs : FileSystem) (p : String) : Prop :=
  ∃ e, fs.find p = .ok e

theorem stat_isOk_iff : (fs.stat p).isOk = true ↔ fs.Has p := by
  rw [stat, inspect, Has]
  cases fs.find p <;> simp [fails, Except.isOk, Except.toBool]

theorem has_of_stat (h : fs.stat p = .ok e) : fs.Has p := by
  rw [← stat_isOk_iff, h]
  rfl

theorem find_eq_ok_iff : fs.find p = .ok e ↔ Char.ofNat 0 ∉ p.toList ∧ p ≠ "" ∧
    p.utf8ByteSize ≤ maxPathLength ∧ fs.follow [] .directory (fs.wayTo p) = .ok e := by
  have hnull : p.toList.contains (Char.ofNat 0) = true ↔ Char.ofNat 0 ∈ p.toList :=
    List.contains_iff_mem
  rw [find]
  split
  · simp_all
  · split
    · simp_all
    · split
      · rename_i hlong
        simp [Nat.not_le.mpr hlong]
      · simp_all

section Clean

/-- A name that leads down. -/
def LeadsDown (n : String) : Prop :=
  n ≠ "." ∧ n ≠ ".."

theorem leadsDown_or (n : String) : LeadsDown n ∨ n = "." ∨ n = ".." := by
  by_cases hdot : n = "."
  · exact Or.inr (Or.inl hdot)
  by_cases hup : n = ".."
  · exact Or.inr (Or.inr hup)
  · exact Or.inl ⟨hdot, hup⟩

theorem follow_cons {n : String} (h : LeadsDown n) : fs.follow taken .directory (n :: rest) =
    if maxNameLength < n.utf8ByteSize then .error .nameTooLong
    else (fs.entries.find? (Path.rooted (n :: taken).reverse)).elim (.error .notExist)
      fun entry => fs.follow (n :: taken) entry rest := by
  rw [follow, if_neg h.1, if_neg h.2]
  cases fs.entries.find? (Path.rooted (n :: taken).reverse) <;> rfl

theorem follow_append : ∀ {down taken : List String} {entry : Entry},
    (∀ n ∈ down, LeadsDown n) → fs.follow taken entry (down ++ rest) =
      (fs.follow taken entry down).bind fun e => fs.follow (down.reverse ++ taken) e rest
  | [], _, _, _ => rfl
  | n :: down, taken, .file _, _ => rfl
  | n :: down, taken, .directory, h => by
    obtain ⟨hn, hdown⟩ := List.forall_mem_cons.mp h
    rw [List.cons_append, follow_cons hn, follow_cons hn]
    split
    · rfl
    · cases fs.entries.find? (Path.rooted (n :: taken).reverse) with
      | none => rfl
      | some entry =>
        rw [Option.elim_some, Option.elim_some, follow_append hdown, List.reverse_cons,
          List.append_assoc, List.singleton_append]

/-- The names that led to an entry, last first, lead down to it from the root. -/
def LeadTo (fs : FileSystem) (taken : List String) (e : Entry) : Prop :=
  (∀ n ∈ taken, LeadsDown n) ∧ fs.follow [] .directory taken.reverse = .ok e

theorem leadTo_nil : fs.LeadTo [] .directory :=
  ⟨by simp, rfl⟩

theorem leadTo_concat {n : String} (hn : LeadsDown n) (h : fs.LeadTo taken .directory) :
    fs.LeadTo (n :: taken) e ↔ fs.follow taken .directory [n] = .ok e := by
  have hmore : ∀ m ∈ n :: taken, LeadsDown m := List.forall_mem_cons.mpr ⟨hn, h.1⟩
  have hfollow : fs.follow [] .directory (n :: taken).reverse = fs.follow taken .directory [n] := by
    rw [List.reverse_cons, follow_append fun m hm => h.1 m (List.mem_reverse.mp hm), h.2,
      List.append_nil, List.reverse_reverse]
    rfl
  rw [LeadTo, hfollow]
  exact and_iff_right hmore

/-- The way to an entry leads through directories. -/
theorem LeadTo.up {n : String} (h : fs.LeadTo (n :: taken) e) : fs.LeadTo taken .directory := by
  obtain ⟨hdown, hfollow⟩ := h
  obtain ⟨-, hdown⟩ := List.forall_mem_cons.mp hdown
  rw [List.reverse_cons, follow_append fun m hm => hdown m (List.mem_reverse.mp hm)] at hfollow
  refine ⟨hdown, ?_⟩
  cases h : fs.follow [] .directory taken.reverse with
  | error reason =>
    rw [h] at hfollow
    cases hfollow
  | ok entry =>
    cases entry with
    | directory => rfl
    | file content =>
      rw [h] at hfollow
      cases hfollow

/-- One name along the way: the step that it makes leads to an entry that the rest is followed
from. -/
theorem LeadTo.step {n : String} (h : fs.LeadTo taken .directory)
    (hfollow : fs.follow taken .directory (n :: rest) = .ok e) :
    ∃ entry, fs.LeadTo (Path.step true taken n) entry ∧
      fs.follow (Path.step true taken n) entry rest = .ok e := by
  rcases leadsDown_or n with hdown | rfl | rfl
  · rw [Path.step_of_down hdown]
    rw [follow_cons hdown] at hfollow
    split at hfollow
    · cases hfollow
    · rename_i hlength
      cases hentry : fs.entries.find? (Path.rooted (n :: taken).reverse) with
      | none =>
        rw [hentry] at hfollow
        cases hfollow
      | some entry =>
        rw [hentry] at hfollow
        refine ⟨entry, (leadTo_concat hdown h).mpr ?_, hfollow⟩
        rw [follow_cons hdown, if_neg hlength, hentry]
        rfl
  · exact ⟨.directory, h, hfollow⟩
  · cases taken with
    | nil => exact ⟨.directory, h, hfollow⟩
    | cons last before =>
      -- no name on the way is a step up, so this one takes the last name back
      rw [Path.step_up (h.1 last List.mem_cons_self).2]
      exact ⟨.directory, h.up, hfollow⟩

/-- Following names comes to the place that the steps made of them lead to. -/
theorem LeadTo.foldl_step : ∀ {names taken : List String} {entry : Entry},
    fs.LeadTo taken entry → fs.follow taken entry names = .ok e →
      fs.LeadTo (names.foldl (Path.step true) taken) e
  | [], _, _, h, hfollow => by
    cases hfollow
    exact h
  | _ :: _, _, .file _, _, hfollow => by cases hfollow
  | _ :: _, _, .directory, h, hfollow => by
    obtain ⟨entry, h, hfollow⟩ := h.step hfollow
    rw [List.foldl_cons]
    exact LeadTo.foldl_step h hfollow

/-- That a path asks for a directory does not change where it leads. -/
theorem foldl_step_namesOf (p : String) (taken : List String) :
    (namesOf p).foldl (Path.step true) taken =
      (Path.components p).foldl (Path.step true) taken := by
  rw [namesOf, List.foldl_append]
  split
  · rfl
  · rfl

theorem namesOf_clean (h : Path.isAbsolute p = true) (hne : Path.steps p ≠ []) :
    namesOf (Path.clean p) = Path.steps p := by
  have hnames := Path.isName_of_mem_steps p
  rw [namesOf, Path.clean_of_isAbsolute h, Path.components_rooted hnames,
    if_neg (Path.getLast?_rooted hnames hne), List.append_nil]

/-- What there is at an absolute path is also at the clean one. -/
theorem find_clean (h : Path.isAbsolute p = true) (hfind : fs.find p = .ok e) :
    fs.find (Path.clean p) = .ok e := by
  obtain ⟨hnull, -, hlong, hfollow⟩ := find_eq_ok_iff.mp hfind
  have habs : Path.isAbsolute (Path.clean p) = true := by
    rw [Path.clean_of_isAbsolute h]
    exact Path.isAbsolute_rooted _
  rw [wayTo, if_pos h] at hfollow
  rw [find_eq_ok_iff, wayTo, if_pos habs]
  refine ⟨?_, ?_, Nat.le_trans (Path.utf8ByteSize_clean_le h) hlong, ?_⟩
  · intro hc
    rcases Path.mem_toList_clean h hc with hc | hc
    · exact absurd hc (by decide)
    · exact hnull hc
  · intro hempty
    rw [hempty] at habs
    exact absurd habs (by decide)
  · -- the steps lead down, so following them is reading the clean path name by name
    have hlead := (leadTo_nil.foldl_step hfollow).2
    have hsteps : ((Path.components p).foldl (Path.step true) []).reverse = Path.steps p := by
      rw [Path.steps, h]
    rw [foldl_step_namesOf, hsteps] at hlead
    by_cases hne : Path.steps p = []
    · rw [hne] at hlead
      rw [Path.clean_of_isAbsolute h, hne]
      exact hlead
    · rw [namesOf_clean h hne]
      exact hlead

end Clean

section Lasting

/-- Nothing is taken away between two file systems, but that directories may take the place of
files. -/
structure Lasts (fs gs : FileSystem) : Prop where
  workingDirectory : gs.workingDirectory = fs.workingDirectory
  entries : ∀ {path e}, fs.entries.find? path = some e →
    ∃ e', gs.entries.find? path = some e' ∧ (e = .directory → e' = .directory)

theorem Lasts.refl (fs : FileSystem) : fs.Lasts fs :=
  ⟨rfl, fun h => ⟨_, h, id⟩⟩

theorem Lasts.trans (h : fs.Lasts gs) (h' : gs.Lasts hs) : fs.Lasts hs where
  workingDirectory := h'.workingDirectory.trans h.workingDirectory
  entries he := by
    obtain ⟨e₁, he₁, hdir₁⟩ := h.entries he
    obtain ⟨e₂, he₂, hdir₂⟩ := h'.entries he₁
    exact ⟨e₂, he₂, hdir₂ ∘ hdir₁⟩

theorem Lasts.follow (h : fs.Lasts gs) : ∀ {names taken : List String} {entry entry' e : Entry},
    (entry = .directory → entry' = .directory) → fs.follow taken entry names = .ok e →
      ∃ e', gs.follow taken entry' names = .ok e' ∧ (e = .directory → e' = .directory)
  | [], _, _, entry', _, hdir, hfollow => by
    cases hfollow
    exact ⟨entry', rfl, hdir⟩
  | _ :: _, _, .file _, _, _, _, hfollow => by cases hfollow
  | n :: names, taken, .directory, entry', e, hdir, hfollow => by
    -- a directory is still one, so the way goes on through it as before
    rw [hdir rfl]
    unfold FileSystem.follow at hfollow ⊢
    split at hfollow
    · rename_i hn
      rw [if_pos hn]
      exact h.follow id hfollow
    · rename_i hdot
      rw [if_neg hdot]
      split at hfollow
      · rename_i hn
        rw [if_pos hn]
        exact h.follow id hfollow
      · rename_i hdots
        rw [if_neg hdots]
        split at hfollow
        · cases hfollow
        · rename_i hlong
          rw [if_neg hlong]
          split at hfollow
          · cases hfollow
          · rename_i entry hentry
            obtain ⟨entry', hentry', hdir'⟩ := h.entries hentry
            rw [hentry']
            exact h.follow hdir' hfollow

theorem Lasts.find (h : fs.Lasts gs) (hp : fs.find p = .ok e) :
    ∃ e', gs.find p = .ok e' ∧ (e = .directory → e' = .directory) := by
  obtain ⟨hnull, hne, hlong, hfollow⟩ := find_eq_ok_iff.mp hp
  have hway : gs.wayTo p = fs.wayTo p := by rw [wayTo, wayTo, h.workingDirectory]
  obtain ⟨e', he', hdir⟩ := h.follow id hfollow
  exact ⟨e', find_eq_ok_iff.mpr ⟨hnull, hne, hlong, hway ▸ he'⟩, hdir⟩

theorem Lasts.has (h : fs.Lasts gs) (hp : fs.Has p) : gs.Has p := by
  obtain ⟨e, he⟩ := hp
  obtain ⟨e', he', -⟩ := h.find he
  exact ⟨e', he'⟩

theorem Lasts.find_directory (h : fs.Lasts gs) (hp : fs.find p = .ok .directory) :
    gs.find p = .ok .directory := by
  obtain ⟨e', he', hdir⟩ := h.find hp
  rw [he', hdir rfl]

theorem lasts_put_directory (fs : FileSystem) (p : String) : fs.Lasts (fs.put p .directory) where
  workingDirectory := rfl
  entries {path e} he := by
    rw [put, NameTable.find?_insert]
    split
    · exact ⟨.directory, rfl, fun _ => rfl⟩
    · exact ⟨e, he, id⟩

/-- Making directories takes nothing away. -/
theorem Lasts.of_makeDirectories (h : fs.makeDirectories p = .ok gs) : fs.Lasts gs := by
  unfold makeDirectories at h
  generalize waypoints [] (Path.steps (fs.absolute p)) = places at h
  induction places generalizing fs with
  | nil =>
    cases h
    exact .refl _
  | cons place places ih =>
    rw [List.foldlM_cons] at h
    split at h
    · exact ih h
    · cases h
    · exact (lasts_put_directory _ place).trans (ih h)
    · cases h

end Lasting

end ScriptKit.FileSystem
