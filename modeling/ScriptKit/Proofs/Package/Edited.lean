import ScriptKit.Proofs.Package.Locked

namespace ScriptKit.Package

@[simp] theorem LockedPackage.name_normalised (p : LockedPackage) :
    p.normalised.name = canonicalName p.name := rfl

namespace Lockfile

variable {l : Lockfile} {p : LockedPackage} {m n : String} {ps : List LockedPackage}

instance : DecidablePred IsCanonical :=
  fun name => inferInstanceAs (Decidable (canonicalName name = name))

/-- A lockfile has room for a package that is new there, and for one with its name as it is
known. -/
def Admits (l : Lockfile) (p : LockedPackage) : Prop :=
  (l.find? p.name).isSome = true → IsCanonical p.name

section Upsert

/-- A package that takes the place of another one under a different name leaves the others as they
were. -/
theorem find?_replaceFirst_of_ne (hp : p.name ≠ m) (hn : n ≠ m) :
    (replaceFirst n p ps).find? (fun q => q.name = m) = ps.find? fun q => q.name = m := by
  induction ps with
  | nil => rfl
  | cons q ps ih =>
    rw [replaceFirst]
    split
    · rename_i hq
      have hqm : q.name ≠ m := hq ▸ hn
      rw [List.find?_cons_of_neg (by simpa using hp), List.find?_cons_of_neg (by simpa using hqm)]
    · by_cases hqm : q.name = m
      · rw [List.find?_cons_of_pos (by simpa using hqm),
          List.find?_cons_of_pos (by simpa using hqm)]
      · rw [List.find?_cons_of_neg (by simpa using hqm),
          List.find?_cons_of_neg (by simpa using hqm), ih]

/-- Its own place is not found any more then. -/
theorem find?_replaceFirst_eq_none (hp : p.name ≠ n) (h : (ps.map (·.name)).Nodup) :
    (replaceFirst n p ps).find? (fun q => q.name = n) = none := by
  induction ps with
  | nil => rfl
  | cons q ps ih =>
    obtain ⟨hq, hps⟩ := List.nodup_cons.mp h
    rw [replaceFirst]
    split
    · rename_i hqn
      rw [List.find?_cons_of_neg (by simpa using hp), List.find?_eq_none]
      intro r hr
      have hrn : r.name ≠ n := by
        intro hrn
        have hmem : r.name ∈ ps.map (·.name) := List.mem_map_of_mem hr
        rw [hrn, ← hqn] at hmem
        exact hq hmem
      simpa using hrn
    · rename_i hqn
      rw [List.find?_cons_of_neg (by simpa using hqn), ih hps]

/-- A package that is new is put in as it is written after it was normalised. -/
theorem upsert_of_find?_eq_none (h : l.find? p.name = none) :
    l.upsert p = l.upsert p.normalised := by
  have hname : l.find? p.normalised.name = none :=
    (find?_congr (canonicalName_canonicalName p.name)).trans h
  have hsame : ({ l with packages := l.packages ++ [p] } : Lockfile).normalised =
      ({ l with packages := l.packages ++ [p.normalised] } : Lockfile).normalised := by
    simp only [normalised, List.map_append, List.map_singleton, LockedPackage.normalised_normalised]
  rw [upsert, upsert, h, hname]
  dsimp only
  rw [hsame]

/-- What is found after a package was put in: the package, if there is room for it, and under other
names what was found before. A package that is new brings everything into its normal form. -/
theorem InOrder.find?_upsert_eq (h : l.InOrder) (p : LockedPackage) (n : String) :
    (l.upsert p).1.find? n =
      if (l.find? p.name).isSome then
        if canonicalName n = canonicalName p.name then if IsCanonical p.name then some p else none
        else l.find? n
      else
        (if canonicalName n = canonicalName p.name then some p else l.find? n).map
          LockedPackage.normalised := by
  have htwice : p.normalised.normalised = p.normalised := LockedPackage.normalised_normalised p
  cases hfind : l.find? p.name with
  | none =>
    have hknown : IsCanonical p.normalised.name := isCanonical_canonicalName p.name
    have hname : l.find? p.normalised.name = none :=
      (find?_congr (canonicalName_canonicalName p.name)).trans hfind
    rw [upsert_of_find?_eq_none hfind, h.canonical.find?_upsert hknown, hname,
      LockedPackage.name_normalised]
    simp only [Option.isSome_none, Bool.false_eq_true, if_false]
    split
    · rw [Option.map_some, Option.map_some, htwice]
    · rfl
  | some existing =>
    by_cases hp : IsCanonical p.name
    · have hcanonical : canonicalName p.name = p.name := hp
      rw [h.canonical.find?_upsert hp, hfind, hcanonical]
      simp [hp]
    · -- the entry there has the name as it is known, so that it differs from the package
      have hother : p.name ≠ canonicalName p.name := fun he => hp he.symm
      have hne : existing ≠ p := by
        rintro rfl
        exact hother (find?_spec hfind).2
      have hreplaced : (l.upsert p).1 =
          { l with packages := replaceFirst (canonicalName p.name) p l.packages } := by
        rw [Lockfile.upsert, hfind]
        dsimp only
        rw [if_neg hne]
      rw [hreplaced, Option.isSome_some, if_pos rfl, if_neg hp, find?]
      dsimp only
      split
      · rename_i hn
        rw [hn]
        exact find?_replaceFirst_eq_none hother h.nodup
      · rename_i hn
        refine find?_replaceFirst_of_ne ?_ (Ne.symm hn)
        intro he
        exact hother (by rw [he, canonicalName_canonicalName])

theorem InOrder.find?_upsert_self (h : l.InOrder) (p : LockedPackage) :
    (l.upsert p).1.find? p.name =
      if (l.find? p.name).isSome then if IsCanonical p.name then some p else none
      else some p.normalised := by
  rw [h.find?_upsert_eq]
  simp only [if_true, Option.map_some]

theorem InOrder.find?_upsert_of_ne (h : l.InOrder)
    (hn : canonicalName n ≠ canonicalName p.name) :
    (l.upsert p).1.find? n = if (l.find? p.name).isSome then l.find? n
      else (l.find? n).map LockedPackage.normalised := by
  rw [h.find?_upsert_eq]
  simp only [hn, if_false]

theorem InOrder.upsert_of_admits (h : l.InOrder) (hp : l.Admits p) : (l.upsert p).1.InOrder := by
  cases hfind : l.find? p.name with
  | none =>
    rw [upsert_of_find?_eq_none hfind]
    exact h.upsert (isCanonical_canonicalName p.name)
  | some existing => exact h.upsert (hp (hfind ▸ rfl))

end Upsert

section Edits

/-- A change to the packages of a lockfile. -/
inductive Edit
  | upsert (p : LockedPackage)
  | prune (keep : List String)

def Edit.apply (l : Lockfile) : Edit → Lockfile
  | upsert p => (l.upsert p).1
  | prune keep => (l.prune keep).1

/-- A lockfile after changes were made one after the other. -/
def after (l : Lockfile) (edits : List Edit) : Lockfile :=
  edits.foldl Edit.apply l

/-- Every package that is put in along the way finds room. -/
def AdmitsAll : Lockfile → List Edit → Prop
  | _, [] => True
  | l, .upsert p :: edits => l.Admits p ∧ AdmitsAll (l.upsert p).1 edits
  | l, .prune keep :: edits => AdmitsAll (l.prune keep).1 edits

theorem InOrder.after : ∀ {edits : List Edit} {l : Lockfile}, l.InOrder → l.AdmitsAll edits →
    (l.after edits).InOrder
  | [], _, h, _ => h
  | .upsert p :: _, l, h, hp =>
    InOrder.after (l := (l.upsert p).1) (h.upsert_of_admits hp.1) hp.2
  | .prune keep :: _, l, h, hp => InOrder.after (l := (l.prune keep).1) (h.prune keep) hp

/-- A lockfile works as a map from names to packages, from a new one on and through any changes, as
long as every package finds room: names stand once and in order, a package that is put in is found
under its name exactly if there is room for it, and others are found as before. -/
theorem edited_is_map (root tool time : String) (edits : List Edit)
    (h : (new root tool time).AdmitsAll edits) :
    let l := (new root tool time).after edits
    (l.names.map canonicalName).Nodup ∧ l.names.Pairwise (· ≤ ·) ∧
      ∀ p : LockedPackage,
        (l.Admits p → ∃ q, (l.upsert p).1.find? p.name = some q ∧ (q = p ∨ q = p.normalised)) ∧
        (¬ l.Admits p → (l.upsert p).1.find? p.name = none) ∧
        ∀ n, canonicalName n ≠ canonicalName p.name →
          (l.upsert p).1.find? n = l.find? n ∨
            (l.upsert p).1.find? n = (l.find? n).map LockedPackage.normalised := by
  intro l
  have horder : l.InOrder := (inOrder_new root tool time).after h
  have hsorted : l.names.Pairwise (· ≤ ·) :=
    horder.sorted.imp fun hlt => String.not_lt.mp (String.lt_asymm hlt)
  -- other names find what they found before, or that normalised
  refine ⟨?_, hsorted, fun p => ⟨fun hp => ?_, fun hp => ?_, fun n hn => ?_⟩⟩
  · rw [map_canonicalName horder.canonical]
    exact horder.nodup
  · rw [horder.find?_upsert_self p]
    split
    · rename_i hsome
      exact ⟨p, if_pos (hp hsome), Or.inl rfl⟩
    · exact ⟨p.normalised, rfl, Or.inr rfl⟩
  · obtain ⟨hsome, hname⟩ := Classical.not_imp.mp hp
    rw [horder.find?_upsert_self p, if_pos hsome, if_neg hname]
  · rw [horder.find?_upsert_of_ne hn]
    split
    · exact Or.inl rfl
    · exact Or.inr rfl

theorem edited_is_map_twoSpellings :
    let edits : List Edit :=
      [.prune [], .upsert ⟨"a-b", "1 ", "s", "c"⟩, .upsert ⟨"a_b", "2", "s", "c"⟩]
    let l := (new "root" "tool" "").after edits
    (new "root" "tool" "").AdmitsAll edits ∧ (l.names.map canonicalName).Nodup ∧
      (∃ q, (l.upsert ⟨"a_b", "3", "t", "d"⟩).1.find? "a_b" = some q) ∧
      (l.upsert ⟨"a-b", "3", "t", "d"⟩).1.find? "a-b" = none := by
  intro edits l
  have hone : (new "root" "tool" "").AdmitsAll
      [.prune [], .upsert ⟨"a-b", "1 ", "s", "c"⟩] :=
    ⟨fun h => absurd h (by decide), trivial⟩
  have hboth : (new "root" "tool" "").AdmitsAll edits :=
    ⟨fun h => absurd h (by decide), fun _ => by decide, trivial⟩
  obtain ⟨-, -, hbefore⟩ := edited_is_map "root" "tool" "" _ hone
  obtain ⟨hnodup, -, hnow⟩ := edited_is_map "root" "tool" "" edits hboth
  obtain ⟨p, hp, -⟩ := (hbefore ⟨"a_b", "2", "s", "c"⟩).1 fun _ => by decide
  obtain ⟨q, hq, -⟩ := (hnow ⟨"a_b", "3", "t", "d"⟩).1 fun _ => by decide
  have hthere : l.find? "a-b" = some p := (find?_congr (by decide)).trans hp
  refine ⟨hboth, hnodup, ⟨q, hq⟩, (hnow ⟨"a-b", "3", "t", "d"⟩).2.1 fun hadmits => ?_⟩
  exact absurd (hadmits (by rw [hthere]; rfl)) (by decide)

end Edits

end Lockfile

end ScriptKit.Package
