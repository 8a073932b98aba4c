import Mathlib.Data.List.Nodup
import ScriptKit.Package.Lockfile
import ScriptKit.Proofs.Package.Names

namespace ScriptKit.Package

theorem eq_ok_of_toOption {ε α : Type} {r : Except ε α} {a : α} (h : r.toOption = some a) :
    r = .ok a := by
  cases r with
  | error e => cases h
  | ok b =>
    cases h
    rfl

@[simp] theorem LockedPackage.normalised_normalised (p : LockedPackage) :
    p.normalised.normalised = p.normalised := by
  simp only [normalised, canonicalName_canonicalName, Text.trim_trim]

namespace Lockfile

variable {l : Lockfile} {p q : LockedPackage} {n : String} {ps : List LockedPackage}

def names (l : Lockfile) : List String :=
  l.packages.map (·.name)

/-- Every package has its name as it is known; a name may stand more than once. -/
def Canonical (l : Lockfile) : Prop :=
  ∀ p ∈ l.packages, IsCanonical p.name

/-- A lockfile in order has its packages sorted by name, each name once and as it is known. -/
structure InOrder (l : Lockfile) : Prop where
  sorted : l.names.Pairwise (· < ·)
  canonical : l.Canonical

theorem packages_normalised_perm (l : Lockfile) :
    l.normalised.packages.Perm (l.packages.map LockedPackage.normalised) :=
  List.mergeSort_perm _ _

theorem mem_normalised : q ∈ l.normalised.packages ↔ ∃ p ∈ l.packages, p.normalised = q := by
  rw [(packages_normalised_perm l).mem_iff, List.mem_map]

theorem names_normalised_perm (l : Lockfile) :
    l.normalised.names.Perm (l.names.map canonicalName) := by
  have hperm := (packages_normalised_perm l).map (·.name)
  rw [List.map_map] at hperm
  rw [names, names, List.map_map]
  exact hperm

theorem canonical_normalised (l : Lockfile) : l.normalised.Canonical := fun q hq => by
  obtain ⟨p, -, rfl⟩ := mem_normalised.mp hq
  exact isCanonical_canonicalName p.name

/-- Normalising brings a lockfile in order if its packages have different names. -/
theorem inOrder_normalised (h : (l.names.map canonicalName).Nodup) : l.normalised.InOrder where
  sorted := by
    have hsorted := Text.pairwise_mergeSort LockedPackage.name
      (l.packages.map LockedPackage.normalised)
    exact Text.pairwise_lt hsorted ((names_normalised_perm l).nodup_iff.mpr h)
  canonical := canonical_normalised l

theorem inOrder_new (root tool time : String) : (new root tool time).InOrder :=
  ⟨List.Pairwise.nil, by simp [new, Canonical]⟩

section Loaded

variable {yaml : Yaml.Codec} {fs : FileSystem} {path : String}

/-- A lockfile that was read is what a document says. -/
theorem exists_decode_of_load (h : load yaml fs path = .ok l) :
    ∃ doc place, decode doc place = .ok l := by
  have hparse : ∀ {place text : String}, parse yaml place text = .ok l →
      ∃ doc place, decode doc place = .ok l := by
    intro place text hp
    unfold parse at hp
    split at hp
    · cases hp
    · cases hp
    · split at hp
      · cases hp
      · rename_i hd
        cases hp
        exact ⟨_, _, hd⟩
  unfold load at h
  split at h
  · cases h
  · dsimp only at h
    split at h
    · exact hparse h
    · split at h
      · cases h
      · cases h

theorem exists_normalised_of_load (h : load yaml fs path = .ok l) :
    ∃ l' : Lockfile, l = l'.normalised := by
  obtain ⟨doc, place, hd⟩ := exists_decode_of_load h
  obtain ⟨found, -, rfl⟩ :=
    Yaml.Decode.Gives.of_map_run (P := fun _ => True) (fun _ _ _ _ => trivial) hd
  exact ⟨_, rfl⟩

theorem canonical_of_load (h : load yaml fs path = .ok l) :
    l.Canonical := by
  obtain ⟨l', rfl⟩ := exists_normalised_of_load h
  exact canonical_normalised l'

/-- A lockfile that was read is in order if its packages have different names. -/
theorem inOrder_of_load (h : load yaml fs path = .ok l)
    (hnodup : l.names.Nodup) : l.InOrder := by
  obtain ⟨l', rfl⟩ := exists_normalised_of_load h
  exact inOrder_normalised ((names_normalised_perm l').nodup_iff.mp hnodup)

end Loaded

section Find

theorem find?_spec (h : l.find? n = some p) : p ∈ l.packages ∧ p.name = canonicalName n :=
  ⟨List.mem_of_find?_eq_some h, by simpa using List.find?_some h⟩

theorem find?_congr {m : String} (h : canonicalName n = canonicalName m) :
    l.find? n = l.find? m := by
  rw [find?, find?, h]

theorem find?_isSome_iff : (l.find? n).isSome = true ↔ canonicalName n ∈ l.names := by
  simp [find?, names]

theorem map_canonicalName (h : l.Canonical) :
    l.names.map canonicalName = l.names := by
  rw [names, List.map_map]
  exact List.map_congr_left h

/-- Normalising changes how a package is written, not which one is the first with a name. -/
theorem find?_normalised (h : l.Canonical) (n : String) :
    l.normalised.find? n = (l.find? n).map LockedPackage.normalised := by
  have hpackages : l.normalised.packages =
      sortPackages (l.packages.map LockedPackage.normalised) := rfl
  have hfilter : l.packages.filter ((fun p => decide (p.name = canonicalName n)) ∘
      LockedPackage.normalised) = l.packages.filter fun p => p.name = canonicalName n := by
    refine List.filter_congr fun p hp => ?_
    have hname : p.normalised.name = p.name := h p hp
    rw [Function.comp_apply, hname]
  rw [find?, hpackages, sortPackages, Text.find?_mergeSort, List.find?_map, find?,
    ← List.head?_filter, hfilter, List.head?_filter]

end Find

section Upsert

theorem names_replaceFirst (h : p.name = n) :
    (replaceFirst n p ps).map (·.name) = ps.map (·.name) := by
  induction ps with
  | nil => rfl
  | cons q ps ih =>
    rw [replaceFirst]
    split
    · rename_i hq
      rw [List.map_cons, List.map_cons, h, hq]
    · rw [List.map_cons, List.map_cons, ih]

theorem mem_replaceFirst (h : q ∈ replaceFirst n p ps) : q = p ∨ q ∈ ps := by
  induction ps with
  | nil => cases h
  | cons r ps ih =>
    rw [replaceFirst] at h
    split at h
    · exact (List.mem_cons.mp h).imp_right (List.mem_cons_of_mem r)
    · rcases List.mem_cons.mp h with rfl | h
      · exact Or.inr List.mem_cons_self
      · exact (ih h).imp_right (List.mem_cons_of_mem r)

theorem find?_replaceFirst (h : p.name = n) (m : String) :
    (replaceFirst n p ps).find? (fun q => q.name = m) =
      if m = n then (ps.find? fun q => q.name = m).map fun _ => p
      else ps.find? fun q => q.name = m := by
  induction ps with
  | nil => simp [replaceFirst]
  | cons q ps ih =>
    rw [replaceFirst]
    by_cases hq : q.name = n
    · by_cases hm : m = n
      · simp [hq, hm, h]
      · simp [hq, hm, h, Ne.symm hm]
    · by_cases hm : m = n
      · subst hm
        simp [hq, ih]
      · by_cases hqm : q.name = m
        · simp [hm, hqm]
        · simp [hq, hm, hqm, ih]

theorem find?_concat (l : Lockfile) (p : LockedPackage) (n : String) :
    { l with packages := l.packages ++ [p] }.find? n =
      (l.find? n).or (if p.name = canonicalName n then some p else none) := by
  rw [find?, List.find?_append, List.find?_singleton]
  simp [find?]

theorem names_concat (l : Lockfile) (p : LockedPackage) :
    { l with packages := l.packages ++ [p] }.names = l.names ++ [p.name] :=
  List.map_append

theorem Canonical.concat (h : l.Canonical) (hp : IsCanonical p.name) :
    Canonical { l with packages := l.packages ++ [p] } := by
  intro q hq
  rcases List.mem_append.mp hq with hq | hq
  · exact h q hq
  · rw [List.mem_singleton.mp hq]
    exact hp

theorem InOrder.nodup (h : l.InOrder) : l.names.Nodup :=
  Text.nodup_of_pairwise_lt h.sorted

theorem InOrder.nodup_concat (h : l.InOrder) (hp : IsCanonical p.name)
    (hnone : l.find? p.name = none) : (l.names ++ [p.name]).Nodup := by
  refine List.nodup_append.mpr ⟨h.nodup, by simp, ?_⟩
  rintro n hn _ hm rfl
  have hsome : (l.find? p.name).isSome = true := by
    rw [find?_isSome_iff, (hp : canonicalName p.name = p.name), ← List.mem_singleton.mp hm]
    exact hn
  rw [hnone] at hsome
  cases hsome

/-- A package that is found is in place. -/
theorem upsert_of_find? (h : l.find? n = some p) : l.upsert p = (l, false) := by
  have hname : canonicalName p.name = canonicalName n := by
    rw [(find?_spec h).2, canonicalName_canonicalName]
  rw [upsert, find?_congr hname, h]
  exact if_pos rfl

theorem Canonical.upsert (h : l.Canonical) (hp : IsCanonical p.name) :
    (l.upsert p).1.Canonical := by
  unfold Lockfile.upsert
  split
  · split
    · exact h
    · intro q hq
      rcases mem_replaceFirst hq with rfl | hq
      · exact hp
      · exact h q hq
  · exact canonical_normalised _

/-- Putting a package in place keeps a lockfile in order. -/
theorem InOrder.upsert (h : l.InOrder) (hp : IsCanonical p.name) : (l.upsert p).1.InOrder := by
  refine ⟨?_, h.canonical.upsert hp⟩
  unfold Lockfile.upsert
  split
  · split
    · exact h.sorted
    · rw [names, names_replaceFirst hp.symm]
      exact h.sorted
  · rename_i hnone
    refine (inOrder_normalised ?_).sorted
    rw [map_canonicalName (h.canonical.concat hp), names_concat]
    exact h.nodup_concat hp hnone

/-- A package that takes the place of one with its name is found as it is, and others as before.
If it is new, then everything is normalised with it. -/
theorem Canonical.find?_upsert (h : l.Canonical) (hp : IsCanonical p.name) (n : String) :
    (l.upsert p).1.find? n =
      if (l.find? p.name).isSome then if canonicalName n = p.name then some p else l.find? n
      else (if canonicalName n = p.name then some p else l.find? n).map
        LockedPackage.normalised := by
  have hcanonical : canonicalName p.name = p.name := hp
  unfold Lockfile.upsert
  split
  · rename_i existing hfound
    rw [hfound, Option.isSome_some, if_pos rfl]
    split
    · -- the package is locked like this already
      rename_i he
      subst he
      split
      · rename_i hn
        rw [find?_congr (hn.trans hcanonical.symm), hfound]
      · rfl
    · rw [find?, hcanonical, find?_replaceFirst rfl]
      split
      · rename_i hn
        rw [find?, hcanonical] at hfound
        rw [hn, hfound]
        rfl
      · rfl
  · rename_i hnone
    rw [hnone, if_neg (by simp), find?_normalised (h.concat hp), find?_concat]
    by_cases hn : canonicalName n = p.name
    · rw [if_pos hn, if_pos hn.symm, find?_congr (hn.trans hcanonical.symm), hnone]
      rfl
    · rw [if_neg hn, if_neg (Ne.symm hn), Option.or_none]

/-- Afterwards the package is found under its name, and others as before, up to how they are
written. -/
theorem InOrder.find?_upsert (h : l.InOrder) (hp : IsCanonical p.name) (n : String) :
    ((l.upsert p).1.find? n).map LockedPackage.normalised =
      if canonicalName n = p.name then some p.normalised
      else (l.find? n).map LockedPackage.normalised := by
  have htwice : LockedPackage.normalised ∘ LockedPackage.normalised = LockedPackage.normalised :=
    funext LockedPackage.normalised_normalised
  rw [h.canonical.find?_upsert hp]
  split
  · rw [apply_ite (Option.map _), Option.map_some]
  · rw [Option.map_map, htwice, apply_ite (Option.map _), Option.map_some]

end Upsert

section Prune

theorem Canonical.prune (h : l.Canonical) (keep : List String) : (l.prune keep).1.Canonical :=
  fun q hq => h q (List.mem_filter.mp hq).1

theorem InOrder.prune (h : l.InOrder) (keep : List String) : (l.prune keep).1.InOrder where
  sorted := h.sorted.sublist (List.filter_sublist.map _)
  canonical := h.canonical.prune keep

theorem find?_prune {keep : List String} (h : canonicalName n ∈ keep.map canonicalName) :
    (l.prune keep).1.find? n = l.find? n := by
  have hboth : ∀ q : LockedPackage, (decide ((keep.map canonicalName).contains q.name = true ∧
      decide (q.name = canonicalName n) = true)) = decide (q.name = canonicalName n) := by
    intro q
    by_cases hq : q.name = canonicalName n
    · simp [hq, List.mem_map.mp h]
    · simp [hq]
  change (l.packages.filter fun q => (keep.map canonicalName).contains q.name).find?
    (fun q => decide (q.name = canonicalName n)) = _
  rw [List.find?_filter, funext hboth]
  rfl

/-- What was pruned is kept as it is. -/
theorem prune_prune (l : Lockfile) (keep : List String) :
    (l.prune keep).1.prune keep = ((l.prune keep).1, false) := by
  simp [prune, List.filter_filter]

theorem names_prune (keep : List String) :
    (l.prune keep).1.names = l.names.filter (keep.map canonicalName).contains := by
  rw [names, names, List.filter_map]
  rfl

end Prune

end Lockfile

end ScriptKit.Package
