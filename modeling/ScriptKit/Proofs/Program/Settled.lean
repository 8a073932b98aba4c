import ScriptKit.Proofs.Arena.Ending

namespace ScriptKit

namespace Arena

/-- A result that reports no change is the arena itself. -/
def Faithful (a : Arena) (r : Arena × Bool) : Prop :=
  r.2 = false → r.1 = a

def Step.Honest (step : Step) : Prop :=
  ∀ (a : Arena) (id : NodeId), a.Faithful (step a id)

namespace Faithful

variable {a : Arena}

theorem keep : a.Faithful (a, false) := fun _ => rfl

theorem change (b : Arena) : a.Faithful (b, true) := fun h => nomatch h

theorem ite {c : Prop} [Decidable c] {r s : Arena × Bool} (hr : a.Faithful r)
    (hs : a.Faithful s) : a.Faithful (if c then r else s) := by
  split
  · exact hr
  · exact hs

end Faithful

open Faithful

theorem structureStep_honest : Step.Honest structureStep := by
  intro a id
  unfold structureStep
  split
  · exact keep
  · split
    · exact .ite keep (change _)
    · exact change _
    · exact change _
    · exact change _
    · split
      · exact .ite (change _) keep
      · exact .ite (change _) keep
    · exact keep

theorem groupAssignment_faithful (a : Arena) (id target value : NodeId) :
    a.Faithful (a.groupAssignment id target value) := by
  unfold groupAssignment
  split
  · exact change _
  · exact change _
  · exact change _
  · exact keep

theorem groupExpression_faithful (a : Arena) (id : NodeId) :
    a.Faithful (a.groupExpression id) := by
  unfold groupExpression
  split
  · exact .ite (change _) (.ite (change _)
      (.ite (groupAssignment_faithful _ _ _ _) (.ite (change _) keep)))
  · exact .ite (change _) (.ite (change _) keep)
  · exact .ite (change _) keep
  · exact .ite (change _) keep
  · exact .ite (change _) keep
  · exact keep

theorem groupStatement_faithful (a : Arena) (id : NodeId) :
    a.Faithful (a.groupStatement id) := by
  unfold groupStatement
  split
  · exact change _
  · exact .ite (change _) keep
  · exact .ite (change _) keep
  · refine .ite (.ite keep ?_) (.ite (change _) keep)
    split
    · exact change _
    · exact .ite (change _) keep
    · exact .ite (change _) keep
    · exact keep
  · exact .ite (change _) (.ite (change _) (.ite (change _) keep))
  · exact keep

theorem groupStep_honest : Step.Honest groupStep := by
  intro a id
  unfold groupStep
  split
  · exact groupExpression_faithful a id
  · exact groupStatement_faithful a id
  · split
    · exact .ite (change _) keep
    · exact keep
  · exact keep

/-- If steps that report no change do nothing, so do many of them. -/
theorem foldl_of_quiet {f : Arena × Bool → NodeId → Arena × Bool}
    (hf : ∀ s id, (f s id).2 = false → f s id = s) (ids : List NodeId) :
    ∀ s, (ids.foldl f s).2 = false → ids.foldl f s = s := by
  induction ids with
  | nil =>
    intro s _
    rfl
  | cons id ids ih =>
    intro s hq
    rw [List.foldl_cons] at hq ⊢
    have hrest := ih (f s id) hq
    rw [hrest] at hq ⊢
    exact hf s id hq

variable {step : Step} {pure : Tree.Step}

theorem sweep_of_quiet (h : step.Honest) (fuel : Nat) :
    ∀ s id, (sweep step fuel s id).2 = false → sweep step fuel s id = s := by
  induction fuel with
  | zero =>
    intro s id _
    rfl
  | succ fuel ih =>
    intro s id hq
    have hbelow := foldl_of_quiet ih (s.1.children id) s
    rw [sweep] at hq ⊢
    cases hs : (s.1.children id).foldl (sweep step fuel) s with
    | mk a before =>
      rw [hs] at hq hbelow
      dsimp only at hq ⊢
      -- the root has no step of its own; elsewhere the flag is that of the children or of the step
      split at hq
      · exact (if_pos ‹_›).trans (hbelow hq)
      · obtain ⟨hbefore, hchanged⟩ := Bool.or_eq_false_iff.mp hq
        rw [if_neg ‹_›, h a id hchanged, hchanged, Bool.or_false]
        exact hbelow hbefore

/-- Settling leaves an arena as it is, node by node, if a sweep over its tree changes nothing. -/
theorem settle_of_quiet (h : step.Honest) (hstep : Simulates step pure) {a : Arena} {t : Named}
    (ht : Rooted a t) (hq : (Tree.sweepBelow pure t.tree).2 = false) (fuel : Nat) :
    a.settle step fuel = a := by
  cases fuel with
  | zero => rfl
  | succ fuel =>
    obtain ⟨-, -, -, hflag⟩ := sweep_root hstep ht (Nat.le_refl _)
    have hsame := sweep_of_quiet h (a.size + 1) (a, false) root (hflag.trans hq)
    rw [settle, hsame]

end Arena

namespace Grammar

open Tree

section Firm

variable {gone : Tree → Bool}

theorem firm_leaf {k : Tree.Kind} (h : k ≠ .index) (x : String) (line : Nat) :
    (leaf k x line).Firm gone :=
  firm_of_kind h trivial

theorem firmAll_interleaved {t : Tree} {rest : List (Tree × Tree)} (ht : t.Firm gone)
    (hl : ∀ p ∈ rest, p.1.Firm gone) (hr : ∀ p ∈ rest, p.2.Firm gone) :
    FirmAll gone (interleaved t rest) := by
  refine firmAll_iff.mpr fun u hu => ?_
  rcases List.mem_cons.mp hu with rfl | hu
  · exact ht
  · obtain ⟨p, hp, hu⟩ := List.mem_flatMap.mp hu
    rcases (by simpa using hu : u = p.1 ∨ u = p.2) with rfl | rfl
    · exact hl p hp
    · exact hr p hp

/-- The grammar makes no index reads, so none of them lacks a part. -/
theorem Raw.firm {r : Rule} {t : Tree} (h : Raw r t) : t.Firm gone := by
  induction h with
  -- these rules hand on the tree of another
  | conditional _ ih | plain _ ih | functionOperand _ ih | classOperand _ ih | arrayOperand _ ih =>
    exact ih
  | literal hk => exact firm_leaf (by rintro rfl; cases hk) _ _
  | block _ ih => exact firm_of_kind (by decide) (firmAll_iff.mpr ih)
  | additive _ hl _ iht ihr | multiplicative _ hl _ iht ihr | expressions _ hl _ iht ihr =>
    refine firm_of_kind (by decide) (firmAll_interleaved iht (fun p hp => ?_) ihr)
    obtain ⟨x, l, hx⟩ := hl p hp
    rw [hx]
    exact firm_leaf (by decide) x l
  | arguments ht hc hr =>
    obtain ⟨x, l, rfl⟩ := ht
    refine firm_of_kind (by decide)
      (firmAll_interleaved (firm_leaf (by decide) x l) (fun p hp => ?_) fun p hp => ?_)
    · obtain ⟨x, l, hx⟩ := hc p hp
      rw [hx]
      exact firm_leaf (by decide) x l
    · obtain ⟨x, l, hx⟩ := hr p hp
      rw [hx]
      exact firm_leaf (by decide) x l
  | functionStatement _ he ih | classStatement _ he ih =>
    refine firm_of_kind (by decide) ⟨ih, ?_⟩
    rcases he with rfl | ⟨x, l, rfl⟩
    · trivial
    · exact ⟨firm_leaf (by decide) x l, trivial⟩
  | _ => exact firm_of_kind (by decide) (by simp [FirmAll, firm_leaf, *])

mutual

/-- The index reads of a program have two values as their parts. -/
theorem firm_of_shaped : ∀ {t : Tree}, t.shaped = true → t.Firm vanishes
  | .node kind text evaluated line children, h => by
    rw [shaped, Bool.and_eq_true] at h
    refine ⟨?_, firmAll_of_shapedAll h.2⟩
    rintro rfl
    rcases children with _ | ⟨target, _ | ⟨index, _ | ⟨c, rest⟩⟩⟩
    · simp [fits] at h
    · simp [fits] at h
    · simp only [fits, Bool.and_eq_true] at h
      exact ⟨target, index, rfl, vanishes_of_isOperand (isOperand_of_isValue h.1.1),
        vanishes_of_isOperand (isOperand_of_isValue h.1.2)⟩
    · simp [fits] at h

theorem firmAll_of_shapedAll : ∀ {ts : List Tree}, shapedAll ts = true → FirmAll vanishes ts
  | [], _ => trivial
  | t :: ts, h => by
    rw [shapedAll, Bool.and_eq_true] at h
    exact ⟨firm_of_shaped h.1, firmAll_of_shapedAll h.2⟩

end

end Firm

variable {ts : List Tree}

theorem sweepBelow_programTree {step : Tree.Step}
    (hstep : ∀ {t : Tree}, t.fits = true → step t = ([t], false)) (h : shapedAll ts = true) :
    (sweepBelow step (programTree ts)).2 = false := by
  rw [programTree, branch, sweepBelow, sweepAll_of_shaped hstep h]

variable {a : Arena} {t : Arena.Named}

/-- What a program is settled to is settled. -/
theorem normalised_of_shaped (ht : Arena.Rooted a t) (htree : t.tree = programTree ts)
    (h : shapedAll ts = true) : a.normalised = a := by
  have hquiet : ∀ {step : Tree.Step}, (∀ {t : Tree}, t.fits = true → step t = ([t], false)) →
      (sweepBelow step t.tree).2 = false := by
    intro step hstep
    rw [htree]
    exact sweepBelow_programTree hstep h
  have hstructured : a.structured = a :=
    Arena.settle_of_quiet Arena.structureStep_honest Arena.structureStep_follows ht
      (hquiet structureStep_of_fits) _
  rw [Arena.normalised, hstructured]
  exact Arena.settle_of_quiet Arena.groupStep_honest Arena.groupStep_follows ht
    (hquiet groupStep_of_fits) _

/-- The loops come to an end on a program of the grammar. -/
theorem normalised?_of_raw (ht : Arena.Rooted a t) (htree : t.tree = programTree ts)
    (h : ∀ t ∈ ts, Raw .block t) : a.normalised? = some a.normalised := by
  have hsturdy : t.tree.Sturdy := by
    rw [htree]
    exact firm_of_kind (by decide) (firmAll_iff.mpr fun t ht => (h t ht).firm)
  exact ht.normalised?_eq (hsturdy.settle _).groupable

/-- The loops come to an end on what a program is settled to. -/
theorem normalised?_of_shaped (ht : Arena.Rooted a t) (htree : t.tree = programTree ts)
    (h : shapedAll ts = true) : a.normalised? = some a.normalised := by
  refine ht.normalised?_eq ?_
  rw [htree, settle_of_quiet Tree.structureStep_honest
    (sweepBelow_programTree structureStep_of_fits h)]
  exact (firm_of_kind (by decide) (firmAll_of_shapedAll h)).groupable

variable (tokens : List Token) (file : String)

/-- The tree of a program stands below the root as it was read, the loops come to an end on it, and
its translation stands there then. -/
theorem parseTokens_rooted : ∃ ts, (∀ t ∈ ts, Raw .block t) ∧
    (∃ t, Arena.Rooted (parseTokens tokens file).arena t ∧ t.tree = programTree ts) ∧
    (parseTokens tokens file).arena.normalised? =
      some (parseTokens tokens file).arena.normalised ∧
    ∃ u, Arena.Rooted (parseTokens tokens file).arena.normalised u ∧
      u.tree = programTree (meaningAll ts) := by
  obtain ⟨ts, hroot, -, hraw⟩ := readProgram_root tokens.toArray
  obtain ⟨hlinked, hholds⟩ := parseTokens_holds tokens file
  obtain ⟨t, ht, htree⟩ := hlinked.rooted hholds
  rw [hroot] at htree
  obtain ⟨u, hu, hutree⟩ := rooted_normalised ht htree hraw
  exact ⟨ts, hraw, ⟨t, ht, htree⟩, normalised?_of_raw ht htree hraw, u, hu,
    hutree.trans (meaning_programTree ts)⟩

/-- Settling a program in place, first its structure and then its groups, comes to an end, and gives
the translation of its tree, which is one recursion over it. -/
theorem parseTokens_normalised : ∃ raw,
    (parseTokens tokens file).arena.toTree Arena.root = some raw ∧
    (parseTokens tokens file).arena.normalised? =
      some (parseTokens tokens file).arena.normalised ∧
    (parseTokens tokens file).arena.normalised.toTree Arena.root = some (meaning raw) := by
  obtain ⟨ts, -, ⟨t, ht, htree⟩, hend, u, hu, hutree⟩ := parseTokens_rooted tokens file
  refine ⟨t.tree, ht.toTree_eq, hend, ?_⟩
  rw [hu.toTree_eq, hutree, htree, meaning_programTree]

/-- The nodes that the root leads to form a tree, before and after a program is settled, which comes
to an end. -/
theorem parseTokens_isTree : (parseTokens tokens file).arena.IsTree ∧
    (parseTokens tokens file).arena.normalised? =
      some (parseTokens tokens file).arena.normalised ∧
    (parseTokens tokens file).arena.normalised.IsTree := by
  obtain ⟨-, -, ⟨t, ht, -⟩, hend, u, hu, -⟩ := parseTokens_rooted tokens file
  exact ⟨ht.isTree, hend, hu.isTree⟩

/-- Settling a program comes to an end, and settling it again does so without changing a node or
adding one. -/
theorem parseTokens_settled :
    (parseTokens tokens file).arena.normalised? =
      some (parseTokens tokens file).arena.normalised ∧
    (parseTokens tokens file).arena.normalised.normalised? =
      some (parseTokens tokens file).arena.normalised ∧
    (parseTokens tokens file).arena.normalised.normalised =
      (parseTokens tokens file).arena.normalised := by
  obtain ⟨ts, hraw, -, hend, u, hu, hutree⟩ := parseTokens_rooted tokens file
  obtain ⟨-, -, hshaped⟩ := parts_of_blocks hraw (Nat.le_refl _)
  have hsame := normalised_of_shaped hu hutree hshaped
  have hagain := normalised?_of_shaped hu hutree hshaped
  rw [hsame] at hagain
  exact ⟨hend, hagain, hsame⟩

end Grammar

end ScriptKit
