import ScriptKit.Proofs.Arena.Sweep

namespace ScriptKit.Arena

/-- A sweep below the given nodes, one after the other, as deep as they go. It leads nowhere if the
step fails at a node. -/
inductive Sweeps (pass : Pass) : Arena × Bool → List NodeId → Arena × Bool → Prop
  | done {s} : Sweeps pass s [] s
  | next {s below here after id ids} (hbelow : Sweeps pass s (s.1.children id) below)
      (hhere : visit? pass below id = some here) (hafter : Sweeps pass here ids after) :
      Sweeps pass s (id :: ids) after

/-- Sweeps over the whole program lead from one arena to another, and only the last of them changes
nothing. -/
inductive Settles (pass : Pass) : Arena → Arena → Prop
  | still {a b} (hsweep : Sweeps pass (a, false) [root] (b, false)) : Settles pass a b
  | again {a b c} (hsweep : Sweeps pass (a, false) [root] (b, true)) (hrest : Settles pass b c) :
      Settles pass a c

variable {pass : Pass} {a b : Arena} {s r : Arena × Bool} {id : NodeId} {ids : List NodeId}

section Visit

/-- What a visit makes of an arena if the step does not fail. -/
def visit (step : Step) (s : Arena × Bool) (id : NodeId) : Arena × Bool :=
  if id = root then s else ((step s.1 id).1, s.2 || (step s.1 id).2)

theorem sweep_succ (step : Step) (fuel : Nat) : sweep step (fuel + 1) s id =
    visit step ((s.1.children id).foldl (sweep step fuel) s) id := rfl

theorem visit?_of_root : visit? pass s root = some (visit pass.step s root) := rfl

theorem visit?_of_fine (h : pass.fails s.1 id = false) :
    visit? pass s id = some (visit pass.step s id) := by
  by_cases hid : id = root
  · rw [hid, visit?_of_root]
  · rw [visit?, visit, if_neg hid, if_neg hid, h]
    rfl

theorem eq_visit_of_visit? (h : visit? pass s id = some r) : r = visit pass.step s id := by
  by_cases hid : id = root
  · rw [hid, visit?_of_root] at h
    rw [hid]
    exact (Option.some.inj h).symm
  · have hfine : pass.fails s.1 id = false := by
      rw [visit?, if_neg hid] at h
      split at h
      · cases h
      · exact Bool.eq_false_iff.mpr ‹_›
    rw [visit?_of_fine hfine] at h
    exact (Option.some.inj h).symm

end Visit

section Fuel

/-- A sweep with enough fuel is one without a bound, and does what the steps do. -/
theorem sweeps_of_foldlM (fuel : Nat) : ∀ {ids : List NodeId} {s r : Arena × Bool},
    ids.foldlM (sweep? pass fuel) s = some r →
      Sweeps pass s ids r ∧ r = ids.foldl (sweep pass.step fuel) s := by
  -- the induction is on the fuel, and within one depth on the nodes still to be swept
  induction fuel with
  | zero =>
    intro ids s r h
    cases ids with
    | nil =>
      obtain rfl : s = r := Option.some.inj h
      exact ⟨.done, rfl⟩
    | cons id ids => cases h
  | succ fuel ih =>
    intro ids
    induction ids with
    | nil =>
      intro s r h
      obtain rfl : s = r := Option.some.inj h
      exact ⟨.done, rfl⟩
    | cons id ids ihids =>
      intro s r h
      rw [List.foldlM_cons] at h
      obtain ⟨here, hhere, hafter⟩ := Option.bind_eq_some_iff.mp h
      obtain ⟨below, hbelow, hvisit⟩ := Option.bind_eq_some_iff.mp hhere
      obtain ⟨hsweeps, hbelow⟩ := ih hbelow
      obtain ⟨hrest, hafter⟩ := ihids hafter
      -- the sweep that may stop has not, so it is the one that cannot
      have hsame : here = sweep pass.step (fuel + 1) s id := by
        rw [sweep_succ, ← hbelow]
        exact eq_visit_of_visit? hvisit
      refine ⟨.next hsweeps hvisit hrest, ?_⟩
      rw [hafter, hsame, List.foldl_cons]

theorem foldlM_singleton (fuel : Nat) :
    [id].foldlM (sweep? pass fuel) s = sweep? pass fuel s id := by
  rw [List.foldlM_cons]
  exact bind_pure _

theorem sweeps_of_sweep? {fuel : Nat} (h : sweep? pass fuel s id = some r) :
    Sweeps pass s [id] r ∧ r = sweep pass.step fuel s id :=
  sweeps_of_foldlM fuel ((foldlM_singleton fuel).trans h)

theorem Sweeps.exists_fuel (h : Sweeps pass s ids r) :
    ∃ n, ∀ fuel, n ≤ fuel → ids.foldlM (sweep? pass fuel) s = some r := by
  induction h with
  | done => exact ⟨0, fun _ _ => rfl⟩
  | @next s below here after id ids _ hhere _ ihbelow ihafter =>
    obtain ⟨m, hm⟩ := ihbelow
    obtain ⟨n, hn⟩ := ihafter
    refine ⟨max (m + 1) n, fun fuel hfuel => ?_⟩
    obtain ⟨fuel, rfl⟩ : ∃ less, fuel = less + 1 := ⟨fuel - 1, by omega⟩
    have hfirst : sweep? pass (fuel + 1) s id = some here := by
      rw [sweep?, hm fuel (by omega), Option.bind_some, hhere]
    rw [List.foldlM_cons, hfirst]
    exact hn (fuel + 1) (by omega)

/-- A sweep leads to one result at most. -/
theorem Sweeps.unique {r' : Arena × Bool} (h : Sweeps pass s ids r) (h' : Sweeps pass s ids r') :
    r = r' := by
  obtain ⟨m, hm⟩ := h.exists_fuel
  obtain ⟨n, hn⟩ := h'.exists_fuel
  have hr := hm (max m n) (Nat.le_max_left m n)
  have hr' := hn (max m n) (Nat.le_max_right m n)
  exact Option.some.inj (hr.symm.trans hr')

theorem settles_of_settle? (fuel : Nat) : ∀ {a b : Arena}, a.settle? pass fuel = some b →
    Settles pass a b ∧ b = a.settle pass.step fuel := by
  induction fuel with
  | zero =>
    intro a b h
    cases h
  | succ fuel ih =>
    intro a b h
    rw [settle?] at h
    rw [settle]
    cases hs : sweep? pass (a.size + 1) (a, false) root with
    | none =>
      rw [hs] at h
      cases h
    | some s =>
      obtain ⟨c, changed⟩ := s
      rw [hs] at h
      obtain ⟨hsweeps, hsame⟩ := sweeps_of_sweep? hs
      rw [← hsame]
      -- the next round begins from the arena of this one if anything has changed
      cases changed with
      | true =>
        obtain ⟨hrest, hsettle⟩ := ih h
        exact ⟨.again hsweeps hrest, hsettle⟩
      | false =>
        obtain rfl : c = b := Option.some.inj h
        exact ⟨.still hsweeps, rfl⟩

end Fuel

end ScriptKit.Arena
