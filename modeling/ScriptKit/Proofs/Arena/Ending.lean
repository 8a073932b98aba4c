import ScriptKit.Proofs.Arena.Passes
import ScriptKit.Proofs.Arena.Standing
import ScriptKit.Proofs.Program.Normal
import ScriptKit.Proofs.Tree.Sturdy
import ScriptKit.Proofs.Tree.Weights

namespace ScriptKit.Arena

open Named

variable {a b : Arena} {p : Nat} {pre post : List Nat} {q : Option Nat} {t : Named}
  {ts : List Named}

section Failures

/-- The chain of index reads that a tree begins is followed within its depth. -/
theorem Stands.chainFails_key (fuel : Nat) : ∀ {t : Named} {q : Option Nat}, Stands a q t →
    t.tree.depth ≤ fuel → a.chainFails fuel t.key = t.tree.chainFails := by
  induction fuel with
  | zero =>
    intro t q _ hdepth
    cases t
    simp [Tree.depth] at hdepth
  | succ fuel ih =>
    intro t q h hdepth
    have hchildren := h.children_key
    have hstand := h.stand_children
    rw [Arena.chainFails, h.hasKind_key, left?, right?, child?, child?, hchildren]
    cases t with
    | node id kind text evaluated line cs =>
      by_cases hkind : kind = .index
      · rcases cs with _ | ⟨base, _ | ⟨index, rest⟩⟩
        · simp [Named.kind, Named.children, hkind, Tree.chainFails, Tree.hasKind, Tree.kind]
        · simp [Named.kind, Named.children, hkind, Tree.chainFails, Tree.hasKind, Tree.kind]
        · have hbase : base.tree.depth ≤ fuel := by
            simp only [tree_node, List.map_cons, Tree.depth, Tree.depthAll] at hdepth
            omega
          have hfails := ih hstand.1 hbase
          simp [Named.kind, Named.children, hkind, hfails, Tree.chainFails]
      · simp [Named.kind, hkind, Tree.chainFails, Tree.hasKind, Tree.kind]

theorem Stands.groupFails_key (h : Stands a q t) : a.groupFails t.key = t.tree.groupFails := by
  have hchildren := h.children_key
  have hstand := h.stand_children
  rw [Arena.groupFails, Tree.groupFails, h.hasKind_eq, hchildren]
  cases t with
  | node id kind text evaluated line cs =>
    rcases cs with _ | ⟨target, _ | ⟨sign, _ | ⟨value, _ | ⟨more, rest⟩⟩⟩⟩
    · rfl
    · rfl
    · rfl
    · obtain ⟨htarget, hsign, hvalue, -⟩ := hstand
      have hchain := htarget.chainFails_key a.size htarget.holds.depth_le_size
      simp [Named.children, Tree.children, hsign.hasKind_eq, hvalue.isOperand_eq, hchain]
    · rfl

end Failures

section Finishing

/-- A pass does at every node what a step does with the tree there, and fails where the tree is one
that the step fails on. -/
structure Pass.Simulates (pass : Pass) (pure : Tree.Step) (fails : Tree → Bool) : Prop where
  step : Arena.Simulates pass.step pure
  fails_key : ∀ {a q t}, Stands a q t → pass.fails a t.key = fails t.tree

theorem structurePass_simulates :
    structurePass.Simulates Tree.structureStep fun _ => false :=
  ⟨structureStep_follows, fun _ => rfl⟩

theorem groupPass_simulates : groupPass.Simulates Tree.groupStep Tree.groupFails :=
  ⟨groupStep_follows, Stands.groupFails_key⟩

variable {pass : Pass} {pure : Tree.Step} {fails : Tree → Bool} {scale : Tree.Scale}

theorem exists_visit?_iff {s : Arena × Bool} {id : NodeId} (hid : id ≠ root) :
    (∃ r, visit? pass s id = some r) ↔ pass.fails s.1 id = false := by
  refine ⟨fun ⟨r, hr⟩ => ?_, fun h => ⟨_, visit?_of_fine h⟩⟩
  by_contra hfails
  rw [visit?, if_neg hid, if_pos (by simpa using hfails)] at hr
  cases hr

mutual

/-- A sweep over a tree has a result exactly if the step does not fail on what it meets. -/
theorem exists_sweep?_iff (hpass : pass.Simulates pure fails) :
    ∀ {t : Named} {a : Arena} {p : Nat} {pre post : List Nat} (fuel : Nat) (before : Bool),
      Spot a p pre [t] post → root ∉ t.ids → t.tree.depth ≤ fuel →
      ((∃ r, sweep? pass fuel (a, before) t.key = some r) ↔ Tree.Clear pure fails t.tree)
  | .node id kind text evaluated line ts, a, p, pre, post, 0, before, h, _, hdepth => by
    simp [Tree.depth] at hdepth
  | .node id kind text evaluated line ts, a, p, pre, post, fuel + 1, before, h, hroot, hdepth => by
    obtain ⟨hne, hroot'⟩ := not_or.mp fun hm => hroot (List.mem_cons.mpr hm)
    have hdepth' : Tree.depthAll (ts.map Named.tree) ≤ fuel := by
      rw [tree_node, Tree.depth] at hdepth
      omega
    obtain ⟨us, he, htrees, -⟩ := sweepAll_follows hpass.step fuel before h.below hroot' hdepth'
    have hchildren : a.children id = ts.map key := h.stands.children_key
    have hbelow := exists_foldlM_sweep?_iff hpass fuel before h.below hroot' hdepth'
    -- the step is done on the tree as the sweep of its children has left it
    have hfails := hpass.fails_key (h.above_edit he).stands
    rw [tree_node, ← htrees] at hfails
    rw [tree_node, Tree.Clear, ← hfails, ← hbelow, Named.key, sweep?, hchildren]
    constructor
    · rintro ⟨r, hr⟩
      obtain ⟨s, hs, hvisit⟩ := Option.bind_eq_some_iff.mp hr
      rw [(sweeps_of_foldlM fuel hs).2] at hvisit
      exact ⟨⟨s, hs⟩, (exists_visit?_iff (Ne.symm hne)).mp ⟨r, hvisit⟩⟩
    · rintro ⟨⟨s, hs⟩, hfine⟩
      have hs' := (sweeps_of_foldlM fuel hs).2
      rw [hs, Option.bind_some, hs']
      exact (exists_visit?_iff (Ne.symm hne)).mpr hfine

theorem exists_foldlM_sweep?_iff (hpass : pass.Simulates pure fails) :
    ∀ {ts : List Named} {a : Arena} {p : Nat} {pre post : List Nat} (fuel : Nat) (before : Bool),
      Spot a p pre ts post → root ∉ idsAll ts → Tree.depthAll (ts.map Named.tree) ≤ fuel →
      ((∃ r, (ts.map key).foldlM (sweep? pass fuel) (a, before) = some r) ↔
        Tree.ClearAll pure fails (ts.map Named.tree))
  | [], _, _, _, _, _, _, _, _, _ => ⟨fun _ => trivial, fun _ => ⟨_, rfl⟩⟩
  | t :: ts, a, p, pre, post, fuel, before, h, hroot, hdepth => by
    rw [idsAll, List.mem_append, not_or] at hroot
    rw [List.map_cons, Tree.depthAll] at hdepth
    obtain ⟨us, he, -⟩ := sweep_follows hpass.step fuel before h.head hroot.1 (by omega)
    have hfirst := exists_sweep?_iff hpass fuel before h.head hroot.1 (by omega)
    cases hs : sweep pass.step fuel (a, before) t.key with
    | mk b after =>
      rw [hs] at he
      have hrest := exists_foldlM_sweep?_iff hpass fuel after (h.tail he) hroot.2 (by omega)
      rw [List.map_cons, List.map_cons, Tree.ClearAll, ← hfirst, ← hrest, List.foldlM_cons]
      constructor
      · rintro ⟨r, hr⟩
        obtain ⟨here, hhere, hafter⟩ := Option.bind_eq_some_iff.mp hr
        rw [(sweeps_of_sweep? hhere).2, hs] at hafter
        exact ⟨⟨here, hhere⟩, r, hafter⟩
      · rintro ⟨⟨here, hhere⟩, r, hafter⟩
        rw [hhere, (sweeps_of_sweep? hhere).2, hs]
        exact ⟨r, hafter⟩

end

/-- A sweep over a whole program has a result exactly if the step does not fail below its root. -/
theorem Rooted.exists_sweep?_iff (hpass : pass.Simulates pure fails) (h : Rooted a t) {fuel : Nat}
    (hfuel : a.size ≤ fuel) :
    (∃ r, sweep? pass (fuel + 1) (a, false) root = some r) ↔
      Tree.ClearAll pure fails t.tree.children := by
  have hdepth := h.depth_le
  have hspot := h.spot
  have hroot := h.root_notMem
  have hchildren : a.children root = t.children.map key := by
    rw [← h.key_eq]
    exact h.stands.children_key
  cases t with
  | node id kind text evaluated line ts =>
    have hdepth' : Tree.depthAll (ts.map Named.tree) ≤ fuel := by
      rw [tree_node, Tree.depth] at hdepth
      omega
    have hbelow := exists_foldlM_sweep?_iff hpass fuel false hspot hroot hdepth'
    rw [tree_node]
    refine Iff.trans ?_ hbelow
    -- the root has no step of its own, so it is visited if its children are swept
    rw [sweep?, hchildren]
    constructor
    · rintro ⟨r, hr⟩
      obtain ⟨s, hs, -⟩ := Option.bind_eq_some_iff.mp hr
      exact ⟨s, hs⟩
    · rintro ⟨s, hs⟩
      exact ⟨_, Option.bind_eq_some_iff.mpr ⟨s, hs, visit?_of_root⟩⟩

/-- A step that makes trees lighter settles within as many sweeps as the tree is heavy, if it does
not fail in any of them. -/
theorem Rooted.settle?_of_clear (hpass : pass.Simulates pure fails) (hshrinks : pure.Shrinks scale)
    (fuel : Nat) : ∀ {a : Arena} {t : Named}, Rooted a t → t.tree.weight scale < fuel →
      Tree.ClearSweeps pure fails t.tree → ∃ b, a.settle? pass fuel = some b := by
  induction fuel with
  | zero =>
    intro a t _ hweight
    cases hweight
  | succ fuel ih =>
    intro a t h hweight hclear
    obtain ⟨u, hu, htree, hflag⟩ := sweep_root hpass.step h (Nat.le_refl _)
    obtain ⟨⟨b, changed⟩, hs⟩ := (h.exists_sweep?_iff hpass (Nat.le_refl _)).mpr (hclear 0)
    rw [← (sweeps_of_sweep? hs).2] at hu hflag
    rw [settle?, hs]
    cases changed with
    | false => exact ⟨b, rfl⟩
    | true =>
      -- a sweep that changes anything takes weight away
      have hless := hshrinks.sweepBelow t.tree
      rw [← hflag, ← htree, Bool.toNat_true] at hless
      refine ih hu (by omega) fun n => ?_
      have hnext := hclear (n + 1)
      rwa [Function.iterate_succ_apply, ← htree] at hnext

/-- What has settled did not meet a tree on which the step fails. -/
theorem Rooted.clear_of_settle? (hpass : pass.Simulates pure fails) (hhonest : pure.Honest)
    (fuel : Nat) : ∀ {a b : Arena} {t : Named}, Rooted a t → a.settle? pass fuel = some b →
      Tree.ClearSweeps pure fails t.tree := by
  induction fuel with
  | zero =>
    intro a b t _ hb
    cases hb
  | succ fuel ih =>
    intro a b t h hb
    obtain ⟨u, hu, htree, hflag⟩ := sweep_root hpass.step h (Nat.le_refl _)
    rw [settle?] at hb
    cases hs : sweep? pass (a.size + 1) (a, false) root with
    | none =>
      rw [hs] at hb
      cases hb
    | some s =>
      obtain ⟨c, changed⟩ := s
      have hclear := (h.exists_sweep?_iff hpass (Nat.le_refl _)).mp ⟨_, hs⟩
      rw [← (sweeps_of_sweep? hs).2] at hu hflag
      rw [hs] at hb
      intro n
      cases changed with
      | true =>
        cases n with
        | zero => exact hclear
        | succ n =>
          rw [Function.iterate_succ_apply, ← htree]
          exact ih hu hb n
      | false =>
        -- further sweeps meet the same tree
        have hsame : (Tree.sweepBelow pure t.tree).1 = t.tree :=
          Tree.sweepBelow_of_quiet hhonest hflag.symm
        rw [Function.iterate_fixed hsame n]
        exact hclear

end Finishing

section Loops

/-- The repeated sweeps of a pass come to an end, within the sweeps needed, and what they leave is a
tree again. -/
structure Pass.Ends (pass : Pass) (a b : Arena) : Prop where
  settles : Settles pass a b
  settle?_eq : a.settle? pass a.sweepsNeeded = some b
  isTree : b.IsTree

theorem Rooted.ends {pass : Pass} {pure : Tree.Step} {fails : Tree → Bool} {scale : Tree.Scale}
    (hpass : pass.Simulates pure fails) (hshrinks : pure.Shrinks scale)
    (hscale : ∀ k e n, scale k e n ≤ n + 2) (h : Rooted a t)
    (hclear : Tree.ClearSweeps pure fails t.tree) :
    ∃ b u, pass.Ends a b ∧ Rooted b u ∧ u.tree = Tree.settle pure a.sweepsNeeded t.tree := by
  have hweight : t.tree.weight scale < a.sweepsNeeded := by
    have hlt := Tree.weight_lt hscale t.tree
    have hnodes := h.nodes_le
    unfold sweepsNeeded
    omega
  obtain ⟨b, hb⟩ := h.settle?_of_clear hpass hshrinks a.sweepsNeeded hweight hclear
  obtain ⟨hsettles, rfl⟩ := settles_of_settle? a.sweepsNeeded hb
  obtain ⟨u, hu, htree⟩ := settle_follows hpass.step a.sweepsNeeded h
  exact ⟨_, u, ⟨hsettles, hb, hu.isTree⟩, hu, htree⟩

/-- Both loops come to an end if nothing that is structured fails to be grouped. -/
theorem Rooted.normalised?_eq (h : Rooted a t)
    (hgroup : (Tree.settle Tree.structureStep a.sweepsNeeded t.tree).Groupable) :
    a.normalised? = some a.normalised := by
  obtain ⟨b, u, hb, hu, htree⟩ := h.ends structurePass_simulates Tree.structureStep_shrinks
    Tree.structureScale_le (Tree.clearSweeps_of_never _)
  obtain ⟨c, _, hc, -⟩ := hu.ends groupPass_simulates Tree.groupStep_shrinks Tree.groupScale_le
    (htree ▸ hgroup)
  have hstructured : b = a.structured := (settles_of_settle? _ hb.settle?_eq).2
  have hgrouped : c = b.settle groupStep b.sweepsNeeded := (settles_of_settle? _ hc.settle?_eq).2
  rw [normalised?, hb.settle?_eq, Option.bind_some, hc.settle?_eq, hgrouped, hstructured]
  rfl

/-- On a program that is a tree the loop of the structuring ends in a tree, and so does the loop of
the grouping, unless it comes to an assignment whose target lacks a part. This does not happen if
every index read has two parts, of which neither perishes. -/
theorem loops_end (h : a.IsTree) : ∃ t b u, a.toTree root = some t ∧ structurePass.Ends a b ∧
    b.toTree root = some u ∧ (t.Sturdy → u.Groupable) ∧
    (u.Groupable ↔ ∃ c, groupPass.Ends b c ∧ a.normalised? = some c) := by
  obtain ⟨t, ht⟩ := h.exists_rooted
  obtain ⟨b, u, hb, hu, htree⟩ := ht.ends structurePass_simulates Tree.structureStep_shrinks
    Tree.structureScale_le (Tree.clearSweeps_of_never _)
  refine ⟨t.tree, b, u.tree, ht.toTree_eq, hb, hu.toTree_eq, fun hsturdy => ?_, ?_, ?_⟩
  · rw [htree]
    exact (hsturdy.settle _).groupable
  · intro hgroup
    obtain ⟨c, _, hc, -⟩ := hu.ends groupPass_simulates Tree.groupStep_shrinks Tree.groupScale_le
      hgroup
    refine ⟨c, hc, ?_⟩
    rw [normalised?, hb.settle?_eq, Option.bind_some, hc.settle?_eq]
  · rintro ⟨c, hc, -⟩
    exact hu.clear_of_settle? groupPass_simulates Tree.groupStep_honest _ hc.settle?_eq

/-- The program of an assignment to an index. -/
def indexAssignment : Arena :=
  ⟨"", #[⟨.program, some root, [1], "", false, 1⟩, ⟨.expression, some 0, [2, 3, 4], "", false, 1⟩,
    ⟨.index, some 1, [5, 6], "", false, 1⟩, ⟨.assignment, some 1, [], "=", false, 1⟩,
    ⟨.identifier, some 1, [], "v", false, 1⟩, ⟨.identifier, some 2, [], "a", false, 1⟩,
    ⟨.number, some 2, [], "0", false, 1⟩]⟩

theorem loops_end_indexAssignment : indexAssignment.IsTree ∧ ∃ b c,
    structurePass.Ends indexAssignment b ∧ groupPass.Ends b c ∧
      indexAssignment.normalised? = some c := by
  let target := Named.node 2 .index "" false 1
    [.node 5 .identifier "a" false 1 [], .node 6 .number "0" false 1 []]
  let whole := Named.node 0 .program "" false 1 [.node 1 .expression "" false 1
    [target, .node 3 .assignment "=" false 1 [], .node 4 .identifier "v" false 1 []]]
  have hrooted : Rooted indexAssignment whole :=
    ⟨rfl, by simp [whole, target, Stands, StandAll, indexAssignment, node?, key, root], by decide⟩
  have hsturdy : whole.tree.Sturdy := by
    have htarget : target.tree.Sturdy :=
      ⟨fun _ => ⟨_, _, rfl, rfl, rfl⟩, Tree.firm_of_kind (by decide) trivial,
        Tree.firm_of_kind (by decide) trivial, trivial⟩
    simpa [whole, Tree.Firm, Tree.FirmAll] using htarget
  obtain ⟨t, b, u, ht, hb, -, hgroup, hend⟩ := loops_end hrooted.isTree
  have hsame : whole.tree = t := Option.some.inj (hrooted.toTree_eq.symm.trans ht)
  obtain ⟨c, hc, hnormal⟩ := hend.mp (hgroup (hsame ▸ hsturdy))
  exact ⟨hrooted.isTree, b, c, hb, hc, hnormal⟩

end Loops

end ScriptKit.Arena
