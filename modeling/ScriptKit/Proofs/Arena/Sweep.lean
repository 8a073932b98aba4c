import Mathlib.Logic.Function.Iterate
import ScriptKit.Proofs.Arena.Spot

namespace ScriptKit

namespace Tree

/-- A step on one tree: the trees that take its place, and whether anything changed. -/
abbrev Step := Tree → List Tree × Bool

mutual

/-- Applies a step to every node of a tree, children first. -/
def sweep (step : Step) : Tree → List Tree × Bool
  | .node kind text evaluated line children =>
    let below := sweepAll step children
    let result := step (.node kind text evaluated line below.1)
    (result.1, below.2 || result.2)

def sweepAll (step : Step) : List Tree → List Tree × Bool
  | [] => ([], false)
  | t :: ts =>
    let first := sweep step t
    let rest := sweepAll step ts
    (first.1 ++ rest.1, first.2 || rest.2)

end

/-- Applies a step to every node of a tree but the first. -/
def sweepBelow (step : Step) : Tree → Tree × Bool
  | .node kind text evaluated line children =>
    let below := sweepAll step children
    (.node kind text evaluated line below.1, below.2)

/-- Repeats sweeps until one changes nothing. -/
def settle (step : Step) : Nat → Tree → Tree
  | 0, t => t
  | fuel + 1, t =>
    let swept := sweepBelow step t
    if swept.2 then settle step fuel swept.1 else swept.1

/-- A result that reports no change is the tree itself. -/
def Faithful (t : Tree) (result : List Tree × Bool) : Prop :=
  result.2 = false → result.1 = [t]

def Step.Honest (step : Step) : Prop :=
  ∀ t, Faithful t (step t)

variable {step : Step}

mutual

theorem sweep_of_quiet (h : step.Honest) : ∀ t, Faithful t (sweep step t)
  | .node kind text evaluated line children, hq => by
    rw [sweep] at hq ⊢
    simp only [Bool.or_eq_false_iff] at hq
    have hbelow := sweepAll_of_quiet h children hq.1
    dsimp only
    rw [h _ hq.2, hbelow]

theorem sweepAll_of_quiet (h : step.Honest) : ∀ ts, (sweepAll step ts).2 = false →
    (sweepAll step ts).1 = ts
  | [], _ => rfl
  | t :: ts, hq => by
    rw [sweepAll] at hq ⊢
    simp only [Bool.or_eq_false_iff] at hq
    dsimp only
    rw [sweep_of_quiet h t hq.1, sweepAll_of_quiet h ts hq.2, List.singleton_append]

end

theorem sweepBelow_of_quiet (h : step.Honest) {t : Tree} (hq : (sweepBelow step t).2 = false) :
    (sweepBelow step t).1 = t := by
  cases t with
  | node kind text evaluated line children =>
    rw [sweepBelow] at hq ⊢
    dsimp only at hq ⊢
    rw [sweepAll_of_quiet h children hq]

/-- Settling is sweeping as often as there is fuel: after a sweep that changes nothing, no other
one would change anything. -/
theorem settle_eq_iterate (h : step.Honest) (fuel : Nat) : ∀ t,
    settle step fuel t = (fun t => (sweepBelow step t).1)^[fuel] t := by
  induction fuel with
  | zero => intro t; rfl
  | succ fuel ih =>
    intro t
    rw [settle, Function.iterate_succ_apply]
    split
    · exact ih _
    · rename_i hq
      have hsame : (sweepBelow step t).1 = t := sweepBelow_of_quiet h (by simpa using hq)
      rw [hsame]
      exact (Function.iterate_fixed hsame fuel).symm

theorem settle_of_quiet (h : step.Honest) {t : Tree} (hq : (sweepBelow step t).2 = false)
    (fuel : Nat) : settle step fuel t = t := by
  rw [settle_eq_iterate h]
  exact Function.iterate_fixed (sweepBelow_of_quiet h hq) fuel

end Tree

namespace Arena

open Named

/-- A step on an arena does what a step on trees does: from a spot with one tree to one with the
trees that take its place. -/
def Follows (a : Arena) (p : Nat) (pre post : List Nat) (t : Named) (r : Arena × Bool)
    (s : List Tree × Bool) : Prop :=
  ∃ us, Edit a r.1 p pre post t.ids us ∧ s = (us.map Named.tree, r.2)

/-- An arena step that follows a tree step wherever it is applied. -/
def Simulates (step : Step) (pure : Tree.Step) : Prop :=
  ∀ {a p pre post t}, Spot a p pre [t] post → Follows a p pre post t (step a t.key) (pure t.tree)

variable {a b c : Arena} {p : Nat} {pre post owned : List Nat} {t : Named} {ts us vs : List Named}

theorem Spot.head (h : Spot a p pre (t :: ts) post) : Spot a p pre [t] (ts.map key ++ post) := by
  have hnodup := List.nodup_append.mp h.nodup
  have habove : p ∉ t.ids ∧ p ∉ idsAll ts := by
    have := h.above
    rwa [idsAll, List.mem_append, not_or] at this
  refine ⟨?_, h.lt, ⟨h.stand.1, trivial⟩, ?_, ?_, ?_⟩
  · rw [h.children]
    simp
  · simpa [idsAll] using hnodup.1
  · simpa [idsAll] using habove.1
  · intro x hx
    rw [idsAll, idsAll, List.append_nil]
    rw [← List.append_assoc, List.mem_append, List.mem_append] at hx
    rcases hx with (hx | hx) | hx
    · have := h.beside x (List.mem_append_left _ hx)
      exact ⟨this.1, fun hm => this.2 (List.mem_append_left _ hm)⟩
    · have hx' := (keys_sublist ts).subset hx
      exact ⟨h.stand.2.lt_size x hx', fun hm => hnodup.2.2 x hm x hx' rfl⟩
    · have := h.beside x (List.mem_append_right _ hx)
      exact ⟨this.1, fun hm => this.2 (List.mem_append_left _ hm)⟩

/-- After an edit of the first tree of a spot the others stand behind what has taken its place. -/
theorem Spot.tail (h : Spot a p pre (t :: ts) post)
    (he : Edit a b p pre (ts.map key ++ post) t.ids us) :
    Spot b p (pre ++ us.map key) ts post := by
  have hnodup := List.nodup_append.mp h.nodup
  have habove : p ∉ t.ids ∧ p ∉ idsAll ts := by
    have := h.above
    rwa [idsAll, List.mem_append, not_or] at this
  -- the edit has touched the ids of the one tree, and none of the trees after it
  have hsame : ∀ x ∈ idsAll ts, b.node? x = a.node? x := by
    intro x hx
    refine he.same x (h.stand.2.lt_size x hx) ?_ fun hm => hnodup.2.2 x hm x hx rfl
    rintro rfl
    exact habove.2 hx
  refine ⟨?_, he.spot.lt, h.stand.2.transfer hsame, hnodup.2.1, habove.2, ?_⟩
  · rw [he.spot.children]
    simp
  · intro x hx
    have hsize := he.size
    rw [List.append_assoc, List.mem_append, List.mem_append] at hx
    have hbeside : x ∈ pre ++ post → x < b.size ∧ x ∉ idsAll ts := by
      intro hx
      have := h.beside x hx
      exact ⟨by omega, fun hm => this.2 (List.mem_append_right _ hm)⟩
    rcases hx with hx | hx | hx
    · exact hbeside (List.mem_append_left _ hx)
    · have hx' := (keys_sublist us).subset hx
      refine ⟨he.spot.stand.lt_size x hx', fun hm => ?_⟩
      -- an id under the new trees is one that the edit had or a new one
      rcases he.ids x hx' with ho | hle
      · exact hnodup.2.2 x ho x hm rfl
      · have := h.stand.2.lt_size x hm
        omega
    · exact hbeside (List.mem_append_right _ hx)

theorem Edit.append (h : Spot a p pre (t :: ts) post)
    (he : Edit a b p pre (ts.map key ++ post) t.ids us)
    (he' : Edit b c p (pre ++ us.map key) post (idsAll ts) vs) :
    Edit a c p pre post (idsAll (t :: ts)) (us ++ vs) := by
  have hnodup := List.nodup_append.mp h.nodup
  have hsize := he.size
  have hsize' := he'.size
  have hlts : ∀ x ∈ idsAll ts, x < a.size := h.stand.2.lt_size
  -- what the first edit has put there is not touched by the second
  have hus : ∀ x ∈ idsAll us, x ≠ p ∧ x ∉ idsAll ts := by
    intro x hx
    refine ⟨?_, fun hm => ?_⟩
    · rintro rfl
      exact he.spot.above hx
    · rcases he.ids x hx with ho | hle
      · exact hnodup.2.2 x ho x hm rfl
      · have := hlts x hm
        omega
  have hstand : StandAll c (some p) us := by
    refine he.spot.stand.transfer fun x hx => ?_
    exact he'.same x (he.spot.stand.lt_size x hx) (hus x hx).1 (hus x hx).2
  refine Edit.of_node h.lt (by omega) ?_ ?_ h.above h.beside ?_ ?_ ?_
  · rw [standAll_iff] at hstand ⊢
    intro u hu
    rcases List.mem_append.mp hu with hu | hu
    · exact hstand u hu
    · exact standAll_iff.mp he'.spot.stand u hu
  · rw [idsAll_append]
    refine List.nodup_append.mpr ⟨he.spot.nodup, he'.spot.nodup, ?_⟩
    rintro x hx _ hy rfl
    -- an id that came with the second edit is new, so the first trees do not have it
    rcases he'.ids x hy with ho | hle
    · exact (hus x hx).2 ho
    · have := he.spot.stand.lt_size x hx
      omega
  · intro x hx
    rw [idsAll_append, List.mem_append] at hx
    rcases hx with hx | hx
    · exact (he.ids x hx).imp_left fun ho => List.mem_append_left _ ho
    · rcases he'.ids x hx with ho | hle
      · exact Or.inl (List.mem_append_right _ ho)
      · exact Or.inr (by omega)
  · rw [he'.parent, he.parent, Option.map_map]
    simp [Function.comp_def]
  · intro x hx hxp hxo
    rw [idsAll, List.mem_append, not_or] at hxo
    rw [he'.same x (by omega) hxp hxo.2, he.same x hx hxp hxo.1]

section

variable {id line : Nat} {kind : Tree.Kind} {text : String} {evaluated : Bool}

/-- The children of a tree of a spot are themselves in a spot. -/
theorem Spot.below (h : Spot a p pre [.node id kind text evaluated line ts] post) :
    Spot a id [] ts [] := by
  have hstands := h.stands
  have hnodup := List.nodup_cons.mp h.nodup_ids
  have hchildren : a.children id = ts.map key := hstands.children_key
  exact ⟨by simpa using hchildren, hstands.lt_size id List.mem_cons_self, hstands.stand_children,
    hnodup.2, hnodup.1, by simp⟩

/-- After an edit of its children a tree still stands in its spot. -/
theorem Spot.above_edit (h : Spot a p pre [.node id kind text evaluated line ts] post)
    (he : Edit a b id [] [] (idsAll ts) us) :
    Spot b p pre [.node id kind text evaluated line us] post := by
  have hhole := h.hole
  have hsize := he.size
  have hpid : p ≠ id := hhole.ne (by simp [Named.ids])
  have hpts : p ∉ idsAll ts := fun hm => hhole.above (List.mem_cons_of_mem _ hm)
  have hnodep : b.node? p = a.node? p := he.same p h.lt hpid hpts
  -- what was outside the node before the sweep is outside now
  have hout : ∀ x, x < a.size → x ∉ Named.ids (.node id kind text evaluated line ts) →
      x ∉ Named.ids (.node id kind text evaluated line us) := by
    intro x hx hno hm
    rcases List.mem_cons.mp hm with rfl | hm
    · exact hno List.mem_cons_self
    · rcases he.ids x hm with ho | hle
      · exact hno (List.mem_cons_of_mem _ ho)
      · omega
  have hstands := h.stands
  rw [Stands] at hstands
  refine ⟨?_, by have := h.lt; omega, ⟨?_, trivial⟩, ?_, ?_, ?_⟩
  · rw [Arena.children, hnodep]
    exact h.children
  · rw [Stands]
    refine ⟨?_, he.spot.stand⟩
    rw [he.parent, hstands.1]
    simp
  · rw [idsAll, idsAll, List.append_nil]
    exact List.nodup_cons.mpr ⟨he.spot.above, he.spot.nodup⟩
  · rw [idsAll, idsAll, List.append_nil]
    exact hout p h.lt hhole.above
  · intro x hx
    have hx' := hhole.beside x hx
    rw [idsAll, idsAll, List.append_nil]
    exact ⟨by omega, hout x hx'.1 hx'.2⟩

theorem Edit.trans_below (h : Spot a p pre [.node id kind text evaluated line ts] post)
    (he : Edit a b id [] [] (idsAll ts) us)
    (he' : Edit b c p pre post (Named.ids (.node id kind text evaluated line us)) vs) :
    Edit a c p pre post (Named.ids (.node id kind text evaluated line ts)) vs := by
  have hhole := h.hole
  have hsize := he.size
  have hsize' := he'.size
  -- all that stands under the node now was there before or is new
  have hin : ∀ x ∈ Named.ids (.node id kind text evaluated line us),
      x ∈ Named.ids (.node id kind text evaluated line ts) ∨ a.size ≤ x := by
    intro x hm
    rcases List.mem_cons.mp hm with rfl | hm
    · exact Or.inl List.mem_cons_self
    · exact (he.ids x hm).imp_left fun ho => List.mem_cons_of_mem _ ho
  have hsame : ∀ x, x < a.size → x ∉ Named.ids (.node id kind text evaluated line ts) →
      b.node? x = a.node? x := by
    intro x hx hno
    refine he.same x hx ?_ fun hm => hno (List.mem_cons_of_mem _ hm)
    rintro rfl
    exact hno List.mem_cons_self
  refine Edit.of_node h.lt (by omega) he'.spot.stand he'.spot.nodup hhole.above hhole.beside ?_ ?_ ?_
  · intro x hx
    rcases he'.ids x hx with ho | hle
    · exact hin x ho
    · exact Or.inr (by omega)
  · rw [he'.parent, hsame p h.lt hhole.above]
  · intro x hx hxp hxo
    rw [he'.same x (by omega) hxp, hsame x hx hxo]
    intro hm
    rcases hin x hm with ho | hle
    · exact hxo ho
    · omega

end

mutual

/-- A sweep over an arena follows the sweep over the tree. -/
theorem sweep_follows {step : Step} {pure : Tree.Step} (hstep : Simulates step pure) :
    ∀ {t : Named} {a : Arena} {p : Nat} {pre post : List Nat} (fuel : Nat) (before : Bool),
      Spot a p pre [t] post → root ∉ t.ids → t.tree.depth ≤ fuel →
      ∃ us, Edit a (sweep step fuel (a, before) t.key).1 p pre post t.ids us ∧
        (Tree.sweep pure t.tree).1 = us.map Named.tree ∧
        (sweep step fuel (a, before) t.key).2 = (before || (Tree.sweep pure t.tree).2)
  | .node id kind text evaluated line ts, a, p, pre, post, 0, before, h, hroot, hdepth => by
    simp [Tree.depth] at hdepth
  | .node id kind text evaluated line ts, a, p, pre, post, fuel + 1, before, h, hroot, hdepth => by
    -- first the children are swept, then the step is taken at the node itself
    obtain ⟨hne, hroot'⟩ := not_or.mp fun hm => hroot (List.mem_cons.mpr hm)
    have hdepth' : Tree.depthAll (ts.map Named.tree) ≤ fuel := by
      rw [tree_node, Tree.depth] at hdepth
      omega
    obtain ⟨us, he, htrees, hflag⟩ := sweepAll_follows hstep fuel before h.below hroot' hdepth'
    obtain ⟨vs, he', heq⟩ := hstep (h.above_edit he)
    rw [tree_node] at heq
    have hchildren : a.children id = ts.map key := h.stands.children_key
    -- the node is not the root, so that its own step is not left out
    have hunfold : sweep step (fuel + 1) (a, before) id =
        ((step ((ts.map key).foldl (sweep step fuel) (a, before)).1 id).1,
          ((ts.map key).foldl (sweep step fuel) (a, before)).2 ||
            (step ((ts.map key).foldl (sweep step fuel) (a, before)).1 id).2) := by
      rw [sweep, hchildren]
      dsimp only
      rw [if_neg (Ne.symm hne)]
    simp only [Named.key, tree_node, Tree.sweep, htrees, heq, hunfold, hflag, Bool.or_assoc, and_true]
    exact ⟨vs, Edit.trans_below h he he', rfl⟩

theorem sweepAll_follows {step : Step} {pure : Tree.Step} (hstep : Simulates step pure) :
    ∀ {ts : List Named} {a : Arena} {p : Nat} {pre post : List Nat} (fuel : Nat) (before : Bool),
      Spot a p pre ts post → root ∉ idsAll ts → Tree.depthAll (ts.map Named.tree) ≤ fuel →
      ∃ us, Edit a ((ts.map key).foldl (sweep step fuel) (a, before)).1 p pre post (idsAll ts) us ∧
        (Tree.sweepAll pure (ts.map Named.tree)).1 = us.map Named.tree ∧
        ((ts.map key).foldl (sweep step fuel) (a, before)).2 =
          (before || (Tree.sweepAll pure (ts.map Named.tree)).2)
  | [], a, p, pre, post, fuel, before, h, _, _ => by
    refine ⟨[], ?_, rfl, by simp [Tree.sweepAll]⟩
    refine ⟨h, Nat.le_refl _, fun _ _ _ _ => rfl, ?_, by simp [idsAll]⟩
    have hchildren := h.children
    -- nothing is swept, so the parent is as it was
    rw [List.map_nil, List.foldl_nil]
    cases hn : a.node? p with
    | none => rfl
    | some n =>
      rw [Arena.children, hn, Option.elim_some, List.map_nil] at hchildren
      rw [Option.map_some, ← hchildren]
  | t :: ts, a, p, pre, post, fuel, before, h, hroot, hdepth => by
    rw [idsAll, List.mem_append, not_or] at hroot
    rw [List.map_cons, Tree.depthAll] at hdepth
    obtain ⟨us, he, htrees, hflag⟩ := sweep_follows hstep fuel before h.head hroot.1
      (by omega)
    cases hs : sweep step fuel (a, before) t.key with
    | mk b after =>
      rw [hs] at he hflag
      obtain ⟨vs, he', htrees', hflag'⟩ := sweepAll_follows hstep fuel after (h.tail he)
        hroot.2 (by omega)
      refine ⟨us ++ vs, ?_, ?_, ?_⟩
      · rw [List.map_cons, List.foldl_cons, hs]
        exact Edit.append h he he'
      · rw [List.map_cons, Tree.sweepAll]
        dsimp only
        rw [htrees, htrees', List.map_append]
      · rw [List.map_cons, List.map_cons, List.foldl_cons, hs, hflag', Tree.sweepAll]
        dsimp only at hflag ⊢
        rw [hflag, Bool.or_assoc]

end

/-- The tree of a whole program stands below the root, which is its own parent. -/
structure Rooted (a : Arena) (t : Named) : Prop where
  key_eq : t.key = root
  stands : Stands a (some root) t
  nodup : t.ids.Nodup

theorem Linked.rooted {I : Nat → Prop} {t : Tree} (hl : a.Linked) (h : a.Holds I root t) :
    ∃ u, Rooted a u ∧ u.tree = t := by
  obtain ⟨u, hkey, htree, hstands⟩ := hl.stands h
  rw [hl.root_parent] at hstands
  exact ⟨u, ⟨hkey, hstands, hl.nodup_ids hstands⟩, htree⟩

mutual

theorem Stands.holds : ∀ {t : Named} {q : Option Nat}, Stands a q t →
    a.Holds (fun _ => True) t.key t.tree
  | .node id kind text evaluated line ts, q, h => by
    have hchildren := h.children_key
    rw [Stands] at h
    rw [tree, Holds]
    refine ⟨by simp [info?, Named.key, h.1], ?_⟩
    rw [hchildren]
    exact StandAll.holds h.2

theorem StandAll.holds : ∀ {ts : List Named} {q : Option Nat}, StandAll a q ts →
    a.HoldsAll (fun _ => True) (ts.map key) (treeAll ts)
  | [], _, _ => trivial
  | _ :: _, _, h => ⟨trivial, h.1.holds, StandAll.holds h.2⟩

end

theorem Rooted.toTree_eq (h : Rooted a t) : a.toTree root = some t.tree := by
  have := h.stands.holds
  rw [h.key_eq] at this
  exact this.toTree_eq

theorem Rooted.depth_le (h : Rooted a t) : t.tree.depth ≤ a.size :=
  h.stands.holds.depth_le_size

theorem Rooted.root_notMem (h : Rooted a t) : root ∉ idsAll t.children := by
  have hnodup := h.nodup
  rw [ids_eq, h.key_eq] at hnodup
  exact (List.nodup_cons.mp hnodup).1

/-- The trees below the root are all its children. -/
theorem Rooted.spot (h : Rooted a t) : Spot a root [] t.children [] := by
  have hroot := h.root_notMem
  obtain ⟨hkey, hstands, hnodup⟩ := h
  have hchildren := hstands.children_key
  have hlt := hstands.lt_size t.key t.key_mem_ids
  have hstand := hstands.stand_children
  rw [ids_eq] at hnodup
  rw [hkey] at hchildren hlt hstand
  exact ⟨by simpa using hchildren, hlt, hstand, (List.nodup_cons.mp hnodup).2, hroot, by simp⟩

/-- One sweep over a whole program. -/
theorem sweep_root {step : Step} {pure : Tree.Step} (hstep : Simulates step pure)
    (h : Rooted a t) {fuel : Nat} (hfuel : a.size ≤ fuel) : ∃ u,
      Rooted (sweep step (fuel + 1) (a, false) root).1 u ∧
      u.tree = (Tree.sweepBelow pure t.tree).1 ∧
      (sweep step (fuel + 1) (a, false) root).2 = (Tree.sweepBelow pure t.tree).2 := by
  have hdepth := h.depth_le
  cases t with
  | node id kind text evaluated line ts =>
    have hspot : Spot a root [] ts [] := h.spot
    have hroot : root ∉ idsAll ts := h.root_notMem
    obtain ⟨hkey, hstands, -⟩ := h
    obtain rfl : id = root := hkey
    have hchildren : a.children root = ts.map key := hstands.children_key
    have hdepth' : Tree.depthAll (ts.map Named.tree) ≤ fuel := by
      rw [tree_node, Tree.depth] at hdepth
      omega
    obtain ⟨us, he, htrees, hflag⟩ := sweepAll_follows hstep fuel false hspot hroot hdepth'
    -- at the root the sweep of the children is all that is done
    have hunfold : sweep step (fuel + 1) (a, false) root =
        (ts.map key).foldl (sweep step fuel) (a, false) := by
      rw [sweep, hchildren]
      dsimp only
      rw [if_pos rfl]
    rw [hunfold]
    refine ⟨.node root kind text evaluated line us, ⟨rfl, ?_, ?_⟩, ?_, ?_⟩
    · rw [Stands] at hstands ⊢
      refine ⟨?_, he.spot.stand⟩
      rw [he.parent, hstands.1]
      simp
    · exact List.nodup_cons.mpr ⟨he.spot.above, he.spot.nodup⟩
    · rw [tree_node, tree_node, Tree.sweepBelow, htrees]
    · rw [tree_node, Tree.sweepBelow, hflag, Bool.false_or]

/-- Settling an arena follows settling the tree. -/
theorem settle_follows {step : Step} {pure : Tree.Step} (hstep : Simulates step pure) (fuel : Nat) :
    ∀ {a : Arena} {t : Named}, Rooted a t → ∃ u, Rooted (a.settle step fuel) u ∧
      u.tree = Tree.settle pure fuel t.tree := by
  induction fuel with
  | zero =>
    intro a t h
    exact ⟨t, h, rfl⟩
  | succ fuel ih =>
    intro a t h
    obtain ⟨u, hu, htree, hflag⟩ := sweep_root hstep h (Nat.le_refl _)
    rw [settle, Tree.settle]
    cases hs : sweep step (a.size + 1) (a, false) root with
    | mk b changed =>
      rw [hs] at hu hflag
      dsimp only at hu hflag ⊢
      rw [← hflag, ← htree]
      cases changed with
      | true => exact ih hu
      | false => exact ⟨u, hu, rfl⟩

end Arena

end ScriptKit
