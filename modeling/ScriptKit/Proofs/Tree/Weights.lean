import ScriptKit.Proofs.Tree.Grouping

namespace ScriptKit.Tree

/-- What a node weighs by itself: by its kind, by whether it is evaluated, and by how many children
it has. -/
abbrev Scale := Kind → Bool → Nat → Nat

section Weight

mutual

def weight (scale : Scale) : Tree → Nat
  | .node kind _ evaluated _ children =>
    scale kind evaluated children.length + weightAll scale children

def weightAll (scale : Scale) : List Tree → Nat
  | [] => 0
  | t :: ts => weight scale t + weightAll scale ts

end

variable {scale : Scale} {t : Tree} {ts us : List Tree}

theorem weight_eq (scale : Scale) (t : Tree) : ∃ evaluated, t.weight scale =
    scale t.kind evaluated t.children.length + weightAll scale t.children := by
  cases t with
  | node kind text evaluated line children => exact ⟨evaluated, rfl⟩

@[simp] theorem weightAll_nil : weightAll scale [] = 0 := rfl

@[simp] theorem weightAll_cons : weightAll scale (t :: ts) = t.weight scale + weightAll scale ts := rfl

@[simp] theorem weightAll_append :
    weightAll scale (ts ++ us) = weightAll scale ts + weightAll scale us := by
  induction ts with
  | nil => simp
  | cons t ts ih => simp [ih, Nat.add_assoc]

theorem weightAll_sublist (h : ts.Sublist us) : weightAll scale ts ≤ weightAll scale us := by
  induction h with
  | slnil => exact Nat.le_refl _
  | cons t _ ih =>
    rw [weightAll_cons]
    omega
  | cons_cons t _ ih =>
    rw [weightAll_cons, weightAll_cons]
    omega

mutual

/-- A node weighs less than three, if its children are not counted more than once each. -/
theorem weight_lt (hscale : ∀ k e n, scale k e n ≤ n + 2) : ∀ t, weight scale t < 3 * nodes t
  | .node kind text evaluated line children => by
    have hnode := hscale kind evaluated children.length
    have hall := weightAll_add_length_le hscale children
    rw [weight, nodes]
    omega

theorem weightAll_add_length_le (hscale : ∀ k e n, scale k e n ≤ n + 2) :
    ∀ ts : List Tree, weightAll scale ts + ts.length ≤ 3 * nodesAll ts
  | [] => Nat.le_refl _
  | t :: ts => by
    have hfirst := weight_lt hscale t
    have hrest := weightAll_add_length_le hscale ts
    rw [weightAll, nodesAll, List.length_cons]
    omega

end

end Weight

section Shrinking

variable {scale : Scale} {t : Tree} {step : Step}

/-- What a step makes of a tree is one tree at most, and lighter if anything changed. -/
structure Shrunk (scale : Scale) (t : Tree) (result : List Tree × Bool) : Prop where
  length_le : result.1.length ≤ 1
  weight_le : weightAll scale result.1 + result.2.toNat ≤ t.weight scale

theorem Shrunk.keep : Shrunk scale t ([t], false) :=
  ⟨Nat.le_refl _, by simp⟩

/-- A step that makes trees lighter, where a node with fewer children weighs no more. -/
structure Step.Shrinks (step : Step) (scale : Scale) : Prop where
  mono : ∀ k e {m n}, m ≤ n → scale k e m ≤ scale k e n
  shrunk : ∀ t, Shrunk scale t (step t)

theorem toNat_or_le (a b : Bool) : (a || b).toNat ≤ a.toNat + b.toNat := by
  cases a <;> cases b <;> decide

mutual

/-- A sweep that changes anything makes a tree lighter. -/
theorem Step.Shrinks.sweep (h : step.Shrinks scale) : ∀ t, Shrunk scale t (sweep step t)
  | .node kind text evaluated line children => by
    obtain ⟨hlength, hbelow⟩ := h.sweepAll children
    obtain ⟨hone, hstep⟩ := h.shrunk (.node kind text evaluated line (Tree.sweepAll step children).1)
    have hmono := h.mono kind evaluated hlength
    rw [Tree.sweep]
    refine ⟨hone, ?_⟩
    -- losing children makes the node lighter too, so the changes below it are paid for
    have hflag := toNat_or_le (Tree.sweepAll step children).2
      (step (.node kind text evaluated line (Tree.sweepAll step children).1)).2
    rw [weight] at hstep ⊢
    dsimp only
    omega

theorem Step.Shrinks.sweepAll (h : step.Shrinks scale) : ∀ ts,
    (sweepAll step ts).1.length ≤ ts.length ∧
      weightAll scale (sweepAll step ts).1 + (sweepAll step ts).2.toNat ≤ weightAll scale ts
  | [] => ⟨Nat.le_refl _, Nat.le_refl _⟩
  | t :: ts => by
    obtain ⟨hone, hfirst⟩ := h.sweep t
    obtain ⟨hlength, hrest⟩ := h.sweepAll ts
    have hflag := toNat_or_le (Tree.sweep step t).2 (Tree.sweepAll step ts).2
    rw [Tree.sweepAll]
    dsimp only
    rw [List.length_append, List.length_cons, weightAll_append, weightAll_cons]
    exact ⟨by omega, by omega⟩

end

theorem Step.Shrinks.sweepBelow (h : step.Shrinks scale) (t : Tree) :
    (sweepBelow step t).1.weight scale + (sweepBelow step t).2.toNat ≤ t.weight scale := by
  cases t with
  | node kind text evaluated line children =>
    obtain ⟨hlength, hbelow⟩ := h.sweepAll children
    have hmono := h.mono kind evaluated hlength
    rw [Tree.sweepBelow, weight, weight]
    dsimp only
    omega

end Shrinking

section Structure

/-- What structuring has to do: every node may go, a chain gets shorter, and numbers are
evaluated. -/
def structureScale : Scale := fun kind evaluated n =>
  1 + (n - 3) + if kind = .number ∧ evaluated = false then 1 else 0

theorem structureScale_le (kind : Kind) (evaluated : Bool) (n : Nat) :
    structureScale kind evaluated n ≤ n + 2 := by
  unfold structureScale
  split <;> omega

/-- To put at most one of its parts in the place of a node takes the node's own weight away. -/
theorem shrunk_parts {ts : List Tree} (hparts : ts.Sublist t.children) (hone : ts.length ≤ 1) :
    Shrunk structureScale t (ts, true) := by
  obtain ⟨evaluated, hweight⟩ := weight_eq structureScale t
  have hsub := @weightAll_sublist structureScale _ _ hparts
  have hnode : 1 ≤ structureScale t.kind evaluated t.children.length := by
    unfold structureScale
    omega
  refine ⟨hone, ?_⟩
  rw [hweight, Bool.toNat_true]
  dsimp only
  omega

/-- A chain gets shorter by two, at the price of one node. -/
theorem shrunk_chain {text : String} {evaluated : Bool} {line headLine : Nat} {ts : List Tree}
    (h : isOperatorChain ts = true) :
    Shrunk structureScale (.node .expression text evaluated line ts)
      ([.node .expression text evaluated line
        (.node .expression "" false headLine (ts.take 3) :: ts.drop 3)], true) := by
  have hlength : 5 ≤ ts.length := by
    simp only [isOperatorChain, Bool.and_eq_true, decide_eq_true_eq] at h
    exact h.1.1
  have hparts : weightAll structureScale (ts.take 3) + weightAll structureScale (ts.drop 3) =
      weightAll structureScale ts := by
    rw [← weightAll_append, List.take_append_drop]
  refine ⟨Nat.le_refl _, ?_⟩
  simp only [weight, weightAll, structureScale, List.length_cons, List.length_take,
    List.length_drop, reduceCtorEq, false_and, if_false, Bool.toNat_true]
  omega

/-- A number is lighter once it has been evaluated. -/
theorem shrunk_number {text : String} {line : Nat} {ts : List Tree} :
    Shrunk structureScale (.node .number text false line ts)
      ([.node .number text true line ts], true) := by
  refine ⟨Nat.le_refl _, ?_⟩
  simp only [weight, weightAll, structureScale, reduceCtorEq, and_self, and_false, if_true,
    if_false, Bool.toNat_true]
  omega

theorem structureStep_shrinks : structureStep.Shrinks structureScale := by
  refine ⟨?_, ?_⟩
  · intro k e m n hmn
    unfold structureScale
    omega
  · intro t
    cases t with
    | node kind text evaluated line children =>
      unfold structureStep
      dsimp only
      -- a number is evaluated once, and its weight for that goes
      split
      · split
        · exact .keep
        · rename_i hevaluated
          obtain rfl : evaluated = false := by simpa using hevaluated
          exact shrunk_number
      -- a comma and a semicolon leave nothing
      · exact shrunk_parts (List.nil_sublist _) (Nat.zero_le _)
      · exact shrunk_parts (List.nil_sublist _) (Nat.zero_le _)
      -- a wrapper leaves the one part it has
      · exact shrunk_parts (List.Sublist.refl _) (Nat.le_refl _)
      · split
        · split
          -- parentheses leave what is between them
          · exact shrunk_parts (.cons _ (.cons_cons _ (.cons _ .slnil))) (Nat.le_refl _)
          · exact .keep
        · split
          -- a chain of five or more gets shorter by two
          · exact shrunk_chain ‹_›
          · exact .keep
      · exact .keep

end Structure

section Group

/-- What grouping has to do: statements and expressions become other nodes, and arrays lose their
brackets. -/
def groupScale : Scale := fun kind _ n =>
  match kind with
  | .expression | .statement => 1
  | .array => if n ≤ 1 then 0 else 1
  | _ => 0

theorem groupScale_le (kind : Kind) (evaluated : Bool) (n : Nat) :
    groupScale kind evaluated n ≤ n + 2 := by
  unfold groupScale
  split
  · omega
  · omega
  · split <;> omega
  · exact Nat.zero_le _

theorem groupScale_of_grouped {kind : Kind} (h : kind.isUngrouped = false) (evaluated : Bool)
    (n : Nat) : groupScale kind evaluated n = 0 := by
  cases kind <;> first | rfl | cases h

theorem weight_of_grouped {kind : Kind} (h : kind.isUngrouped = false) {text : String}
    {evaluated : Bool} {line : Nat} {ts : List Tree} :
    (Tree.node kind text evaluated line ts).weight groupScale = weightAll groupScale ts := by
  rw [weight, groupScale_of_grouped h, Nat.zero_add]

/-- A chain of index reads weighs as much as its parts. -/
theorem weight_indexChain (t : Tree) (indices : List Tree) :
    (t.indexChain indices).1.weight groupScale + weightAll groupScale (t.indexChain indices).2 ≤
      t.weight groupScale + weightAll groupScale indices := by
  fun_induction indexChain t indices with
  | case1 text evaluated line base index rest indices ih =>
    rw [weight_of_grouped rfl, weightAll_cons, weightAll_cons]
    rw [weightAll_cons] at ih
    omega
  | case2 => exact Nat.le_refl _

theorem Grouped.shrunk {t : Tree} {result : List Tree × Bool} (h : Grouped t result) :
    -- only expressions and statements are grouped, and they weigh one more than their parts
    Shrunk groupScale t result := by
  obtain ⟨evaluated, hweight⟩ := weight_eq groupScale t
  have hone : t.kind = .expression ∨ t.kind = .statement →
      t.weight groupScale = 1 + weightAll groupScale t.children := by
    rintro (hkind | hkind)
    · rw [hweight, hkind, groupScale]
    · rw [hweight, hkind, groupScale]
  cases h with
  | keep => exact .keep
  | remove hkind hchildren =>
    refine ⟨Nat.zero_le _, ?_⟩
    rw [hone (Or.inr hkind), hchildren]
    exact Nat.le_refl _
  | collapse hkind hchildren _ =>
    refine ⟨Nat.le_refl _, ?_⟩
    rw [hone (Or.inr hkind), hchildren, Nat.add_comm]
    exact Nat.le_refl _
  | @unwrap text evaluated' l list r hkind hchildren =>
    refine ⟨Nat.le_refl _, ?_⟩
    rw [hweight, hkind, hchildren]
    have hfew : groupScale .array evaluated' [list].length = 0 := rfl
    have hmany : groupScale .array evaluated [l, list, r].length = 1 := rfl
    rw [hmany, weightAll_cons, weight, hfew, weightAll_nil, Bool.toNat_true]
    simp only [weightAll_cons, weightAll_nil]
    omega
  -- the new node weighs nothing of its own, and its parts were parts of the old one
  | @regroup kind text us hkind hus hnew _ =>
    refine ⟨Nat.le_refl _, ?_⟩
    have hparts := @weightAll_sublist groupScale _ _ hus
    rw [Tree.regroup, hone hkind]
    dsimp only
    rw [weightAll_cons, weight_of_grouped hnew, weightAll_nil, Bool.toNat_true]
    omega
  -- the indices leave their nodes, and the list that they are put in weighs nothing
  | @write target sign value hkind hchildren =>
    refine ⟨Nat.le_refl _, ?_⟩
    have hchain := weight_indexChain target []
    rw [Tree.regroup, hone (Or.inl hkind), hchildren]
    dsimp only
    rw [weightAll_cons, weight_of_grouped rfl]
    simp only [weightAll_cons, weightAll_nil, Bool.toNat_true] at hchain ⊢
    rw [weight_of_grouped rfl]
    omega

theorem groupStep_shrinks : groupStep.Shrinks groupScale := by
  refine ⟨?_, fun t => (grouped_groupStep t).shrunk⟩
  intro k e m n hmn
  unfold groupScale
  split
  · exact Nat.le_refl _
  · exact Nat.le_refl _
  · split <;> split <;> omega
  · exact Nat.le_refl _

end Group

end ScriptKit.Tree
