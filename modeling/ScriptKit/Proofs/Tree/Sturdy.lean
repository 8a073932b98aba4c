import ScriptKit.Proofs.Tree.Grouping

namespace ScriptKit.Tree

variable {t u : Tree} {ts us : List Tree} {kind : Kind} {text : String} {evaluated : Bool}
  {line : Nat}

section Tidy

/-- An expression is not the wrapper of a single part, and has no parentheses around anything but
an operator. -/
structure Bare (parts : List Tree) : Prop where
  ne_singleton : ∀ only, parts ≠ [only]
  operator_of_parens : ∀ l inner r, parts = [l, inner, r] → l.hasKind .leftParen = true →
    r.hasKind .rightParen = true → inner.kind = .operator

mutual

/-- The shape that structuring gives a tree: all expressions are bare, and there are no commas and
semicolons. -/
def Tidy : Tree → Prop
  | .node kind _ _ _ children => (kind = .expression → Bare children) ∧ TidyAll children

def TidyAll : List Tree → Prop
  | [] => True
  | t :: ts => (t.isSeparator = false ∧ Tidy t) ∧ TidyAll ts

end

theorem tidyAll_iff : TidyAll ts ↔ ∀ t ∈ ts, t.isSeparator = false ∧ t.Tidy := by
  induction ts with
  | nil => simp [TidyAll]
  | cons t ts ih => simp [TidyAll, ih]

theorem tidy_of_kind (h : kind ≠ .expression) (hts : TidyAll ts) :
    Tidy (.node kind text evaluated line ts) :=
  ⟨fun he => absurd he h, hts⟩

theorem bare_of_length (h : ts.length ≠ 1) (h' : ts.length ≠ 3) : Bare ts := by
  refine ⟨?_, ?_⟩
  · rintro only rfl
    exact h rfl
  · rintro l inner r rfl
    exact absurd rfl h'

/-- The first parts of a chain are an operand, an operator and an operand. -/
theorem kinds_of_isOperatorChain {a o b : Tree} {rest : List Tree}
    (h : isOperatorChain (a :: o :: b :: rest) = true) : o.kind = .operator := by
  simp only [isOperatorChain, Bool.and_eq_true, List.all_eq_true] at h
  have ho := h.2 (o, 1) (by simp [List.zipIdx_cons])
  simpa [hasKind] using ho

theorem tidy_associate (h : isOperatorChain ts = true) (hts : TidyAll ts) :
    Tidy (.node .expression text evaluated line (associate 1 ts)) := by
  have hlength := length_of_isOperatorChain h
  rcases ts with _ | ⟨a, _ | ⟨o, _ | ⟨b, _ | ⟨c, rest⟩⟩⟩⟩
  · simp at hlength
  · simp at hlength
  · simp at hlength
  · simp at hlength
  · obtain ⟨ha, ho, hb, hrest⟩ := hts
    have hoperator := kinds_of_isOperatorChain h
    have hhead : Tidy (.node .expression "" false a.line [a, o, b]) := by
      refine ⟨fun _ => ⟨by simp, ?_⟩, ha, ho, hb, trivial⟩
      intro l inner r hparts _ _
      obtain ⟨-, rfl, -⟩ : a = l ∧ o = inner ∧ b = r := by simpa using hparts
      exact hoperator
    refine ⟨fun _ => ⟨by simp [associate], ?_⟩, ⟨rfl, hhead⟩, hrest⟩
    -- the first part of what is left is an expression, not a parenthesis
    intro l inner r hparts hl
    obtain ⟨rfl, -⟩ :
        Tree.node .expression "" false a.line [a, o, b] = l ∧ c :: rest = [inner, r] := by
      simpa [associate] using hparts
    cases hl

theorem tidy_collapse (hts : TidyAll ts) : Tidy (collapse 1 kind text evaluated line ts) := by
  by_cases hexpr : kind = .expression
  swap
  · have hnode : ∀ e, Tidy (.node kind text e line ts) := fun _ => tidy_of_kind hexpr hts
    cases kind <;> first | contradiction | exact hnode _
  subst hexpr
  have hall := tidyAll_iff.mp hts
  have hnode : Bare ts → Tidy (.node .expression text evaluated line ts) :=
    fun hbare => ⟨fun _ => hbare, hts⟩
  rcases ts with _ | ⟨a, _ | ⟨b, _ | ⟨c, _ | ⟨d, rest⟩⟩⟩⟩
  · exact hnode (bare_of_length (by decide) (by decide))
  · exact (hall a (by simp)).2
  · exact hnode (bare_of_length (by simp) (by simp))
  · simp only [collapse]
    -- parentheses are gone after this, and nothing else has them around its part
    split
    · exact (hall b (by simp)).2
    · rename_i hparens
      refine hnode ⟨by simp, ?_⟩
      intro l inner r hparts hl hr
      obtain ⟨rfl, -, rfl⟩ : a = l ∧ b = inner ∧ c = r := by simpa using hparts
      rw [hl, hr] at hparens
      exact absurd rfl hparens
  · simp only [collapse]
    split
    · exact tidy_associate ‹_› hts
    · exact hnode (bare_of_length (by simp) (by simp))

mutual

/-- Structuring makes trees tidy. -/
theorem tidy_structured : ∀ t : Tree, Tidy (structured 1 t)
  | .node _ _ _ _ children => by
    rw [structured]
    exact tidy_collapse (tidyAll_structuredAll children)

theorem tidyAll_structuredAll : ∀ ts : List Tree, TidyAll (structuredAll 1 ts)
  | [] => trivial
  | t :: ts => by
    rw [structuredAll]
    split
    · exact tidyAll_structuredAll ts
    · rename_i hsep
      exact ⟨⟨isSeparator_structured 1 t (Bool.eq_false_iff.mpr hsep), tidy_structured t⟩,
        tidyAll_structuredAll ts⟩

end

end Tidy

section Kept

/-- A tree has the kind that it had, or has been an expression and is an operator now. -/
def Kept (t u : Tree) : Prop :=
  u.kind = t.kind ∨ t.kind = .expression ∧ u.kind = .operator

theorem Kept.hasKind_of_hasKind {k : Kind} (h : Kept t u) (hk : k ≠ .operator)
    (hu : u.hasKind k = true) : t.hasKind k = true := by
  simp only [hasKind, decide_eq_true_eq] at hu ⊢
  rcases h with h | ⟨-, h⟩
  · exact h.symm.trans hu
  · exact absurd (hu.symm.trans h) hk

theorem kept_collapse (hbare : kind = .expression → Bare ts) (h : List.Forall₂ Kept ts us) :
    Kept (.node kind text evaluated line ts) (collapse 1 kind text evaluated line us) := by
  by_cases hexpr : kind = .expression
  swap
  · cases kind <;> first | contradiction | exact Or.inl rfl
  subst hexpr
  rcases h with _ | ⟨ha, _ | ⟨hb, _ | ⟨hc, _ | ⟨hd, hrest⟩⟩⟩⟩
  · exact Or.inl rfl
  · exact absurd rfl ((hbare rfl).ne_singleton _)
  · exact Or.inl rfl
  · simp only [collapse]
    split
    · rename_i hparens
      obtain ⟨hl, hr⟩ := Bool.and_eq_true_iff.mp hparens
      -- structuring makes no parentheses, so these have been around the part before
      have hinner := (hbare rfl).operator_of_parens _ _ _ rfl (ha.hasKind_of_hasKind (by decide) hl)
        (hc.hasKind_of_hasKind (by decide) hr)
      refine Or.inr ⟨rfl, ?_⟩
      rcases hb with hb | ⟨hb, -⟩
      · exact hb.trans hinner
      · rw [hb] at hinner
        cases hinner
    · exact Or.inl rfl
  · exact Or.inl rfl

mutual

/-- Structuring a tidy tree keeps its kind, but for an operator in parentheses. -/
theorem kept_structured : ∀ t : Tree, t.Tidy → Kept t (structured 1 t)
  | .node _ _ _ _ children, h => by
    rw [structured]
    exact kept_collapse h.1 (kept_structuredAll children h.2)

theorem kept_structuredAll : ∀ ts : List Tree, TidyAll ts →
    List.Forall₂ Kept ts (structuredAll 1 ts)
  | [], _ => .nil
  | t :: ts, h => by
    rw [structuredAll, h.1.1]
    exact .cons (kept_structured t h.1.2) (kept_structuredAll ts h.2)

end

mutual

theorem vanishes_structured : ∀ t : Tree, t.Tidy → (structured 1 t).vanishes = t.vanishes
  | .node kind text evaluated line children, h => by
    by_cases hkind : kind = .statement
    · subst hkind
      rw [structured, vanishes, ← vanishAll_structuredAll children h.2]
      exact vanishes.eq_1 ..
    · have hafter : (structured 1 (.node kind text evaluated line children)).kind ≠ .statement := by
        rcases kept_structured _ h with hkept | ⟨-, hkept⟩
        · rw [hkept]
          exact hkind
        · rw [hkept]
          decide
      rw [vanishes_of_kind hafter, vanishes_of_kind (by simpa using hkind)]

theorem vanishAll_structuredAll : ∀ ts : List Tree, TidyAll ts →
    vanishAll (structuredAll 1 ts) = vanishAll ts
  | [], _ => rfl
  | t :: ts, h => by
    rw [structuredAll, h.1.1]
    show vanishAll (structured 1 t :: structuredAll 1 ts) = _
    rw [vanishAll, vanishAll, vanishes_structured t h.1.2, vanishAll_structuredAll ts h.2]

end

end Kept

section Sturdy

/-- Whether nothing is left of a tree after its structuring and grouping. -/
def perishes (t : Tree) : Bool :=
  t.isSeparator || (structured 1 t).vanishes

theorem perishes_eq_false_iff :
    t.perishes = false ↔ t.isSeparator = false ∧ (structured 1 t).vanishes = false :=
  Bool.or_eq_false_iff

theorem perishes_structured (h : t.perishes = false) : (structured 1 t).perishes = false := by
  obtain ⟨hsep, hleft⟩ := perishes_eq_false_iff.mp h
  refine perishes_eq_false_iff.mpr ⟨isSeparator_structured 1 t hsep, ?_⟩
  rwa [vanishes_structured _ (tidy_structured t)]

/-- What is tidy perishes only if it vanishes when it is grouped. -/
theorem Tidy.vanishes_eq (ht : t.Tidy) (h : t.perishes = false) : t.vanishes = false := by
  rw [← vanishes_structured t ht]
  exact (perishes_eq_false_iff.mp h).2

/-- A tree in which no part of an index read perishes. -/
abbrev Sturdy (t : Tree) : Prop :=
  t.Firm perishes

abbrev SturdyAll (ts : List Tree) : Prop :=
  FirmAll perishes ts

/-- A sturdy tree is so when its children have been structured. -/
theorem Sturdy.structured_children (h : Sturdy (.node kind text evaluated line ts))
    (hall : SturdyAll (structuredAll 1 ts)) :
    Sturdy (.node kind text evaluated line (structuredAll 1 ts)) := by
  refine ⟨fun hkind => ?_, hall⟩
  obtain ⟨l, r, rfl, hl, hr⟩ := h.1 hkind
  refine ⟨structured 1 l, structured 1 r, ?_, perishes_structured hl, perishes_structured hr⟩
  rw [structuredAll, structuredAll, (perishes_eq_false_iff.mp hl).1, (perishes_eq_false_iff.mp hr).1]
  rfl

theorem sturdy_collapse (hts : SturdyAll ts) (h : Sturdy (.node kind text evaluated line ts)) :
    Sturdy (collapse 1 kind text evaluated line ts) := by
  have hall := firmAll_iff.mp hts
  by_cases hexpr : kind = .expression
  swap
  · cases kind <;> first | contradiction | exact h
  subst hexpr
  rcases ts with _ | ⟨a, _ | ⟨b, _ | ⟨c, _ | ⟨d, rest⟩⟩⟩⟩
  · exact h
  · exact hall a (by simp)
  · exact h
  · simp only [collapse]
    split
    · exact hall b (by simp)
    · exact h
  · simp only [collapse]
    split
    · obtain ⟨ha, hb, hc, hrest⟩ := hts
      exact firm_of_kind (by decide) ⟨firm_of_kind (by decide) ⟨ha, hb, hc, trivial⟩, hrest⟩
    · exact h

mutual

/-- Structuring keeps trees sturdy. -/
theorem Sturdy.structured : ∀ {t : Tree}, Sturdy t → Sturdy (Tree.structured 1 t)
  | .node _ _ _ _ children, h => by
    have hall : SturdyAll (structuredAll 1 children) := SturdyAll.structuredAll h.2
    rw [Tree.structured]
    exact sturdy_collapse hall (h.structured_children hall)

theorem SturdyAll.structuredAll : ∀ {ts : List Tree}, SturdyAll ts →
    SturdyAll (Tree.structuredAll 1 ts)
  | [], _ => trivial
  | t :: ts, h => by
    rw [Tree.structuredAll]
    split
    · exact SturdyAll.structuredAll h.2
    · exact ⟨Sturdy.structured h.1, SturdyAll.structuredAll h.2⟩

end

mutual

/-- Grouping finds a sturdy tree firm once it is tidy. -/
theorem Sturdy.firm : ∀ {t : Tree}, Sturdy t → TidyAll t.children → t.Firm vanishes
  | .node kind text evaluated line children, h, htidy => by
    refine ⟨fun hkind => ?_, SturdyAll.firm h.2 htidy⟩
    obtain ⟨l, r, rfl, hl, hr⟩ := h.1 hkind
    exact ⟨l, r, rfl, htidy.1.2.vanishes_eq hl, htidy.2.1.2.vanishes_eq hr⟩

theorem SturdyAll.firm : ∀ {ts : List Tree}, SturdyAll ts → TidyAll ts → FirmAll vanishes ts
  | [], _, _ => trivial
  | .node _ _ _ _ _ :: _, h, htidy => ⟨Sturdy.firm h.1 htidy.1.2.2, SturdyAll.firm h.2 htidy.2⟩

end

theorem sweepBelow_structureStep (t : Tree) : ∃ evaluated, (sweepBelow structureStep t).1 =
    .node t.kind t.text evaluated t.line (structuredAll 1 t.children) := by
  cases t with
  | node kind text evaluated line children =>
    refine ⟨evaluated, ?_⟩
    rw [sweepBelow, sweepAll_structureStep]
    rfl

theorem Sturdy.sweepBelow (h : Sturdy t) : Sturdy (Tree.sweepBelow structureStep t).1 := by
  cases t with
  | node kind text evaluated line children =>
    rw [Tree.sweepBelow, sweepAll_structureStep]
    exact h.structured_children (SturdyAll.structuredAll h.2)

/-- Structuring leaves a sturdy tree firm. -/
theorem Sturdy.settle (h : Sturdy t) (n : Nat) :
    (Tree.settle structureStep (n + 1) t).Firm vanishes := by
  have hsturdy : ∀ n, Sturdy ((fun t => (Tree.sweepBelow structureStep t).1)^[n] t) := by
    intro n
    induction n with
    | zero => exact h
    | succ n ih =>
      rw [Function.iterate_succ_apply']
      exact ih.sweepBelow
  -- the last sweep makes the children tidy, whatever the others have left
  rw [settle_eq_iterate structureStep_honest]
  have hlast := hsturdy (n + 1)
  rw [Function.iterate_succ_apply'] at hlast ⊢
  obtain ⟨evaluated, heq⟩ := sweepBelow_structureStep
    ((fun t => (Tree.sweepBelow structureStep t).1)^[n] t)
  rw [heq] at hlast ⊢
  exact hlast.firm (tidyAll_structuredAll _)

end Sturdy

end ScriptKit.Tree
