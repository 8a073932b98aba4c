import ScriptKit.Proofs.Arena.Steps
import ScriptKit.Proofs.Grammar.RawTree

namespace ScriptKit.Tree

open Grammar

section Fields

variable (kind : Kind) (text : String) (evaluated : Bool) (line : Nat) (children : List Tree)

@[simp] theorem kind_node : (node kind text evaluated line children).kind = kind := rfl

@[simp] theorem text_node : (node kind text evaluated line children).text = text := rfl

@[simp] theorem line_node : (node kind text evaluated line children).line = line := rfl

@[simp] theorem children_node : (node kind text evaluated line children).children = children := rfl

@[simp] theorem kind_leaf : (leaf kind text line).kind = kind := rfl

@[simp] theorem text_leaf : (leaf kind text line).text = text := rfl

end Fields

/-- The parts of a chain after a number of its first operands have been put below expressions of
their own. -/
def associate : Nat → List Tree → List Tree
  | n + 1, a :: o :: b :: c :: rest =>
    associate n (.node .expression "" false a.line [a, o, b] :: c :: rest)
  | _, ts => ts

/-- A node above parts that have no wrappers and no punctuation, where chains are associated to the
left so many times. -/
def collapse (n : Nat) (kind : Kind) (text : String) (evaluated : Bool) (line : Nat)
    (parts : List Tree) : Tree :=
  match kind, parts with
  | .number, _ => .node kind text true line parts
  | .expression, [only] => only
  | .expression, [l, inner, r] =>
    if l.hasKind .leftParen && r.hasKind .rightParen then inner
    else .node kind text evaluated line parts
  | .expression, _ =>
    .node kind text evaluated line (if isOperatorChain parts then associate n parts else parts)
  | _, _ => .node kind text evaluated line parts

def isSeparator (t : Tree) : Bool :=
  t.hasKind .comma || t.hasKind .semicolon

mutual

/-- A tree without wrappers and punctuation, its numbers evaluated. -/
def structured (n : Nat) : Tree → Tree
  | .node kind text evaluated line children =>
    collapse n kind text evaluated line (structuredAll n children)

def structuredAll (n : Nat) : List Tree → List Tree
  | [] => []
  | t :: ts => if t.isSeparator then structuredAll n ts else structured n t :: structuredAll n ts

end

theorem associate_one {ts : List Tree} (h : 3 < ts.length) :
    associate 1 ts = .node .expression "" false ((ts.head?.map Tree.line).getD 0) (ts.take 3) ::
      ts.drop 3 := by
  rcases ts with _ | ⟨a, _ | ⟨o, _ | ⟨b, _ | ⟨c, rest⟩⟩⟩⟩
  · simp at h
  · simp at h
  · simp at h
  · simp at h
  · rfl

theorem length_of_isOperatorChain {ts : List Tree} (h : isOperatorChain ts = true) :
    5 ≤ ts.length ∧ ts.length % 2 = 1 := by
  simp only [isOperatorChain, Bool.and_eq_true, decide_eq_true_eq] at h
  exact h.1

@[simp] theorem isSeparator_node (kind : Kind) (text : String) (evaluated : Bool) (line : Nat)
    (children : List Tree) : isSeparator (.node kind text evaluated line children) =
      (decide (kind = .comma) || decide (kind = .semicolon)) := rfl

/-- One structuring step does what one association does. -/
theorem structureStep_eq (kind : Kind) (text : String) (evaluated : Bool) (line : Nat)
    (parts : List Tree) :
    (structureStep (.node kind text evaluated line parts)).1 =
      if isSeparator (.node kind text evaluated line parts) then []
      else [collapse 1 kind text evaluated line parts] := by
  rw [isSeparator_node]
  unfold structureStep collapse
  -- numbers and separators are dealt with first, so that what is left has the shape of a collapse
  by_cases hnumber : kind = .number
  · subst hnumber
    cases evaluated <;> simp
  by_cases hcomma : kind = .comma
  · subst hcomma
    simp
  by_cases hsemicolon : kind = .semicolon
  · subst hsemicolon
    simp
  by_cases hexpr : kind = .expression
  swap
  · cases kind <;> first | contradiction | rfl
  subst hexpr
  simp only [reduceCtorEq, decide_false, Bool.or_self, Bool.false_eq_true, if_false]
  rcases parts with _ | ⟨a, _ | ⟨b, _ | ⟨c, _ | ⟨d, rest⟩⟩⟩⟩
  · rfl
  · rfl
  · simp [isOperatorChain]
  · dsimp only
    cases a.hasKind .leftParen && c.hasKind .rightParen <;> rfl
  · dsimp only
    cases isOperatorChain (a :: b :: c :: d :: rest) with
    | true => rw [if_pos rfl, if_pos rfl, associate_one (by simp)]
    | false => rfl

mutual

/-- A sweep over any tree strips it and associates every chain once. -/
theorem sweep_structureStep : ∀ t : Tree,
    (sweep structureStep t).1 = if t.isSeparator then [] else [structured 1 t]
  | .node kind text evaluated line children => by
    rw [sweep, structured]
    dsimp only
    rw [sweepAll_structureStep children, structureStep_eq]
    rfl

theorem sweepAll_structureStep : ∀ ts : List Tree,
    (sweepAll structureStep ts).1 = structuredAll 1 ts
  | [] => rfl
  | t :: ts => by
    rw [sweepAll, structuredAll]
    dsimp only
    rw [sweep_structureStep t, sweepAll_structureStep ts]
    split <;> rfl

end

section Alike

/-- Two trees with the same kind and line. -/
def Alike (t u : Tree) : Prop := t.kind = u.kind ∧ t.line = u.line

theorem Alike.hasKind_eq {t u : Tree} (h : Alike t u) (k : Kind) : t.hasKind k = u.hasKind k := by
  rw [hasKind, hasKind, h.1]

theorem isOperatorChain_congr {ts us : List Tree} (h : List.Forall₂ Alike ts us) :
    isOperatorChain ts = isOperatorChain us := by
  have hall : ∀ n, (ts.zipIdx n).all (fun x =>
      decide ((x.1.hasKind .operator = true) = (x.2 % 2 = 1))) =
      (us.zipIdx n).all fun x => decide ((x.1.hasKind .operator = true) = (x.2 % 2 = 1)) := by
    induction h with
    | nil => intro n; rfl
    | cons h _ ih =>
      intro n
      simp only [List.zipIdx_cons, List.all_cons, ih, h.hasKind_eq]
  simp only [isOperatorChain, h.length_eq, hall]

theorem alike_collapse (n m : Nat) (kind : Kind) (text : String) (evaluated : Bool) (line : Nat)
    {ts us : List Tree} (h : List.Forall₂ Alike ts us) :
    Alike (collapse n kind text evaluated line ts) (collapse m kind text evaluated line us) := by
  by_cases hexpr : kind = .expression
  swap
  · cases kind <;> first | contradiction | exact ⟨rfl, rfl⟩
  subst hexpr
  rcases h with _ | ⟨ha, _ | ⟨hb, _ | ⟨hc, _ | ⟨hd, hrest⟩⟩⟩⟩
  · exact ⟨rfl, rfl⟩
  · exact ha
  · exact ⟨rfl, rfl⟩
  · simp only [collapse, ha.hasKind_eq, hc.hasKind_eq]
    split
    · exact hb
    · exact ⟨rfl, rfl⟩
  · exact ⟨rfl, rfl⟩

mutual

theorem alike_structured (n m : Nat) : ∀ t : Tree, Alike (structured n t) (structured m t)
  | .node kind text evaluated line children => by
    rw [structured, structured]
    exact alike_collapse n m kind text evaluated line (alike_structuredAll n m children)

theorem alike_structuredAll (n m : Nat) : ∀ ts : List Tree,
    List.Forall₂ Alike (structuredAll n ts) (structuredAll m ts)
  | [] => .nil
  | t :: ts => by
    rw [structuredAll, structuredAll]
    split
    · exact alike_structuredAll n m ts
    · exact .cons (alike_structured n m t) (alike_structuredAll n m ts)

end

end Alike

section Chains

/-- What a list of operands and operators consists of, as far as its association needs it. -/
structure IsChain (t : Tree) (rest : List (Tree × Tree)) : Prop where
  first : t.isOperand = true
  operators : ∀ p ∈ rest, p.1.hasKind .operator = true
  operands : ∀ p ∈ rest, p.2.isOperand = true

theorem hasKind_of_isOperand {t : Tree} (h : t.isOperand = true) {k : Kind}
    (hk : k.isOperand = false) : t.hasKind k = false := by
  rw [hasKind, decide_eq_false_iff_not]
  rintro rfl
  rw [isOperand, hk] at h
  cases h

theorem interleaved_cons (t : Tree) (p : Tree × Tree) (rest : List (Tree × Tree)) :
    interleaved t (p :: rest) = t :: p.1 :: interleaved p.2 rest := rfl

theorem length_interleaved (t : Tree) (rest : List (Tree × Tree)) :
    (interleaved t rest).length = 2 * rest.length + 1 := by
  induction rest generalizing t with
  | nil => rfl
  | cons p rest ih =>
    rw [interleaved_cons, List.length_cons, List.length_cons, ih, List.length_cons]
    omega

theorem IsChain.isOperatorChain {t : Tree} {rest : List (Tree × Tree)} (h : IsChain t rest)
    (hlen : 2 ≤ rest.length) : isOperatorChain (interleaved t rest) = true := by
  have hall : ∀ (t : Tree) (rest : List (Tree × Tree)), IsChain t rest → ∀ n,
      ((interleaved t rest).zipIdx (2 * n)).all (fun x =>
        decide ((x.1.hasKind .operator = true) = (x.2 % 2 = 1))) = true := by
    intro t rest
    induction rest generalizing t with
    | nil =>
      intro h n
      simp [interleaved, hasKind_of_isOperand h.first (k := .operator) rfl]
    | cons p rest ih =>
      intro h n
      have hp := h.operators p List.mem_cons_self
      have hrest : IsChain p.2 rest :=
        ⟨h.operands p List.mem_cons_self, fun q hq => h.operators q (List.mem_cons_of_mem _ hq),
          fun q hq => h.operands q (List.mem_cons_of_mem _ hq)⟩
      have hodd : (2 * n + 1) % 2 = 1 := by omega
      have hnext := ih p.2 hrest (n + 1)
      rw [show 2 * (n + 1) = 2 * n + 1 + 1 by omega] at hnext
      rw [interleaved_cons, List.zipIdx_cons, List.zipIdx_cons, List.all_cons, List.all_cons, hnext]
      simp [hasKind_of_isOperand h.first (k := .operator) rfl, hp, hodd]
  simp only [Tree.isOperatorChain, length_interleaved, Bool.and_eq_true, decide_eq_true_eq]
  exact ⟨⟨by omega, by omega⟩, hall t rest h 0⟩

/-- A first operand with its operator and the next operand becomes the first operand of the rest
of the chain. -/
theorem IsChain.step {t : Tree} {p q : Tree × Tree} {rest : List (Tree × Tree)}
    (h : IsChain t (p :: q :: rest)) :
    IsChain (.node .expression "" false t.line [t, p.1, p.2]) (q :: rest) :=
  ⟨rfl, fun r hr => h.operators r (List.mem_cons_of_mem _ hr),
    fun r hr => h.operands r (List.mem_cons_of_mem _ hr)⟩

theorem associate_interleaved (n : Nat) (t : Tree) (p q : Tree × Tree)
    (rest : List (Tree × Tree)) : associate (n + 1) (interleaved t (p :: q :: rest)) =
      associate n (interleaved (.node .expression "" false t.line [t, p.1, p.2]) (q :: rest)) := rfl

theorem associate_three (n : Nat) (a o b : Tree) : associate n [a, o, b] = [a, o, b] := by
  cases n <;> rfl

variable {text : String} {evaluated : Bool} {line : Nat}

theorem collapse_three (n : Nat) {a o b : Tree} (ha : a.isOperand = true) :
    collapse n .expression text evaluated line [a, o, b] =
      .node .expression text evaluated line [a, o, b] := by
  simp [collapse, hasKind_of_isOperand ha (k := .leftParen) rfl]

/-- A chain with an operator is a node above its associated parts. -/
theorem IsChain.collapse (n : Nat) {t : Tree} {p : Tree × Tree} {rest : List (Tree × Tree)}
    (h : IsChain t (p :: rest)) :
    collapse n .expression text evaluated line (interleaved t (p :: rest)) =
      .node .expression text evaluated line (associate n (interleaved t (p :: rest))) := by
  cases rest with
  | nil =>
    rw [show interleaved t [p] = [t, p.1, p.2] from rfl, associate_three, collapse_three n h.first]
  | cons q rest =>
    have hchain := h.isOperatorChain (by simp)
    rw [interleaved_cons, interleaved_cons] at hchain ⊢
    simp only [Tree.collapse]
    rw [if_pos hchain]

theorem IsChain.isOperand_collapse {n : Nat} {t : Tree} {rest : List (Tree × Tree)}
    (h : IsChain t rest) :
    (Tree.collapse n .expression text evaluated line (interleaved t rest)).isOperand = true := by
  cases rest with
  | nil => exact h.first
  | cons p rest =>
    rw [h.collapse]
    rfl

/-- One more step associates a chain once more. -/
theorem IsChain.collapse_associate (n : Nat) : ∀ {t : Tree} {p : Tree × Tree}
    {rest : List (Tree × Tree)}, IsChain t (p :: rest) →
    Tree.collapse 1 .expression text evaluated line (associate n (interleaved t (p :: rest))) =
      .node .expression text evaluated line (associate (n + 1) (interleaved t (p :: rest))) := by
  induction n with
  | zero => intro t p rest h; exact h.collapse 1
  | succ n ih =>
    intro t p rest h
    cases rest with
    | nil =>
      rw [show interleaved t [p] = [t, p.1, p.2] from rfl, associate_three, associate_three,
        collapse_three 1 h.first]
    | cons q rest =>
      rw [associate_interleaved, associate_interleaved, ih h.step]

end Chains

section Again

theorem structuredAll_eq (n : Nat) (ts : List Tree) :
    structuredAll n ts = (ts.filter fun t => !t.isSeparator).map (structured n) := by
  induction ts with
  | nil => rfl
  | cons t ts ih =>
    rw [structuredAll, ih]
    cases h : t.isSeparator <;> simp [h]

theorem structuredAll_of_not_separator (n : Nat) {ts : List Tree}
    (h : ∀ t ∈ ts, t.isSeparator = false) : structuredAll n ts = ts.map (structured n) := by
  rw [structuredAll_eq, List.filter_eq_self.mpr]
  intro t ht
  rw [h t ht, Bool.not_false]

theorem isSeparator_collapse (n : Nat) {kind : Kind} {text : String} {evaluated : Bool} {line : Nat}
    {parts : List Tree}
    (hkind : isSeparator (.node kind text evaluated line parts) = false)
    (hparts : ∀ t ∈ parts, t.isSeparator = false) :
    (collapse n kind text evaluated line parts).isSeparator = false := by
  by_cases hexpr : kind = .expression
  swap
  · rw [isSeparator_node] at hkind
    cases kind <;> first | contradiction | rfl
  subst hexpr
  rcases parts with _ | ⟨a, _ | ⟨b, _ | ⟨c, _ | ⟨d, rest⟩⟩⟩⟩
  · rfl
  · exact hparts a (by simp)
  · rfl
  · simp only [collapse]
    split
    · exact hparts b (by simp)
    · rfl
  · rfl

mutual

theorem isSeparator_structured (n : Nat) : ∀ t : Tree, t.isSeparator = false →
    (structured n t).isSeparator = false
  | .node kind text evaluated line children, h => by
    rw [structured]
    rw [isSeparator_node] at h
    exact isSeparator_collapse n h (isSeparator_structuredAll n children)

theorem isSeparator_structuredAll (n : Nat) : ∀ ts : List Tree,
    ∀ t ∈ structuredAll n ts, t.isSeparator = false
  | [], t, ht => by cases ht
  | t :: ts, u, hu => by
    rw [structuredAll] at hu
    split at hu
    · exact isSeparator_structuredAll n ts u hu
    · rename_i hsep
      rcases List.mem_cons.mp hu with rfl | hu
      · exact isSeparator_structured n t (by simpa using hsep)
      · exact isSeparator_structuredAll n ts u hu

end

theorem IsChain.not_separator {t : Tree} {rest : List (Tree × Tree)} (h : IsChain t rest) :
    ∀ u ∈ interleaved t rest, u.isSeparator = false := by
  have hoperand : ∀ u : Tree, u.isOperand = true → u.isSeparator = false := by
    intro u hu
    rw [isSeparator, hasKind_of_isOperand hu (k := .comma) rfl,
      hasKind_of_isOperand hu (k := .semicolon) rfl]
    rfl
  intro u hu
  rcases List.mem_cons.mp hu with rfl | hu
  · exact hoperand u h.first
  · obtain ⟨p, hp, hu⟩ := List.mem_flatMap.mp hu
    have hoperator : p.1.kind = .operator := by simpa [hasKind] using h.operators p hp
    rcases (by simpa using hu : u = p.1 ∨ u = p.2) with rfl | rfl
    · simp [isSeparator, hasKind, hoperator]
    · exact hoperand _ (h.operands p hp)

/-- To associate a chain and to strip its parts can be done in either order. -/
theorem IsChain.structuredAll_associate (n : Nat) : ∀ {t : Tree} {p : Tree × Tree}
    {rest : List (Tree × Tree)}, IsChain t (p :: rest) →
    (∀ u ∈ interleaved t (p :: rest), Alike u (structured 1 u)) →
    structuredAll 1 (associate n (interleaved t (p :: rest))) =
      associate n (structuredAll 1 (interleaved t (p :: rest))) := by
  induction n with
  | zero => intro t p rest _ _; rfl
  | succ n ih =>
    intro t p rest h halike
    have hparts := structuredAll_of_not_separator 1 h.not_separator
    cases rest with
    | nil =>
      rw [show interleaved t [p] = [t, p.1, p.2] from rfl] at hparts ⊢
      rw [associate_three, hparts]
      exact (associate_three _ _ _ _).symm
    -- the first three parts become one node, which is as good an operand as the first part was
    | cons q rest =>
      have ht := halike t (by simp [interleaved])
      have hfirst : (structured 1 t).isOperand = true := by
        rw [isOperand, ← ht.1]
        exact h.first
      have hnew : structured 1 (.node .expression "" false t.line [t, p.1, p.2]) =
          .node .expression "" false (structured 1 t).line
            [structured 1 t, structured 1 p.1, structured 1 p.2] := by
        have hthree : structuredAll 1 [t, p.1, p.2] = [t, p.1, p.2].map (structured 1) := by
          refine structuredAll_of_not_separator 1 fun u hu => h.not_separator u ?_
          rw [interleaved_cons, interleaved_cons]
          rcases (by simpa using hu : u = t ∨ u = p.1 ∨ u = p.2) with rfl | rfl | rfl <;> simp
        rw [structured, hthree, ← ht.2]
        exact collapse_three 1 hfirst
      rw [associate_interleaved, ih h.step, structuredAll_of_not_separator 1 h.step.not_separator,
        hparts, interleaved_cons, interleaved_cons, interleaved_cons]
      · simp only [List.map_cons, hnew]
        rfl
      · intro u hu
        rcases List.mem_cons.mp hu with rfl | hu
        · rw [hnew]
          exact ⟨rfl, ht.2⟩
        · refine halike u ?_
          rw [interleaved_cons]
          exact List.mem_cons_of_mem _ (List.mem_cons_of_mem _ (List.mem_cons_of_mem _ hu))

/-- The condition on the parts of an expression under which its association goes on. -/
def ChainOfOperands (ts : List Tree) : Prop :=
  isOperatorChain ts = true → ∃ t p rest, IsChain t (p :: rest) ∧ ts = interleaved t (p :: rest)

theorem collapse_of_not_chain (n m : Nat) {kind : Kind} {text : String} {evaluated : Bool}
    {line : Nat} {parts : List Tree} (h : isOperatorChain parts = false) :
    collapse n kind text evaluated line parts = collapse m kind text evaluated line parts := by
  unfold collapse
  split <;> try rfl
  rw [h]
  rfl

/-- Only expressions collapse. -/
theorem collapse_of_ne_expression (n : Nat) {kind : Kind} (h : kind ≠ .expression) (text : String)
    (evaluated : Bool) (line : Nat) (parts : List Tree) :
    collapse n kind text evaluated line parts =
      .node kind text (evaluated || kind = .number) line parts := by
  cases kind <;> first | contradiction | simp [collapse]

/-- The parts of an expression that no operators hold together. -/
theorem structured_collapse_flat (n : Nat) {text : String} {evaluated : Bool} {line : Nat}
    {parts : List Tree} (hmap : structuredAll 1 parts = parts.map (structured 1))
    (halike : List.Forall₂ Alike parts (parts.map (structured 1)))
    (hc : isOperatorChain parts = false) :
    structured 1 (collapse n .expression text evaluated line parts) =
      collapse 1 .expression text evaluated line (parts.map (structured 1)) := by
  have hc' := hc
  rw [isOperatorChain_congr halike] at hc'
  rcases parts with _ | ⟨a, _ | ⟨b, _ | ⟨c, _ | ⟨d, rest⟩⟩⟩⟩
  · rfl
  · rfl
  · simp only [collapse, hc, Bool.false_eq_true, if_false, structured, hmap, hc']
  · -- parentheses around one part go, and otherwise the three stay as they are
    rw [List.forall₂_map_right_iff, List.forall₂_same] at halike
    simp only [collapse, List.map_cons, List.map_nil]
    rw [← (halike a (by simp)).hasKind_eq, ← (halike c (by simp)).hasKind_eq]
    split
    · rfl
    · rename_i hparen
      rw [structured, hmap]
      simp only [collapse, List.map_cons, List.map_nil]
      rw [← (halike a (by simp)).hasKind_eq, ← (halike c (by simp)).hasKind_eq, if_neg hparen]
  · simp only [collapse, hc, Bool.false_eq_true, if_false, structured, hmap]

theorem structured_collapse (n : Nat) {kind : Kind} {text : String} {evaluated : Bool} {line : Nat}
    {parts parts' : List Tree} (hall : structuredAll 1 parts = parts')
    (halike : List.Forall₂ Alike parts parts') (hsep : ∀ t ∈ parts, t.isSeparator = false)
    (hchain : kind = .expression → ChainOfOperands parts ∧ ChainOfOperands parts') :
    structured 1 (collapse n kind text evaluated line parts) =
      collapse (n + 1) kind text evaluated line parts' := by
  subst hall
  have hmap := structuredAll_of_not_separator 1 hsep
  by_cases hexpr : kind = .expression
  · subst hexpr
    obtain ⟨hchain, hchain'⟩ := hchain rfl
    cases hc : isOperatorChain parts with
    | true =>
      obtain ⟨t, p, rest, h, rfl⟩ := hchain hc
      rw [isOperatorChain_congr halike] at hc
      -- the parts are a chain of operands after structuring too
      obtain ⟨t', p', rest', h', he⟩ := hchain' hc
      have hsame : ∀ u ∈ interleaved t (p :: rest), Alike u (structured 1 u) := by
        rw [hmap, List.forall₂_map_right_iff, List.forall₂_same] at halike
        exact halike
      rw [h.collapse, structured, h.structuredAll_associate n hsame, he, h'.collapse_associate,
        h'.collapse]
    -- what is no chain now is none after structuring
    | false =>
      have hc' := hc
      rw [isOperatorChain_congr halike] at hc'
      rw [collapse_of_not_chain (n + 1) 1 hc', hmap]
      rw [hmap] at halike
      exact structured_collapse_flat n hmap halike hc
  · rw [collapse_of_ne_expression n hexpr, collapse_of_ne_expression (n + 1) hexpr, structured,
      collapse_of_ne_expression 1 hexpr]
    simp

mutual

/-- In every expression of a tree whose parts alternate with operators these parts are operands. -/
def Chained : Tree → Prop
  | .node kind _ _ _ children =>
    ChainedAll children ∧ (kind = .expression → ∀ n, ChainOfOperands (structuredAll n children))

def ChainedAll : List Tree → Prop
  | [] => True
  | t :: ts => Chained t ∧ ChainedAll ts

end

mutual

theorem structured_structured (n : Nat) : ∀ t : Tree, Chained t →
    structured 1 (structured n t) = structured (n + 1) t
  | .node kind text evaluated line children, h => by
    rw [Chained] at h
    rw [structured, structured]
    exact structured_collapse n (structuredAll_structuredAll n children h.1)
      (alike_structuredAll n (n + 1) children) (isSeparator_structuredAll n children)
      fun hk => ⟨h.2 hk n, h.2 hk (n + 1)⟩

theorem structuredAll_structuredAll (n : Nat) : ∀ ts : List Tree, ChainedAll ts →
    structuredAll 1 (structuredAll n ts) = structuredAll (n + 1) ts
  | [], _ => rfl
  | t :: ts, h => by
    rw [ChainedAll] at h
    rw [structuredAll, structuredAll]
    cases hs : t.isSeparator with
    | true => exact structuredAll_structuredAll n ts h.2
    | false =>
      simp only [Bool.false_eq_true, if_false, structuredAll, isSeparator_structured n t hs,
        structured_structured n t h.1, structuredAll_structuredAll n ts h.2]

end

/-- Every sweep strips a tree and associates its chains once more. -/
theorem iterate_sweep_structureStep {kind : Kind} {text : String} {evaluated : Bool} {line : Nat}
    {ts : List Tree} (h : ChainedAll ts) (n : Nat) :
    (fun t => (sweepBelow structureStep t).1)^[n + 1] (.node kind text evaluated line ts) =
      .node kind text evaluated line (structuredAll (n + 1) ts) := by
  induction n with
  | zero =>
    show Tree.node kind text evaluated line (sweepAll structureStep ts).1 = _
    rw [sweepAll_structureStep]
  | succ n ih =>
    rw [Function.iterate_succ_apply', ih]
    show Tree.node kind text evaluated line (sweepAll structureStep (structuredAll (n + 1) ts)).1 = _
    rw [sweepAll_structureStep, structuredAll_structuredAll (n + 1) ts h]

end Again

end ScriptKit.Tree
