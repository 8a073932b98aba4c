import ScriptKit.Proofs.Program.Normal

namespace ScriptKit

namespace Tree

mutual

/-- The nodes of a tree, each with what is below it. -/
def subtrees : Tree → List Tree
  | .node kind text evaluated line children =>
    .node kind text evaluated line children :: subtreesAll children

def subtreesAll : List Tree → List Tree
  | [] => []
  | t :: ts => subtrees t ++ subtreesAll ts

end

theorem self_mem_subtrees (t : Tree) : t ∈ t.subtrees := by
  cases t
  rw [subtrees]
  exact List.mem_cons_self

theorem mem_subtreesAll {t : Tree} {ts : List Tree} :
    t ∈ subtreesAll ts ↔ ∃ u ∈ ts, t ∈ u.subtrees := by
  induction ts with
  | nil => simp [subtreesAll]
  | cons u ts ih => simp [subtreesAll, ih]

theorem mem_subtrees_of_mem_children {t u : Tree} (h : u ∈ t.children) : u ∈ t.subtrees := by
  cases t
  rw [subtrees]
  exact List.mem_cons_of_mem _ (mem_subtreesAll.mpr ⟨u, h, u.self_mem_subtrees⟩)

mutual

theorem mem_subtrees_trans : ∀ {t u v : Tree}, u ∈ t.subtrees → v ∈ u.subtrees → v ∈ t.subtrees
  | .node kind text evaluated line children, u, v, hu, hv => by
    rw [subtrees] at hu ⊢
    rcases List.mem_cons.mp hu with rfl | hu
    · rwa [subtrees] at hv
    · exact List.mem_cons_of_mem _ (mem_subtreesAll_trans hu hv)

theorem mem_subtreesAll_trans : ∀ {ts : List Tree} {u v : Tree}, u ∈ subtreesAll ts →
    v ∈ u.subtrees → v ∈ subtreesAll ts
  | [], u, v, hu, _ => by cases hu
  | t :: ts, u, v, hu, hv => by
    rw [subtreesAll] at hu ⊢
    rcases List.mem_append.mp hu with hu | hu
    · exact List.mem_append_left _ (mem_subtrees_trans hu hv)
    · exact List.mem_append_right _ (mem_subtreesAll_trans hu hv)

end

mutual

theorem fits_of_shaped : ∀ {t : Tree}, t.shaped = true → ∀ u ∈ t.subtrees, u.fits = true
  | .node kind text evaluated line children, h, u, hu => by
    rw [shaped, Bool.and_eq_true] at h
    rw [subtrees] at hu
    rcases List.mem_cons.mp hu with rfl | hu
    · exact h.1
    · exact fits_of_shapedAll h.2 u hu

theorem fits_of_shapedAll : ∀ {ts : List Tree}, shapedAll ts = true →
    ∀ u ∈ subtreesAll ts, u.fits = true
  | [], _, u, hu => by cases hu
  | t :: ts, h, u, hu => by
    rw [shapedAll, Bool.and_eq_true] at h
    rw [subtreesAll] at hu
    rcases List.mem_append.mp hu with hu | hu
    · exact fits_of_shaped h.1 u hu
    · exact fits_of_shapedAll h.2 u hu

end

/-- An assignment to something that cannot be assigned to. -/
def IsStray (e : Tree) : Prop :=
  ∃ target sign value, e.kind = .expression ∧ e.children = [target, sign, value] ∧
    sign.kind = .assignment ∧ target.kind ≠ .identifier ∧ target.kind ≠ .member ∧
    target.kind ≠ .index

theorem isStray_of_expression {t : Tree} (h : t.fits = true) (hk : t.kind = .expression) :
    t.IsStray := by
  obtain ⟨kind, text, evaluated, line, children⟩ := t
  obtain rfl : kind = .expression := hk
  rcases children with _ | ⟨target, _ | ⟨sign, _ | ⟨value, _ | ⟨d, rest⟩⟩⟩⟩
  · simp [fits] at h
  · simp [fits] at h
  · simp [fits] at h
  · simp only [fits, hasKind, Bool.and_eq_true, Bool.not_eq_true', Bool.or_eq_false_iff,
      decide_eq_true_eq, decide_eq_false_iff_not] at h
    exact ⟨target, sign, value, rfl, rfl, h.1.1.2, h.2.1.1, h.2.1.2, h.2.2⟩
  · simp [fits] at h

theorem not_isTerminal_of_isValue {t : Tree} (h : t.isValue = true) : t.kind.isTerminal = false := by
  rw [isValue] at h
  generalize t.kind = k at h
  cases k <;> first | rfl | cases h

theorem not_isTerminal_of_hasKind {t : Tree} {k : Kind} (h : t.hasKind k = true)
    (hk : k.isTerminal = false) : t.kind.isTerminal = false := by
  rw [hasKind_iff.mp h, hk]

/-- Only an assignment that cannot be evaluated has a sign below it. -/
theorem isStray_of_terminal {t c : Tree} (h : t.fits = true) (hc : c ∈ t.children)
    (hterminal : c.kind.isTerminal = true) : t.IsStray := by
  have hvalue : c.isValue = false := by
    by_contra hv
    rw [not_isTerminal_of_isValue (by simpa using hv)] at hterminal
    cases hterminal
  have hkind : ∀ k : Kind, k.isTerminal = false → c.hasKind k = false := by
    intro k hk
    by_contra hc
    rw [not_isTerminal_of_hasKind (by simpa using hc) hk] at hterminal
    cases hterminal
  have hstatement : c.kind.isStatement = false := by
    generalize c.kind = k at hterminal
    cases k <;> first | rfl | cases hterminal
  cases t with
  | node kind text evaluated line children =>
    rw [children_node] at hc
    by_cases hexpr : kind = .expression
    · exact isStray_of_expression h hexpr
    · -- the children of any other node have a value, are a statement or have a kind of their own
      unfold fits at h
      split at h
      all_goals grind [Kind.isTerminal]

mutual

theorem isStray_above : ∀ {t u : Tree}, t.shaped = true → u ∈ t.subtrees →
    u.kind.isTerminal = true → u = t ∨ ∃ e ∈ t.subtrees, e.IsStray ∧ u ∈ e.children
  | .node kind text evaluated line children, u, h, hu, hterminal => by
    rw [shaped, Bool.and_eq_true] at h
    rw [subtrees] at hu ⊢
    rcases List.mem_cons.mp hu with rfl | hu
    · exact Or.inl rfl
    rcases isStray_above_all h.2 hu hterminal with hu | ⟨e, he, hstray, hmem⟩
    · exact Or.inr ⟨_, List.mem_cons_self, isStray_of_terminal h.1 hu hterminal, hu⟩
    · exact Or.inr ⟨e, List.mem_cons_of_mem _ he, hstray, hmem⟩

theorem isStray_above_all : ∀ {ts : List Tree} {u : Tree}, shapedAll ts = true →
    u ∈ subtreesAll ts → u.kind.isTerminal = true →
    u ∈ ts ∨ ∃ e ∈ subtreesAll ts, e.IsStray ∧ u ∈ e.children
  | [], u, _, hu, _ => by cases hu
  | t :: ts, u, h, hu, hterminal => by
    rw [shapedAll, Bool.and_eq_true] at h
    rw [subtreesAll] at hu ⊢
    rcases List.mem_append.mp hu with hu | hu
    · rcases isStray_above h.1 hu hterminal with rfl | ⟨e, he, hstray, hmem⟩
      · exact Or.inl List.mem_cons_self
      · exact Or.inr ⟨e, List.mem_append_left _ he, hstray, hmem⟩
    · rcases isStray_above_all h.2 hu hterminal with hu | ⟨e, he, hstray, hmem⟩
      · exact Or.inl (List.mem_cons_of_mem _ hu)
      · exact Or.inr ⟨e, List.mem_append_right _ he, hstray, hmem⟩

end

/-- A number in the shape of a program has been evaluated. -/
theorem number_of_fits {t : Tree} (h : t.fits = true) (hk : t.kind = .number) :
    ∃ text line, t = .node .number text true line [] := by
  obtain ⟨kind, text, evaluated, line, children⟩ := t
  obtain rfl : kind = .number := hk
  cases children with
  | nil =>
    obtain rfl : evaluated = true := h
    exact ⟨text, line, rfl⟩
  | cons c cs => cases h

theorem ne_wrapper_of_fits {t : Tree} (h : t.fits = true) :
    t.kind ≠ .statement ∧ t.kind ≠ .temporary := by
  obtain ⟨kind, text, evaluated, line, children⟩ := t
  constructor
  · rintro rfl
    cases h
  · rintro rfl
    cases h

theorem length_meaningAll_le (ts : List Tree) : (meaningAll ts).length ≤ ts.length := by
  induction ts with
  | nil => exact Nat.le_refl _
  | cons t ts ih =>
    rw [meaningAll]
    split
    · exact Nat.le_succ_of_le ih
    · exact Nat.succ_le_succ ih

end Tree

namespace Program

open Tree

theorem shaped_meaning (tokens : List Token) (name : String) :
    (meaning (Grammar.parseTokens tokens name).root).kind = .program ∧
      (meaning (Grammar.parseTokens tokens name).root).shaped = true := by
  obtain ⟨ts, hroot, hlen, hraw⟩ := Grammar.readProgram_root tokens.toArray
  obtain ⟨-, hblocks, hshaped⟩ := Grammar.parts_of_blocks hraw (Nat.le_refl _)
  rw [Grammar.parseTokens_root, hroot, Grammar.meaning_programTree]
  refine ⟨rfl, ?_⟩
  rw [Grammar.programTree, branch, shaped, hshaped, Bool.and_true]
  have hlen' : (meaningAll ts).length ≤ 1 :=
    Nat.le_trans (length_meaningAll_le ts) hlen
  generalize meaningAll ts = us at hlen' hblocks
  rcases us with _ | ⟨b, _ | ⟨c, rest⟩⟩
  · rfl
  · simpa [fits] using hblocks
  · simp at hlen'

theorem shaped_of_parse {file : SourceFile} {p : Program} (h : (parse file).1 = .ok p) :
    p.tree.kind = .program ∧ p.tree.shaped = true := by
  rw [tree_of_parse h]
  exact shaped_meaning _ _

/-- The tree of a text that can be scanned, whether or not it is read to its end, consists of nodes
with the children of their kinds. An expression and the sign in it remain only where something is
assigned to that cannot be. -/
theorem parse_shapes (file : SourceFile) (h : (Token.scan file.content).failure = none) :
    ∃ p, (parse file).1 = .ok p ∧ p.tree.kind = .program ∧
      ∀ t ∈ p.tree.subtrees, t.fits = true ∧ t.kind ≠ .statement ∧ t.kind ≠ .temporary ∧
        (t.kind = .number → ∃ text line, t = .node .number text true line []) ∧
        (t.kind = .expression → t.IsStray) ∧
        (t.kind.isTerminal = true → ∃ e ∈ p.tree.subtrees, e.IsStray ∧ t ∈ e.children) := by
  obtain ⟨hkind, hshaped⟩ := shaped_meaning (Token.scan file.content).tokens file.name
  refine ⟨_, parse_of_scanned h, hkind, ?_⟩
  intro t ht
  have hfits := fits_of_shaped hshaped t ht
  obtain ⟨hstatement, htemporary⟩ := ne_wrapper_of_fits hfits
  refine ⟨hfits, hstatement, htemporary, number_of_fits hfits, isStray_of_expression hfits, ?_⟩
  intro hterminal
  rcases isStray_above hshaped ht hterminal with rfl | hstray
  · rw [hkind] at hterminal
    cases hterminal
  · exact hstray

/-- A text that is not read to its end, with an assignment to a number in it. -/
def strayFile : SourceFile where
  content := "1=b;)"
  name := "stray"
  directory := ""
  path := ""
  virtual := true

def strayAssignment : Tree :=
  .branch .expression 1
    [.node .number "1" true 1 [], .leaf .assignment "=" 1, .leaf .identifier "b" 1]

/-- Of all kinds of nodes only the assignment is left as it was read, with its sign. Its number has
been evaluated. -/
theorem parse_shapes_stray :
    ∃ p, (parse strayFile).1 = .ok p ∧
      p.tree = .branch .program 1 [.branch .block 1 [strayAssignment]] ∧
      p.diagnostic = some ⟨"could not parse remainder: )", 1⟩ ∧ strayAssignment.IsStray ∧
      ∀ t ∈ p.tree.subtrees, t.fits = true ∧
        (t.kind.isTerminal = true → ∃ e ∈ p.tree.subtrees, e.IsStray ∧ t ∈ e.children) := by
  obtain ⟨hscan, htree, hdiagnostic⟩ : (Token.scan strayFile.content).failure = none ∧
      (Grammar.readProgram (Token.scan strayFile.content).tokens.toArray).root.meaning =
        .branch .program 1 [.branch .block 1 [strayAssignment]] ∧
      (Grammar.readProgram (Token.scan strayFile.content).tokens.toArray).diagnostic =
        some ⟨"could not parse remainder: )", 1⟩ := by decide +kernel
  obtain ⟨p, hp, -, hshapes⟩ := parse_shapes strayFile hscan
  have hparts := Except.ok.inj (hp.symm.trans (parse_plain hscan))
  have hptree : p.tree = .branch .program 1 [.branch .block 1 [strayAssignment]] := by
    rw [hparts, htree]
  have hstray : strayAssignment ∈ p.tree.subtrees := by
    rw [hptree]
    decide
  refine ⟨p, hp, hptree, by rw [hparts, hdiagnostic], (hshapes _ hstray).2.2.2.2.1 rfl, ?_⟩
  exact fun t ht => ⟨(hshapes t ht).1, (hshapes t ht).2.2.2.2.2⟩

end Program

end ScriptKit
