import ScriptKit.Proofs.Tree.Translation

namespace ScriptKit.Tree

mutual

/-- A tree that does not tell where in the text it stands. -/
def withoutLines : Tree → Tree
  | .node kind text evaluated _ children => .node kind text evaluated 0 (withoutLinesAll children)

def withoutLinesAll : List Tree → List Tree
  | [] => []
  | t :: ts => withoutLines t :: withoutLinesAll ts

end

theorem withoutLinesAll_eq (ts : List Tree) : withoutLinesAll ts = ts.map withoutLines := by
  induction ts with
  | nil => rfl
  | cons t ts ih => rw [withoutLinesAll, ih, List.map_cons]

theorem withoutLines_node (kind : Kind) (text : String) (evaluated : Bool) (line : Nat)
    (children : List Tree) : withoutLines (.node kind text evaluated line children) =
      .node kind text evaluated 0 (children.map withoutLines) := by
  rw [withoutLines, withoutLinesAll_eq]

@[simp] theorem kind_withoutLines (t : Tree) : t.withoutLines.kind = t.kind := by
  cases t
  rfl

@[simp] theorem text_withoutLines (t : Tree) : t.withoutLines.text = t.text := by
  cases t
  rfl

@[simp] theorem hasKind_withoutLines (t : Tree) (k : Kind) :
    t.withoutLines.hasKind k = t.hasKind k := by
  rw [hasKind, hasKind, kind_withoutLines]

@[simp] theorem line_withoutLines (t : Tree) : t.withoutLines.line = 0 := by
  cases t
  rfl

theorem foldChain_withoutLines (line : Nat) (t : Tree) (rest : List Tree) :
    (foldChain line t rest).withoutLines = foldChain 0 t.withoutLines (rest.map withoutLines) := by
  fun_induction foldChain line t rest with
  | case1 t o b => simp [foldChain, withoutLines_node]
  | case2 t o b rest hne ih =>
    obtain ⟨c, rest, rfl⟩ : ∃ c cs, rest = c :: cs := List.exists_cons_of_ne_nil hne
    rw [ih, withoutLines_node]
    simp [foldChain]
  | case3 ts t h₁ h₂ =>
    rcases ts with _ | ⟨o, _ | ⟨b, rest⟩⟩
    · rfl
    · rfl
    · exact absurd rfl (h₂ o b rest)

theorem indexChain_withoutLines (t : Tree) (indices : List Tree) :
    t.withoutLines.indexChain (indices.map withoutLines) =
      ((t.indexChain indices).1.withoutLines, (t.indexChain indices).2.map withoutLines) := by
  fun_induction indexChain t indices with
  | case1 text evaluated line base index rest indices ih =>
    rw [withoutLines_node, List.map_cons, List.map_cons, indexChain, ← ih, List.map_cons]
  | case2 t indices hne =>
    obtain ⟨kind, text, evaluated, line, children⟩ := t
    rw [withoutLines_node]
    by_cases hk : kind = .index
    · subst hk
      rcases children with _ | ⟨a, _ | ⟨b, rest⟩⟩
      · rfl
      · rfl
      · exact absurd rfl (hne text evaluated line a b rest)
    · cases kind <;> first | contradiction | rfl

theorem assignmentOf_withoutLines (line : Nat) (t s v : Tree) :
    (assignmentOf line t s v).withoutLines =
      assignmentOf 0 t.withoutLines s.withoutLines v.withoutLines := by
  have hchain := indexChain_withoutLines t []
  rw [List.map_nil] at hchain
  unfold assignmentOf
  rw [kind_withoutLines, hchain, line_withoutLines]
  generalize t.kind = k
  cases k <;> simp [withoutLines_node]

theorem definitionOf_withoutLines (line : Nat) (ts : List Tree) :
    (definitionOf line ts).withoutLines = definitionOf 0 (ts.map withoutLines) := by
  rcases ts with _ | ⟨a, _ | ⟨b, _ | ⟨c, _ | ⟨d, _ | ⟨e, _ | ⟨f, _ | ⟨g, _ | ⟨h, rest⟩⟩⟩⟩⟩⟩⟩⟩ <;>
    simp [definitionOf, withoutLines_node]

theorem expressionOf_withoutLines (line : Nat) (ts : List Tree) :
    (expressionOf line ts).withoutLines = expressionOf 0 (ts.map withoutLines) := by
  rcases ts with _ | ⟨a, _ | ⟨b, _ | ⟨c, _ | ⟨d, rest⟩⟩⟩⟩
  · rfl
  · rfl
  · simp only [expressionOf, List.map_cons, List.map_nil, hasKind_withoutLines]
    split
    · rw [definitionOf_withoutLines]
      rfl
    · rw [foldChain_withoutLines]
      rfl
  -- the middle one tells what three children are, by its kind and text
  · simp only [expressionOf, List.map_cons, List.map_nil, kind_withoutLines, text_withoutLines]
    split <;> simp [withoutLines_node, assignmentOf_withoutLines]
  · cases rest with
    | nil =>
      simp only [expressionOf, List.map_cons, List.map_nil, hasKind_withoutLines, withoutLines_node]
    | cons e rest =>
      simp only [expressionOf, List.map_cons, hasKind_withoutLines]
      split
      · rw [definitionOf_withoutLines]
        rfl
      · rw [foldChain_withoutLines]
        rfl

theorem statementOf_withoutLines (line : Nat) (ts : List Tree) :
    (statementOf line ts).withoutLines = statementOf 0 (ts.map withoutLines) := by
  rcases ts with _ | ⟨a, _ | ⟨b, _ | ⟨c, _ | ⟨d, _ | ⟨e, _ | ⟨f, _ | ⟨g, rest⟩⟩⟩⟩⟩⟩⟩
  · rfl
  · simp only [statementOf, List.map_cons, List.map_nil, kind_withoutLines]
    split <;> simp [withoutLines_node]
  · simp [statementOf, withoutLines_node]
  · simp [statementOf, withoutLines_node]
  · simp [statementOf, withoutLines_node]
  · simp [statementOf, withoutLines_node]
  · simp [statementOf, withoutLines_node]
  · simp only [statementOf, List.map_cons, text_withoutLines]
    split
    · simp [withoutLines_node]
    · rcases rest with _ | ⟨h, _ | ⟨i, _ | ⟨j, _ | ⟨k, _ | ⟨l, rest⟩⟩⟩⟩⟩ <;> simp [withoutLines_node]

section Lined

variable {P : Nat → Prop}

/-- Every node of a tree stands on a line of a sort. -/
inductive Lined (P : Nat → Prop) : Tree → Prop
  | node {kind : Kind} {text : String} {evaluated : Bool} {line : Nat} {children : List Tree}
      (hline : P line) (hchildren : ∀ t ∈ children, Lined P t) :
      Lined P (.node kind text evaluated line children)

@[simp] theorem lined_node {kind : Kind} {text : String} {evaluated : Bool} {line : Nat}
    {children : List Tree} :
    Lined P (.node kind text evaluated line children) ↔ P line ∧ ∀ t ∈ children, Lined P t := by
  constructor
  · rintro ⟨hline, hchildren⟩
    exact ⟨hline, hchildren⟩
  · rintro ⟨hline, hchildren⟩
    exact .node hline hchildren

namespace Lined

theorem line {t : Tree} (h : t.Lined P) : P t.line := by
  cases h with
  | node hline _ => exact hline

variable {l : Nat}

theorem foldChain (hl : P l) {t : Tree} {rest : List Tree} (ht : t.Lined P)
    (hrest : ∀ u ∈ rest, u.Lined P) : (foldChain l t rest).Lined P := by
  fun_induction Tree.foldChain l t rest with
  | case1 t operator right => simp_all
  | case2 t operator right rest _ ih =>
    -- the inner nodes of the chain are on the line of the first operand
    refine ih ?_ fun u hu => hrest u (by simp [hu])
    simp [ht, ht.line, hrest right (by simp)]
  | case3 t => exact ht

theorem indexChain {t : Tree} {indices : List Tree} (ht : t.Lined P)
    (hindices : ∀ u ∈ indices, u.Lined P) :
    (t.indexChain indices).1.Lined P ∧ ∀ u ∈ (t.indexChain indices).2, u.Lined P := by
  fun_induction Tree.indexChain t indices with
  | case1 text evaluated line base index rest indices ih =>
    obtain ⟨-, hparts⟩ := lined_node.mp ht
    exact ih (hparts base (by simp)) (List.forall_mem_cons.mpr ⟨hparts index (by simp), hindices⟩)
  | case2 t indices _ => exact ⟨ht, hindices⟩

theorem assignmentOf (hl : P l) {t s v : Tree} (ht : t.Lined P) (hs : s.Lined P)
    (hv : v.Lined P) : (assignmentOf l t s v).Lined P := by
  obtain ⟨hbase, hindices⟩ : (t.indexChain []).1.Lined P ∧ ∀ u ∈ (t.indexChain []).2, u.Lined P :=
    ht.indexChain nofun
  unfold Tree.assignmentOf
  split
  · simp [hl, ht, hv]
  · simp [hl, ht, hv]
  · simpa [hl, hbase, ht.line, hv] using hindices
  · simp [hl, ht, hs, hv]

theorem definitionOf (hl : P l) {ts : List Tree} (hts : ∀ t ∈ ts, t.Lined P) :
    (definitionOf l ts).Lined P := by
  unfold Tree.definitionOf
  split <;> simp_all

theorem expressionOf (hl : P l) {ts : List Tree} (hts : ∀ t ∈ ts, t.Lined P) :
    (expressionOf l ts).Lined P := by
  unfold Tree.expressionOf
  split
  · simp_all
  · rename_i left mid right
    have hassign := assignmentOf hl (hts left (by simp)) (hts mid (by simp)) (hts right (by simp))
    split <;> simp_all
  · simp_all
  · rename_i first rest _ _ _
    obtain ⟨hfirst, hrest⟩ := List.forall_mem_cons.mp hts
    split
    · exact definitionOf hl hrest
    · exact hfirst.foldChain hl hrest
  · simp [hl]

theorem statementOf (hl : P l) {ts : List Tree} (hts : ∀ t ∈ ts, t.Lined P) :
    (statementOf l ts).Lined P := by
  unfold Tree.statementOf
  split
  · split <;> simp_all
  · simp_all
  · simp_all
  · split
    · simp_all
    · split <;> simp_all
  · simp_all

end Lined

mutual

/-- The translation of a tree makes no lines of its own. -/
theorem Lined.meaning : ∀ {t : Tree}, t.Lined P → t.meaning.Lined P
  | .node kind text evaluated line children, h => by
    obtain ⟨hline, hchildren⟩ := lined_node.mp h
    have hparts := Lined.meaningAll hchildren
    unfold Tree.meaning
    split
    · exact .node hline hparts
    · exact .expressionOf hline hparts
    · exact .statementOf hline hparts
    · simp_all
    · exact .node hline hparts

theorem Lined.meaningAll : ∀ {ts : List Tree}, (∀ t ∈ ts, t.Lined P) →
    ∀ t ∈ meaningAll ts, t.Lined P
  | [], _ => nofun
  | t :: ts, h => by
    obtain ⟨ht, hts⟩ := List.forall_mem_cons.mp h
    rw [Tree.meaningAll]
    split
    · exact Lined.meaningAll hts
    · exact List.forall_mem_cons.mpr ⟨Lined.meaning ht, Lined.meaningAll hts⟩

end

end Lined

end ScriptKit.Tree
