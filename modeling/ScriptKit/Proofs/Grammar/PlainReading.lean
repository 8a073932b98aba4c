import ScriptKit.Grammar.Parse
import ScriptKit.Proofs.Grammar.Statements

namespace ScriptKit.Grammar

open Builder

open Arena (root)

/-- A program as the plain reading gives it, without any arena. -/
structure PlainProgram where
  executable : Bool
  root : Tree
  diagnostic : Option Diagnostic

/-- The program that the plain reading of the grammar makes of a list of tokens. -/
def readProgram (tokens : Array Token) : PlainProgram :=
  if tokens.size ≤ skip tokens 0 then ⟨false, programTree [], none⟩
  else
    match (reading tokens .block 0).outcome with
    | .matched trees next =>
      ⟨true, programTree trees, leftOver tokens next (reading tokens .block 0).reach⟩
    | _ => ⟨true, programTree [], leftOver tokens 0 (reading tokens .block 0).reach⟩

variable {tokens : Array Token}

theorem lookup?_start (file : String) (r : Rule) (pos : Nat) :
    (Builder.start file).lookup? r pos = none := by
  simp [Builder.start, lookup?]

theorem start_fresh (file : String) : (Builder.start file).Fresh 0 := by
  intro q _ r e n he
  rw [lookup?_start] at he
  cases he

theorem start_ready (tokens : Array Token) (file : String) :
    (Builder.start file).Ready tokens root 0 := by
  have hclaims : ∀ n q, ¬ (Builder.start file).Claims n q := by
    rintro n q ⟨r, e, he⟩
    rw [lookup?_start] at he
    cases he
  refine ⟨⟨Arena.linked_empty file, ?_, ?_, ?_⟩, Nat.zero_lt_one, ⟨?_, ?_⟩, ?_⟩
  · intro r q he
    rw [lookup?_start] at he
    cases he
  · intro r q e n he
    rw [lookup?_start] at he
    cases he
  · intro n q q' hq
    exact absurd hq (hclaims n q)
  · rintro ⟨q, hq⟩
    exact hclaims _ q hq
  · exact (Arena.linked_empty file).root_not_mem
  · intro c _ q hq
    exact absurd hq (hclaims c q)

/-- A block always matches. -/
theorem block_matches (tokens : Array Token) (pos : Nat) :
    ∃ trees next, (reading tokens .block pos).outcome = .matched trees next := by
  have hne : (reading tokens .block pos).outcome ≠ .failed := by
    rw [reading_eq, production, ne_eq, node_failed_iff, choice_cons_failed_iff,
      parts_cons_failed_iff]
    simp
  cases h : (reading tokens .block pos).outcome with
  | exhausted => exact absurd h (reading_proper .block pos).decided
  | failed => exact absurd h hne
  | matched trees next => exact ⟨trees, next, rfl⟩

/-- What the builder makes of a whole program: it ends where the plain reading does, and the tree
below the root is the one of the plain reading. -/
theorem build_program (tokens : Array Token) (file : String) :
    ∃ trees next b,
      buildRule tokens (enoughFuel tokens) .block root 0 (.start file) = (.matched next, b) ∧
      (reading tokens .block 0).outcome = .matched trees next ∧
      b.furthest = (reading tokens .block 0).reach ∧ b.arena.Linked ∧
      b.arena.Holds (fun _ => True) root (programTree trees) := by
  obtain ⟨trees, next, ho⟩ := block_matches tokens 0
  have hready := start_ready tokens file
  cases hrun : buildRule tokens (enoughFuel tokens) .block root 0 (.start file) with
  | mk res b =>
    -- the arena agrees with the reading in how it ends, and holds its trees
    have ha := agrees_rule (enoughFuel tokens) .block hready hrun
    have hm := (specs (enoughFuel tokens)).block 0 hready (start_fresh file) hrun
    cases res with
    | exhausted => exact absurd ha (reading_proper .block 0).decided
    | failed => simp [ha.outcome] at ho
    | matched last =>
      obtain ⟨⟨ts, built, ho', hch, hh⟩, -⟩ := hm
      rw [ho] at ho'
      cases ho'
      refine ⟨trees, next, b, rfl, ho, ?_, ha.leaves.sane.linked, ?_⟩
      · rw [ha.leaves.furthest]
        exact Nat.max_eq_right (Nat.zero_le _)
      · have hinfo := ha.leaves.frame.info root hready.lt
        rw [programTree, Tree.branch, Arena.Holds, hinfo, hch]
        exact ⟨rfl, hh.mono fun _ _ => trivial⟩

theorem holds_empty (file : String) :
    (Arena.empty file).Holds (fun _ => True) root (programTree []) := by
  rw [programTree, Tree.branch, Arena.Holds]
  exact ⟨rfl, trivial⟩

/-- The arena that a program is built in is linked, and below its root is the tree of the plain
reading. -/
theorem parseTokens_holds (tokens : List Token) (file : String) :
    (parseTokens tokens file).arena.Linked ∧
      (parseTokens tokens file).arena.Holds (fun _ => True) root (readProgram tokens.toArray).root := by
  unfold parseTokens readProgram
  dsimp only
  split
  · exact ⟨Arena.linked_empty file, holds_empty file⟩
  · obtain ⟨trees, next, b, hrun, ho, -, hl, hh⟩ := build_program tokens.toArray file
    rw [hrun, ho]
    exact ⟨hl, hh⟩

/-- Whether a program is executed, and its diagnostic, are as in the plain reading. -/
theorem parseTokens_plain (tokens : List Token) (file : String) :
    (parseTokens tokens file).executable = (readProgram tokens.toArray).executable ∧
      (parseTokens tokens file).diagnostic = (readProgram tokens.toArray).diagnostic := by
  obtain ⟨trees, next, b, hrun, ho, hfar, -, -⟩ := build_program tokens.toArray file
  unfold parseTokens readProgram
  dsimp only
  split
  · exact ⟨rfl, rfl⟩
  · rw [hrun, ho, ← hfar]
    exact ⟨rfl, rfl⟩

/-- Building a program with a table, temporary nodes and nodes that move gives what the plain
recursive reading of the grammar gives. The first two parts say that this reading is the recursive
one and always has an answer. -/
theorem parseTokens_eq_plain (tokens : List Token) (file : String) :
    (∀ r pos, reading tokens.toArray r pos =
      readProduction tokens.toArray (reading tokens.toArray) (production r) pos) ∧
    (∀ r pos, (reading tokens.toArray r pos).outcome ≠ .exhausted) ∧
    (buildRule tokens.toArray (enoughFuel tokens.toArray) .block root 0 (.start file)).1 ≠
      .exhausted ∧
    (parseTokens tokens file).arena.toTree root = some (readProgram tokens.toArray).root ∧
    (parseTokens tokens file).executable = (readProgram tokens.toArray).executable ∧
    (parseTokens tokens file).diagnostic = (readProgram tokens.toArray).diagnostic := by
  obtain ⟨-, next, b, hrun, -, -, -, -⟩ := build_program tokens.toArray file
  exact ⟨reading_eq, fun r pos => (reading_proper r pos).decided, by simp [hrun],
    (parseTokens_holds tokens file).2.toTree_eq, parseTokens_plain tokens file⟩

end ScriptKit.Grammar
