import ScriptKit.Program
import ScriptKit.Proofs.Grammar.Lexemes
import ScriptKit.Proofs.Grammar.Meaning

namespace ScriptKit

namespace Arena

open Named

mutual

theorem length_ids : ∀ t : Named, t.ids.length = t.tree.nodes
  | .node id kind text evaluated line ts => by
    rw [ids, tree, Tree.nodes, List.length_cons, length_idsAll ts]

theorem length_idsAll : ∀ ts : List Named, (idsAll ts).length = Tree.nodesAll (treeAll ts)
  | [] => rfl
  | t :: ts => by
    rw [idsAll, treeAll, Tree.nodesAll, List.length_append, length_ids t, length_idsAll ts]

end

/-- A tree has no more nodes than the arena it stands in. -/
theorem Rooted.nodes_le {a : Arena} {t : Named} (h : Rooted a t) : t.tree.nodes ≤ a.size := by
  have hsub : t.ids ⊆ List.range a.size := fun x hx => List.mem_range.mpr (h.stands.lt_size x hx)
  have hle := (h.nodup.subperm hsub).length_le
  rwa [length_ids, List.length_range] at hle

end Arena

namespace Grammar

open Tree

/-- A program has at most one block. -/
theorem readProgram_root (tokens : Array Token) :
    ∃ ts, (readProgram tokens).root = programTree ts ∧ ts.length ≤ 1 ∧ ∀ t ∈ ts, Raw .block t := by
  unfold readProgram
  split
  · exact ⟨[], rfl, by simp, by simp⟩
  · cases ho : (reading tokens .block 0).outcome with
    | matched ts next =>
      obtain ⟨t, ht, rfl⟩ := readRule_raw _ _ ho
      exact ⟨[t], rfl, by simp, by simpa using ht⟩
    | failed => exact ⟨[], rfl, by simp, by simp⟩
    | exhausted => exact ⟨[], rfl, by simp, by simp⟩

variable {ts : List Tree}

theorem settle_structureStep (h : ∀ t ∈ ts, Raw .block t) (n : Nat) :
    settle structureStep (n + 1) (programTree ts) = programTree (structuredAll (n + 1) ts) := by
  rw [settle_eq_iterate structureStep_honest]
  exact iterate_sweep_structureStep (chainedAll_of_forall fun t ht => (h t ht).chained) n

/-- What the blocks of a program become. -/
theorem parts_of_blocks {n : Nat} (h : ∀ t ∈ ts, Raw .block t) (hn : nodesAll ts ≤ n) :
    Parts n ts (meaningAll ts) ∧ (meaningAll ts).all (·.hasKind .block) = true ∧
      shapedAll (meaningAll ts) = true := by
  refine parts_of_forall fun t ht _ => ?_
  have htranslated := (h t ht).translated (Nat.le_trans (nodes_le_of_mem ht) hn)
  exact ⟨htranslated.swept, htranslated.gives, htranslated.shaped⟩

theorem settle_groupStep {n : Nat} (h : ∀ t ∈ ts, Raw .block t) (hn : nodesAll ts ≤ n) (m : Nat) :
    settle groupStep (m + 1) (programTree (structuredAll n ts)) = programTree (meaningAll ts) := by
  obtain ⟨hparts, -, hshaped⟩ := parts_of_blocks h hn
  have hfirst : (sweepBelow groupStep (programTree (structuredAll n ts))).1 =
      programTree (meaningAll ts) := by
    rw [programTree, branch, sweepBelow, hparts.swept]
    rfl
  have hfixed : (sweepBelow groupStep (programTree (meaningAll ts))).1 =
      programTree (meaningAll ts) := by
    rw [programTree, branch, sweepBelow, sweepAll_of_shaped groupStep_of_fits hshaped]
  rw [settle_eq_iterate groupStep_honest, Function.iterate_succ_apply, hfirst]
  exact Function.iterate_fixed hfixed m

theorem meaning_programTree (ts : List Tree) :
    meaning (programTree ts) = programTree (meaningAll ts) := rfl

/-- Settling in place an arena that has blocks of the grammar below its root. -/
theorem rooted_normalised {a : Arena} {t : Arena.Named} (ht : Arena.Rooted a t)
    (htree : t.tree = programTree ts) (hraw : ∀ t ∈ ts, Raw .block t) :
    ∃ u, Arena.Rooted a.normalised u ∧ u.tree = meaning (programTree ts) := by
  have hn : nodesAll ts ≤ a.size := by
    have hle := ht.nodes_le
    rw [htree, programTree, nodes_branch] at hle
    omega
  obtain ⟨u, hu, hutree⟩ := Arena.settle_follows Arena.structureStep_follows a.sweepsNeeded ht
  obtain ⟨v, hv, hvtree⟩ := Arena.settle_follows Arena.groupStep_follows
    a.structured.sweepsNeeded hu
  have hneeded : ∀ b : Arena, b.sweepsNeeded = 8 * b.size + 7 + 1 := fun b => by
    rw [Arena.sweepsNeeded]
    omega
  rw [htree, hneeded, settle_structureStep hraw] at hutree
  rw [hutree, hneeded, settle_groupStep hraw (by omega)] at hvtree
  exact ⟨v, hv, hvtree.trans (meaning_programTree ts).symm⟩

theorem normalised_rooted {a : Arena} {t : Arena.Named} (ht : Arena.Rooted a t)
    (htree : t.tree = programTree ts) (hraw : ∀ t ∈ ts, Raw .block t) :
    a.normalised.toTree Arena.root = some (meaning (programTree ts)) := by
  obtain ⟨u, hu, hutree⟩ := rooted_normalised ht htree hraw
  rw [← hutree]
  exact hu.toTree_eq

theorem toTree_normalised (tokens : List Token) (file : String) :
    (parseTokens tokens file).arena.normalised.toTree Arena.root =
      some (meaning (parseTokens tokens file).root) := by
  obtain ⟨ts, hroot, -, hraw⟩ := readProgram_root tokens.toArray
  obtain ⟨hlinked, hholds⟩ := parseTokens_holds tokens file
  obtain ⟨t, ht, htree⟩ := hlinked.rooted hholds
  rw [parseTokens_root, hroot]
  rw [hroot] at htree
  exact normalised_rooted ht htree hraw

end Grammar

namespace Program

/-- What a file that can be scanned is read as. -/
theorem parse_of_scanned {file : SourceFile} (h : (Token.scan file.content).failure = none) :
    (parse file).1 = .ok ⟨file,
      (Grammar.parseTokens (Token.scan file.content).tokens file.name).executable,
      (Grammar.parseTokens (Token.scan file.content).tokens file.name).root.meaning,
      (Grammar.parseTokens (Token.scan file.content).tokens file.name).diagnostic⟩ := by
  unfold parse
  simp only [h, Grammar.toTree_normalised, Option.getD_some]

variable {file : SourceFile} {p : Program}

/-- The plain reading gives the same program, and can be computed. -/
theorem parse_plain (h : (Token.scan file.content).failure = none) :
    (parse file).1 = .ok ⟨file,
      (Grammar.readProgram (Token.scan file.content).tokens.toArray).executable,
      (Grammar.readProgram (Token.scan file.content).tokens.toArray).root.meaning,
      (Grammar.readProgram (Token.scan file.content).tokens.toArray).diagnostic⟩ := by
  rw [parse_of_scanned h, Grammar.parseTokens_root, (Grammar.parseTokens_plain _ _).1,
    (Grammar.parseTokens_plain _ _).2]

theorem scanned_of_parse (h : (parse file).1 = .ok p) : (Token.scan file.content).failure = none := by
  cases hscan : (Token.scan file.content).failure with
  | none => rfl
  | some e =>
    rw [parse, hscan] at h
    cases h

theorem file_of_parse (h : (parse file).1 = .ok p) : p.file = file := by
  rw [parse_of_scanned (scanned_of_parse h)] at h
  obtain rfl := Except.ok.inj h
  rfl

theorem tree_of_parse (h : (parse file).1 = .ok p) :
    p.tree = (Grammar.parseTokens (Token.scan file.content).tokens file.name).root.meaning := by
  rw [parse_of_scanned (scanned_of_parse h)] at h
  obtain rfl := Except.ok.inj h
  rfl

end Program

end ScriptKit
