import ScriptKit.Proofs.Program.Shapes
import ScriptKit.Proofs.Token.Scan
import ScriptKit.Proofs.Tree.Lines

namespace ScriptKit

theorem Tree.Lined.of_mem_subtrees {P : Nat → Prop} {t : Tree} (h : t.Lined P) :
    ∀ u ∈ t.subtrees, P u.line := by
  induction h with
  | node hline _ ih =>
    intro u hu
    rw [subtrees] at hu
    rcases List.mem_cons.mp hu with rfl | hu
    · exact hline
    · obtain ⟨t, ht, hu⟩ := mem_subtreesAll.mp hu
      exact ih t ht u hu

namespace Grammar

open Tree

variable {P : Nat → Prop} {tokens : Array Token} {rule : Rule → Nat → Attempt}

theorem lineAt_of_forall (hone : P 1) (htokens : ∀ t ∈ tokens, P t.line) (pos : Nat) :
    P (lineAt tokens pos) := by
  unfold lineAt
  split
  · rename_i t ht
    exact htokens t (Array.mem_of_getElem? ht)
  · cases hback : tokens.back? with
    | none => exact hone
    | some t => exact htokens t (Array.mem_of_back? hback)

theorem lined_foldl_wrap {t : Tree} {rounds : List (List Tree)} (ht : t.Lined P)
    (hrounds : ∀ us ∈ rounds, ∀ u ∈ us, u.Lined P) : (rounds.foldl wrap t).Lined P := by
  induction rounds generalizing t with
  | nil => exact ht
  | cons us rounds ih =>
    obtain ⟨hus, hrounds⟩ := List.forall_mem_cons.mp hrounds
    exact ih (.node ht.line (List.forall_mem_cons.mpr ⟨ht, hus⟩)) hrounds

/-- A way to read rules whose trees stand on lines of a sort, as the tokens do. -/
structure Lining (P : Nat → Prop) (tokens : Array Token) (rule : Rule → Nat → Attempt) : Prop where
  first : P 1
  tokens : ∀ t ∈ tokens, P t.line
  rule : ∀ {r pos ts next}, (rule r pos).outcome = .matched ts next → ∀ t ∈ ts, t.Lined P

mutual

/-- What a production reads stands on such lines. -/
theorem readProduction_lined (hrule : Lining P tokens rule) : ∀ (p : Production) {pos ts next},
    (readProduction tokens rule p pos).outcome = .matched ts next → ∀ t ∈ ts, t.Lined P
  | .token kind text, pos, ts, next, h => by
    obtain ⟨t, ht, -, rfl, -⟩ := token_matched_iff.mp h
    have hline : P t.line := hrule.tokens t (Array.mem_of_getElem? ht)
    simpa [terminal, leaf] using hline
  | .rule r, pos, ts, next, h => hrule.rule (rule_matched_iff.mp h)
  | .node k alternatives, pos, ts, next, h => by
    obtain ⟨us, h', rfl⟩ := node_matched_iff.mp h
    have hus := readChoice_lined hrule alternatives h'
    exact List.forall_mem_singleton.mpr (.node (lineAt_of_forall hrule.first hrule.tokens pos) hus)
  | .choice alternatives, pos, ts, next, h =>
    readChoice_lined hrule alternatives (choice_matched_iff.mp h)
  | .many parts, pos, ts, next, h => by
    simp only [readProduction] at h
    obtain ⟨rounds, hrounds, rfl⟩ := readMany_makes (fun h => readParts_lined hrule parts h) _ h
    intro t ht
    obtain ⟨us, hus, ht⟩ := List.mem_flatten.mp ht
    exact hrounds us hus t ht
  | .optional p, pos, ts, next, h => by
    rcases optional_matched_iff.mp h with h | ⟨-, rfl, -⟩
    · exact readProduction_lined hrule p h
    · exact nofun
  | .chain head suffix, pos, ts, next, h => by
    obtain ⟨t, us, m, hhead, hsuffixes⟩ := chain_matched_iff.mp h
    have hus := readProduction_lined hrule head hhead
    -- every wrapper takes the line of what it is put around
    obtain ⟨rounds, hrounds, rfl⟩ :=
      readSuffixes_makes (fun h => readProduction_lined hrule suffix h) _ hsuffixes
    exact List.forall_mem_singleton.mpr (lined_foldl_wrap (hus t (by simp)) hrounds)

theorem readParts_lined (hrule : Lining P tokens rule) : ∀ (parts : List Production) {pos ts next},
    (readParts tokens rule parts pos).outcome = .matched ts next → ∀ t ∈ ts, t.Lined P
  | [], pos, ts, next, h => by
    obtain ⟨rfl, -⟩ := parts_nil_matched_iff.mp h
    exact nofun
  | p :: parts, pos, ts, next, h => by
    obtain ⟨us, m, vs, h₁, h₂, rfl⟩ := parts_cons_matched_iff.mp h
    have hus := readProduction_lined hrule p h₁
    exact List.forall_mem_append.mpr ⟨hus, readParts_lined hrule parts h₂⟩

theorem readChoice_lined (hrule : Lining P tokens rule) :
    ∀ (alternatives : List (List Production)) {pos ts next},
    (readChoice tokens rule alternatives pos).outcome = .matched ts next → ∀ t ∈ ts, t.Lined P
  | [], pos, ts, next, h => absurd h not_choice_nil_matched
  | parts :: alternatives, pos, ts, next, h => by
    rcases choice_cons_matched_iff.mp h with h | ⟨-, h⟩
    · exact readParts_lined hrule parts h
    · exact readChoice_lined hrule alternatives h

end

theorem readRule_lined (hone : P 1) (htokens : ∀ t ∈ tokens, P t.line) (fuel : Nat) :
    ∀ {r pos ts next}, (readRule tokens fuel r pos).outcome = .matched ts next →
      ∀ t ∈ ts, t.Lined P := by
  induction fuel with
  | zero => intro r pos ts next h; cases h
  | succ fuel ih =>
    intro r pos ts next h
    exact readProduction_lined ⟨hone, htokens, ih⟩ (production r) h

theorem readProgram_lined (hone : P 1) (htokens : ∀ t ∈ tokens, P t.line) :
    (readProgram tokens).root.Lined P := by
  unfold readProgram
  split
  · exact .node hone nofun
  · cases ho : (reading tokens .block 0).outcome with
    | matched ts next => exact .node hone (readRule_lined hone htokens _ ho)
    | failed => exact .node hone nofun
    | exhausted => exact .node hone nofun

end Grammar

/-- Every node of a program stands on a line of its text, counted from one. -/
theorem Program.line_pos_of_parse {file : SourceFile} {p : Program}
    (h : (Program.parse file).1 = .ok p) : ∀ t ∈ p.tree.subtrees, 1 ≤ t.line := by
  have htokens : ∀ t ∈ (Token.scan file.content).tokens.toArray, 1 ≤ t.line := by
    intro t ht
    obtain ⟨before, after, hsplit⟩ := List.append_of_mem (List.mem_toArray.mp ht)
    obtain ⟨-, hplaces, -⟩ := Token.scan_lossless file.content
    have hline := (hplaces before t after hsplit).2
    omega
  have hroot := Grammar.readProgram_lined (Nat.le_refl 1) htokens
  rw [Program.tree_of_parse h, Grammar.parseTokens_root]
  exact hroot.meaning.of_mem_subtrees

end ScriptKit
