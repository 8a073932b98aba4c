import ScriptKit.Proofs.Grammar.PrintedReading
import ScriptKit.Proofs.Grammar.PrintedTrees

namespace ScriptKit

namespace Grammar

open Word Token

theorem words_drop_skip (list : List Token) (pos : Nat) :
    words (list.drop (skip list.toArray pos)) = words (list.drop pos) := by
  fun_induction skip list.toArray pos with
  | case1 pos h hb ih =>
    have hlt : pos < list.length := by simpa using h
    have hblank : list[pos].isBlank = true := by simpa using hb
    rw [ih, List.drop_eq_getElem_cons hlt, words_cons, hblank, if_pos rfl]
  | case2 pos h hb => rfl
  | case3 pos h => rfl

/-- The words from a position on begin with the next token there. -/
theorem words_drop (list : List Token) (pos : Nat) :
    (tokenAt? list.toArray pos = none ∧ words (list.drop pos) = []) ∨
    ∃ v, TokenAt list.toArray pos v.kind v.text ∧
      words (list.drop pos) = v :: words (list.drop (after list.toArray pos)) := by
  rw [← words_drop_skip]
  cases h : tokenAt? list.toArray pos with
  | none =>
    left
    have hle : list.length ≤ skip list.toArray pos := by
      simpa [tokenAt?] using h
    rw [List.drop_eq_nil_of_le hle]
    exact ⟨rfl, rfl⟩
  | some τ =>
    right
    refine ⟨⟨τ.kind, τ.text⟩, ⟨τ, h, rfl, rfl⟩, ?_⟩
    have hblank := not_isBlank_of_tokenAt? h
    obtain ⟨hlt, hτ⟩ :
        ∃ hlt : skip list.toArray pos < list.length, list[skip list.toArray pos] = τ := by
      simpa [tokenAt?, List.getElem?_eq_some_iff] using h
    rw [List.drop_eq_getElem_cons hlt, hτ, after, words_cons, hblank, if_neg Bool.false_ne_true]

/-- The words of all tokens stand one after the other. -/
theorem wordsAt_drop {list : List Token} (ws : List Word) : ∀ {pos : Nat},
    words (list.drop pos) = ws →
    ∃ next, WordsAt list.toArray pos ws next ∧ tokenAt? list.toArray next = none := by
  induction ws with
  | nil =>
    intro pos h
    rcases words_drop list pos with ⟨hnone, -⟩ | ⟨v, -, hv⟩
    · exact ⟨pos, rfl, hnone⟩
    · rw [h] at hv
      cases hv
  | cons w ws ih =>
    intro pos h
    rcases words_drop list pos with ⟨-, hnil⟩ | ⟨v, htoken, hv⟩
    · rw [h] at hnil
      cases hnil
    · rw [h, List.cons.injEq] at hv
      obtain ⟨rfl, hrest⟩ := hv
      obtain ⟨next, hwords, hnone⟩ := ih hrest.symm
      exact ⟨next, ⟨htoken, hwords⟩, hnone⟩

/-- The tokens of printed statements are read as the statements. -/
theorem Printed.program {list : List Token} (file : String) {ts : List Tree} (hne : ts ≠ [])
    (h : Printed .statements ts (words list)) : (parseTokens list file).diagnostic = none ∧
      (parseTokens list file).root.meaning.withoutLines = .node .program "" false 0 [blockOf ts] := by
  obtain ⟨next, hwords, hend⟩ :=
    wordsAt_drop (words list) (congrArg words (List.drop_zero (l := list)))
  have hblock : Reads list.toArray .block 0 (blockOf ts) next :=
    Gives.block (h.readAs hwords (Or.inr hend))
  refine hblock.program file ?_ hend
  -- the first statement begins with a token
  generalize words list = ws at h hwords
  cases h with
  | noStatements => exact absurd rfl hne
  | moreStatements h hs =>
    obtain ⟨v, rest, rfl, -⟩ := h.statement_head
    obtain ⟨τ, hτ, -⟩ := hwords.1
    simp [hτ]

end Grammar

namespace Program

open Tree

/-- The statements of a program. -/
def statements (t : Tree) : List Tree :=
  t.children.flatMap Tree.children

theorem printed_program {t : Tree} (hkind : t.kind = .program) (hshaped : t.shaped = true)
    (hlegible : t.legible = true) (hne : statements t ≠ []) :
    ∃ ts, ts ≠ [] ∧ t.withoutLines = .node .program "" false 0 [Grammar.blockOf ts] ∧
      Grammar.Printed .statements ts t.words := by
  obtain ⟨kind, text, evaluated, line, children⟩ := t
  obtain rfl : kind = .program := hkind
  rcases children with _ | ⟨body, _ | ⟨other, rest⟩⟩
  · exact absurd rfl hne
  · obtain ⟨k, x, e, l, ts⟩ := body
    simp only [shaped, shapedAll, fits, Bool.and_eq_true, hasKind_iff, kind_node] at hshaped
    obtain ⟨rfl, ⟨hfits, hall⟩, -⟩ := hshaped
    simp only [legible, legibleAll, Bool.and_eq_true] at hlegible
    obtain ⟨htext, ⟨hbody, hlegible⟩, -⟩ := hlegible
    obtain ⟨rfl, rfl⟩ := Grammar.textFits_plain htext (by simp [Kind.isLiteral])
    obtain ⟨rfl, rfl⟩ := Grammar.textFits_plain hbody (by simp [Kind.isLiteral])
    refine ⟨ts.map withoutLines, by simpa [statements] using hne, ?_, ?_⟩
    · rw [withoutLines_node, List.map_singleton, withoutLines_node]
      rfl
    · exact Grammar.printed_statements (Grammar.prints_of_legibleAll hall hlegible)
        (by simpa using hfits)
  · simp [shaped, fits] at hshaped

/-- A program that is written down and read again is the same program. -/
theorem parse_source {t : Tree} (hkind : t.kind = .program) (hshaped : t.shaped = true)
    (hlegible : t.legible = true) (hne : statements t ≠ []) {file : SourceFile}
    (hfile : file.content = t.source) :
    ∃ p, (parse file).1 = .ok p ∧ p.diagnostic = none ∧ p.tree.withoutLines = t.withoutLines := by
  obtain ⟨ts, hts, htree, hprinted⟩ := printed_program hkind hshaped hlegible hne
  obtain ⟨hscan, hwords⟩ := Token.scan_spaced hprinted.clear.1
  have hread : (Token.scan file.content).failure = none ∧
      Token.words (Token.scan file.content).tokens = t.words := by
    rw [hfile]
    exact ⟨hscan, hwords⟩
  rw [← hread.2] at hprinted
  obtain ⟨hdiagnostic, hroot⟩ := hprinted.program file.name hts
  refine ⟨_, parse_of_scanned hread.1, hdiagnostic, ?_⟩
  rw [htree, hroot]

section Sample

def sampleName (x : String) : Tree := .leaf .identifier x 3

def sampleBlock (ts : List Tree) : Tree := .node .block "" false 7 ts

/-- A negative number as an operand, a write to two indices, a call of a member, a conditional with
another one after it, a function without a name and a string with escapes. -/
def sample : Tree :=
  .node .program "" false 1 [sampleBlock [
    .node .initialisation "" false 1 [sampleName "a", .node .number "-1" true 1 []],
    .node .indexWrite "" false 2 [sampleName "a", .node .expressionList "" false 2
      [.node .number "0" true 2 [], .leaf .string "k\"\\" 2],
      .node .binary "**" false 2 [.node .number "-2" true 2 [], sampleName "a"]],
    .node .ifStatement "" false 3 [.node .comparison "<" false 3
      [sampleName "a", .node .binary "-" false 3 [sampleName "b", .node .number "1.5" true 3 []]],
      sampleBlock [],
      .node .ifStatement "" false 4 [.leaf .boolean "true" 4, sampleBlock [
        .node .call "" false 4 [.node .member "" false 4 [sampleName "f", sampleName "g"],
          .node .expressionList "" false 4 [sampleName "a", .leaf .null "null" 4]]]]],
    .node .functionDefinition "" false 5 [.node .function "" false 5
      [.node .argumentList "" false 5 [sampleName "x"], sampleBlock [sampleName "x"]]]]]

def sampleText : String :=
  "let a = -1 ; a [ 0 ] [ \"k\\\"\\\\\" ] = ( -2 ) ** a ; " ++
    "if ( a < ( b - 1.5 ) ) \x7b \x7d else if ( true ) \x7b ( f . g ) ( a , null ) ; \x7d " ++
    "func ( x ) \x7b x ; \x7d ; "

theorem parse_source_sample :
    sample.kind = .program ∧ sample.shaped = true ∧ sample.legible = true ∧
      statements sample ≠ [] ∧ sampleText = sample.source ∧
      ∃ p, (parse ⟨sampleText, "sample", "", "", true⟩).1 = .ok p ∧ p.diagnostic = none ∧
        p.tree.withoutLines = sample.withoutLines := by
  have hshaped : sample.shaped = true := by decide
  have hlegible : sample.legible = true := by decide
  have hne : statements sample ≠ [] := by simp [statements, sample, sampleBlock]
  have htext : sampleText = sample.source := by decide +kernel
  exact ⟨rfl, hshaped, hlegible, hne, htext, parse_source rfl hshaped hlegible hne htext⟩

end Sample

end Program

end ScriptKit
