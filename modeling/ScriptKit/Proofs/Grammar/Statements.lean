import ScriptKit.Proofs.Grammar.Expressions

namespace ScriptKit.Grammar

open Builder

variable {tokens : Array Token}

section Ends

variable {pos next : Nat} {ts : List Tree}

/-- An alternative that cannot begin with the next token makes no difference. -/
theorem choice_skip_iff {parts : List Production} {alternatives : List (List Production)}
    (h : partsStart (tokenAt? tokens pos) parts = false) :
    (readChoice tokens (reading tokens) (parts :: alternatives) pos).outcome = .matched ts next ↔
      (readChoice tokens (reading tokens) alternatives pos).outcome = .matched ts next := by
  have hf := readParts_failed h
  rw [choice_cons_matched_iff, hf]
  simp

/-- A token that is there or not, before what cannot be read behind it. -/
theorem parts_failed_after_token {kind : Token.Kind} {text : Option String}
    {parts : List Production}
    (h : (readParts tokens (reading tokens) parts (after tokens pos)).outcome = .failed) :
    (readParts tokens (reading tokens) (.token kind text :: parts) pos).outcome = .failed := by
  cases ht : tokenAt? tokens pos with
  | none => exact parts_failed_of_token (by simp [ht, nextIs])
  | some t =>
    by_cases hacc : accepts kind text t = true
    · exact parts_failed_later (token_matched_iff.mpr ⟨t, ht, hacc, rfl, rfl⟩) h
    · exact parts_failed_of_token (by simpa [ht, nextIs] using hacc)

/-- A repetition whose first part does not match takes nothing. -/
theorem many_of_failed {parts : List Production}
    (h : (readParts tokens (reading tokens) parts pos).outcome = .failed) :
    (readProduction tokens (reading tokens) (.many parts) pos).outcome = .matched [] pos := by
  simp only [readProduction, readMany, h]

/-- The rules of operands and operators end with their first operand if no operator follows it. -/
theorem chain_end {e : Nat} (hsep : ¬ Separated tokens e)
    (h : (reading tokens .suffixed pos).outcome = .matched ts e) :
    ∃ us, (reading tokens .comparison pos).outcome = .matched us e := by
  -- what stands behind the chain is no operator, so each level of the grammar ends there too
  have hop : ∀ symbol, nextIs .operator (some symbol) (tokenAt? tokens e) = false := by
    intro symbol
    by_contra hne
    obtain ⟨u, hu, hk, -⟩ := nextIs_iff.mp (Bool.of_not_eq_false hne)
    exact hsep (Or.inl (nextIs_iff.mpr ⟨u, hu, hk, by simp⟩))
  have hcmp : nextIs .comparator none (tokenAt? tokens e) = false := by
    by_contra hne
    exact hsep (Or.inr (Bool.of_not_eq_false hne))
  -- the levels that take one operator at most
  have hpair : ∀ {r operand r' : Rule} {kind : Token.Kind} {text : Option String} {us : List Tree},
      nextIs kind text (tokenAt? tokens e) = false →
      production r = .node .expression [[.rule operand, .token kind text, .rule r'],
        [.rule operand]] →
      (reading tokens operand pos).outcome = .matched us e →
      ∃ vs, (reading tokens r pos).outcome = .matched vs e := by
    intro r operand r' kind text us hno hp ho
    refine ⟨[.branch .expression (lineAt tokens pos) us], ?_⟩
    rw [reading_eq, hp]
    refine node_matched_iff.mpr ⟨us, choice_next ?_ ?_, rfl⟩
    · exact parts_failed_after_rule ho (parts_failed_of_token hno)
    · exact choice_here (parts_one_iff.mpr (rule_matched_iff.mpr ho))
  -- the levels that take any number of operators
  have hloop : ∀ {r operand : Rule} {ops : List (List Production)} {us : List Tree},
      choiceStarts (tokenAt? tokens e) ops = false →
      production r = .node .expression [[.rule operand, .many [.choice ops, .rule operand]]] →
      (reading tokens operand pos).outcome = .matched us e →
      ∃ vs, (reading tokens r pos).outcome = .matched vs e := by
    intro r operand ops us hno hp ho
    have hmany : (readProduction tokens (reading tokens)
        (.many [.choice ops, .rule operand]) e).outcome = .matched [] e := by
      refine many_of_failed (parts_failed_here ?_)
      exact choice_failed_iff.mpr (readChoice_failed hno)
    refine ⟨[.branch .expression (lineAt tokens pos) (us ++ [])], ?_⟩
    rw [reading_eq, hp]
    refine node_matched_iff.mpr ⟨us ++ [], choice_here ?_, rfl⟩
    exact parts_cons_matched_iff.mpr ⟨us, e, [], rule_matched_iff.mpr ho, parts_one_iff.mpr hmany, rfl⟩
  obtain ⟨us, hpower⟩ := hpair (r := .power) (hop "**") rfl h
  obtain ⟨vs, hmul⟩ := hloop (r := .multiplicative)
    (by simp [choiceStarts, partsStart, op, Production.starts, hop]) rfl hpower
  obtain ⟨ws, hadd⟩ := hloop (r := .additive)
    (by simp [choiceStarts, partsStart, op, Production.starts, hop]) rfl hmul
  exact hpair (r := .comparison) hcmp rfl hadd

/-- An expression ends with its first operand if neither an operator nor an assignment follows. -/
theorem expression_end {e m : Nat} {us : List Tree} (hsep : ¬ Separated tokens e)
    (hassign : ¬ At tokens .assignment e)
    (h : (reading tokens .suffixed pos).outcome = .matched ts e)
    (hx : (reading tokens .expression pos).outcome = .matched us m) : m = e := by
  obtain ⟨vs, hc⟩ := chain_end hsep h
  rw [reading_eq, production] at hx
  obtain ⟨ws, hx, -⟩ := node_matched_iff.mp hx
  rcases choice_cons_matched_iff.mp hx with hx | ⟨-, hx⟩
  · obtain ⟨_, i, _, hs, hx, -⟩ := parts_cons_matched_iff.mp hx
    rw [rule_matched_iff, h] at hs
    cases hs
    obtain ⟨_, _, _, ht, -⟩ := parts_cons_matched_iff.mp hx
    obtain ⟨t, hat, hacc, -⟩ := token_matched_iff.mp ht
    exact absurd (at_of_accepts hat hacc) hassign
  · rcases choice_cons_matched_iff.mp hx with hx | ⟨-, hx⟩
    · rw [parts_one_iff, rule_matched_iff, hc] at hx
      cases hx
      rfl
    · exact absurd hx not_choice_nil_matched

end Ends

section AfterFunction

variable {s f e m : Nat} {ts us : List Tree}

/-- A statement that begins with a parenthesis or a bracket is an expression with a semicolon. -/
theorem statement_is_expression (hat : At tokens .leftParen f ∨ At tokens .leftBracket f)
    (h : (reading tokens .statement f).outcome = .matched ts m) :
    ∃ us e, (reading tokens .expression f).outcome = .matched us e ∧ At tokens .semicolon e ∧
      m = after tokens e := by
  obtain ⟨t, ht, hk⟩ : ∃ t, tokenAt? tokens f = some t ∧
      (t.kind = .leftParen ∨ t.kind = .leftBracket) := by
    rcases hat with hat | hat <;> obtain ⟨t, ht, hk, -⟩ := nextIs_iff.mp hat
    · exact ⟨t, ht, Or.inl hk⟩
    · exact ⟨t, ht, Or.inr hk⟩
  -- every other alternative begins with a word
  have hno : ∀ parts ∈ [ifParts, whileParts,
      [namedFunction, .optional semicolon],
      [.rule .classLiteral, .optional semicolon],
      [kw "let", name, punct .assignment, .rule .expression, semicolon],
      [kw "let", name, semicolon],
      [.rule .function, .optional semicolon]],
      partsStart (tokenAt? tokens f) parts = false := by
    rcases hk with hk | hk <;>
      simp [ht, partsStart, ifParts, whileParts, kw, Production.starts, choiceStarts, Rule.starts,
        nextIs, accepts, hk]
  rw [reading_eq, production] at h
  obtain ⟨vs, h, -⟩ := node_matched_iff.mp h
  rw [choice_skip_iff (hno _ (by simp)), choice_skip_iff (hno _ (by simp)),
    choice_skip_iff (hno _ (by simp)), choice_skip_iff (hno _ (by simp)),
    choice_skip_iff (hno _ (by simp)), choice_skip_iff (hno _ (by simp))] at h
  rcases choice_cons_matched_iff.mp h with h | ⟨-, h⟩
  · obtain ⟨us, e, _, hx, hs, -⟩ := parts_cons_matched_iff.mp h
    rw [parts_one_iff] at hs
    obtain ⟨u, hu, hacc, -, rfl⟩ := token_matched_iff.mp hs
    exact ⟨us, e, rule_matched_iff.mp hx, at_of_accepts hu hacc, rfl⟩
  · rw [choice_skip_iff (hno _ (by simp))] at h
    exact absurd h not_choice_nil_matched

theorem expression_has_primary (h : (reading tokens .expression f).outcome = .matched ts m) :
    ∃ t us i, (reading tokens .primary f).outcome = .matched (t :: us) i := by
  have hs : Matches tokens .suffixed f := by
    by_contra hn
    rw [not_matches_iff, ← expression_failed_iff, h] at hn
    cases hn
  obtain ⟨us, e, hs⟩ := hs
  obtain ⟨t, vs, i, hp, -⟩ := suffixed_matched_iff.mp hs
  exact ⟨t, vs, i, hp⟩

/-- A list of expressions is one expression if no comma follows it. -/
theorem expressionList_of_one (h : (reading tokens .expression f).outcome = .matched ts m)
    (hc : ¬ At tokens .comma m) :
    ∃ us, (reading tokens .expressionList f).outcome = .matched us m := by
  have hmany : (readProduction tokens (reading tokens)
      (.many [punct .comma, .rule .expression]) m).outcome = .matched [] m := by
    refine many_of_failed (parts_failed_of_token ?_)
    exact Bool.eq_false_iff.mpr hc
  refine ⟨[.branch .expressionList (lineAt tokens f) (ts ++ [])], ?_⟩
  rw [reading_eq, production, commaList]
  refine node_matched_iff.mpr ⟨ts ++ [], choice_here ?_, rfl⟩
  exact parts_cons_matched_iff.mpr ⟨ts, m, [], rule_matched_iff.mpr h, parts_one_iff.mpr hmany, rfl⟩

/-- A rule between two tokens. -/
theorem enclosed_matched {r : Rule} {k k' : Token.Kind}
    (h : (readParts tokens (reading tokens) [punct k, .rule r, punct k'] f).outcome =
      .matched ts m) :
    ∃ us j, (reading tokens r (after tokens f)).outcome = .matched us j ∧ At tokens k' j ∧
      m = after tokens j := by
  obtain ⟨_, _, _, ht, h, -⟩ := parts_cons_matched_iff.mp h
  obtain ⟨t, -, -, -, rfl⟩ := token_matched_iff.mp ht
  obtain ⟨us, j, _, hr, h, -⟩ := parts_cons_matched_iff.mp h
  rw [parts_one_iff] at h
  obtain ⟨u, hu, hacc, -, rfl⟩ := token_matched_iff.mp h
  exact ⟨us, j, rule_matched_iff.mp hr, at_of_accepts hu hacc, rfl⟩

theorem enclosed_not_failed {r : Rule} {k k' : Token.Kind} (hat : At tokens k f)
    (hr : (reading tokens r (after tokens f)).outcome = .matched ts m) (hclose : At tokens k' m) :
    (readParts tokens (reading tokens) [punct k, .rule r, punct k'] f).outcome ≠ .failed := by
  obtain ⟨t, ht, hk, -⟩ := nextIs_iff.mp hat
  obtain ⟨u, hu, hk', -⟩ := nextIs_iff.mp hclose
  have h : (readParts tokens (reading tokens) [punct k, .rule r, punct k'] f).outcome =
      .matched ([terminal t] ++ (ts ++ [terminal u])) (after tokens m) := by
    refine parts_cons_matched_iff.mpr ⟨_, after tokens f, _,
      token_matched_iff.mpr ⟨t, ht, by simp [accepts, hk], rfl, rfl⟩, ?_, rfl⟩
    refine parts_cons_matched_iff.mpr ⟨ts, m, _, rule_matched_iff.mpr hr, ?_, rfl⟩
    exact parts_one_iff.mpr
      (token_matched_iff.mpr ⟨u, hu, by simp [accepts, hk'], rfl, rfl⟩)
  simp [h]

section Enclosed

/-- Behind an operand a parenthesis encloses arguments. -/
theorem arguments_of_suffix (hat : At tokens .leftParen f)
    (h : (readProduction tokens (reading tokens) suffix f).outcome = .matched ts m) :
    ∃ us j, (reading tokens .expressionList (after tokens f)).outcome = .matched us j ∧
      At tokens .rightParen j ∧ m = after tokens j := by
  obtain ⟨t, ht, hk, -⟩ := nextIs_iff.mp hat
  rw [suffix, choice_matched_iff] at h
  rcases choice_cons_matched_iff.mp h with h | ⟨-, h⟩
  · exact enclosed_matched h
  · rw [readChoice_failed] at h
    · cases h
    · simp [ht, choiceStarts, partsStart, bracketed, punct, Production.starts, nextIs, accepts, hk]

/-- Behind an operand a bracket encloses an index. -/
theorem index_of_suffix (hat : At tokens .leftBracket f)
    (h : (readProduction tokens (reading tokens) suffix f).outcome = .matched ts m) :
    ∃ us j, (reading tokens .expression (after tokens f)).outcome = .matched us j ∧
      At tokens .rightBracket j ∧ m = after tokens j := by
  obtain ⟨t, ht, hk, -⟩ := nextIs_iff.mp hat
  have hparen : partsStart (tokenAt? tokens f) (parenthesised (.rule .expressionList)) = false := by
    simp [ht, partsStart, parenthesised, punct, Production.starts, nextIs, accepts, hk]
  rw [suffix, choice_matched_iff, choice_skip_iff hparen] at h
  rcases choice_cons_matched_iff.mp h with h | ⟨-, h⟩
  · exact enclosed_matched h
  · rw [readChoice_failed] at h
    · cases h
    · simp [ht, choiceStarts, partsStart, punct, Production.starts, nextIs, accepts, hk]

/-- Where an operand begins a parenthesis encloses an expression. -/
theorem grouped_of_primary (hat : At tokens .leftParen f)
    (h : (reading tokens .primary f).outcome = .matched ts m) :
    ∃ us j, (reading tokens .expression (after tokens f)).outcome = .matched us j ∧
      At tokens .rightParen j ∧ m = after tokens j := by
  obtain ⟨t, ht, hk, -⟩ := nextIs_iff.mp hat
  rw [reading_eq, production, choice_matched_iff] at h
  rcases choice_cons_matched_iff.mp h with h | ⟨-, h⟩
  · rw [parts_one_iff] at h
    obtain ⟨_, h, -⟩ := node_matched_iff.mp h
    rcases choice_cons_matched_iff.mp h with h | ⟨-, h⟩
    · exact enclosed_matched h
    · exact absurd h not_choice_nil_matched
  · rw [readChoice_failed] at h
    · cases h
    · simp [ht, choiceStarts, partsStart, punct, name, Production.starts, Rule.starts, nextIs,
        accepts, hk]

/-- Where an operand begins a bracket encloses the elements of an array. -/
theorem array_of_primary (hat : At tokens .leftBracket f)
    (h : (reading tokens .primary f).outcome = .matched ts m) :
    ∃ us j, (reading tokens .expressionList (after tokens f)).outcome = .matched us j ∧
      At tokens .rightBracket j ∧ m = after tokens j := by
  obtain ⟨t, ht, hk, -⟩ := nextIs_iff.mp hat
  have hno : ∀ parts ∈ [[.node .expression [parenthesised (.rule .expression)]],
      [.rule .function], [.rule .classLiteral]],
      partsStart (tokenAt? tokens f) parts = false := by
    simp [ht, partsStart, parenthesised, punct, Production.starts, choiceStarts, Rule.starts,
      nextIs, accepts, hk]
  rw [reading_eq, production, choice_matched_iff, choice_skip_iff (hno _ (by simp)),
    choice_skip_iff (hno _ (by simp)), choice_skip_iff (hno _ (by simp))] at h
  rcases choice_cons_matched_iff.mp h with h | ⟨-, h⟩
  · rw [parts_one_iff, rule_matched_iff, reading_eq, production] at h
    obtain ⟨_, h, -⟩ := node_matched_iff.mp h
    rcases choice_cons_matched_iff.mp h with h | ⟨-, h⟩
    · exact enclosed_matched h
    · exact absurd h not_choice_nil_matched
  · rw [readChoice_failed] at h
    · cases h
    · simp [ht, choiceStarts, partsStart, punct, name, Production.starts, nextIs, accepts, hk]

/-- An expression and a token that closes it are a list of one expression up to that token. -/
theorem list_end_eq {i j : Nat} {k : Token.Kind}
    (hx : (reading tokens .expression f).outcome = .matched ts i) (hclose : At tokens k i)
    (hk : k ≠ .comma) (hl : (reading tokens .expressionList f).outcome = .matched us j) : j = i := by
  obtain ⟨_, hone⟩ := expressionList_of_one hx fun hc => hk (hclose.eq hc)
  rw [hl] at hone
  cases hone
  rfl

/-- What can be read as arguments or an index, and also as an operand of its own, ends alike. -/
theorem suffix_end_eq_primary_end {i : Nat}
    (hat : At tokens .leftParen f ∨ At tokens .leftBracket f)
    (hs : (readProduction tokens (reading tokens) suffix f).outcome = .matched us m)
    (hp : (reading tokens .primary f).outcome = .matched ts i) : i = m := by
  rcases hat with hat | hat
  · obtain ⟨_, j, hx, hclose, rfl⟩ := grouped_of_primary hat hp
    obtain ⟨_, j', hl, -, rfl⟩ := arguments_of_suffix hat hs
    rw [list_end_eq hx hclose (by decide) hl]
  · obtain ⟨_, j, hx, hclose, rfl⟩ := index_of_suffix hat hs
    obtain ⟨_, j', hl, -, rfl⟩ := array_of_primary hat hp
    rw [list_end_eq hx hclose (by decide) hl]

end Enclosed

/-- After a function that begins an expression which no semicolon ends, what would be a suffix of
the function is no statement. -/
theorem statement_failed_of_suffix
    (hat : At tokens .leftParen f ∨ At tokens .leftBracket f)
    (hf : (reading tokens .function s).outcome = .matched ts f)
    (hx : (reading tokens .expression s).outcome = .matched us e) (he : ¬ At tokens .semicolon e)
    {ps : List Tree}
    (hs : (readProduction tokens (reading tokens) suffix f).outcome = .matched ps m) :
    (reading tokens .statement f).outcome = .failed := by
  rw [← not_matches_iff]
  rintro ⟨vs, last, hst⟩
  obtain ⟨ws, i, hexp, hsemi, -⟩ := statement_is_expression hat hst
  obtain ⟨t, us', j, hp⟩ := expression_has_primary hexp
  obtain rfl := suffix_end_eq_primary_end hat hs hp
  obtain ⟨t', rfl⟩ := reading_single (r := .function) rfl hf
  -- both operands go on with the same suffixes
  have hlt := (suffix_proper f).moves hs rfl
  have hin := (suffix_proper f).inside hs
  have hshape : (reading tokens .suffixed s).shape = (reading tokens .suffixed f).shape := by
    have hsuff : ∀ {q k : Nat} {v : Tree} {vs : List Tree},
        (reading tokens .primary q).outcome = .matched (v :: vs) k →
        (reading tokens .suffixed q).shape =
          (readSuffixes (readProduction tokens (reading tokens) suffix) (tokens.size + 1) v
            k).shape := by
      intro q k v vs hq
      rw [reading_eq, production, readProduction, Attempt.andThen_matched
        (show (readProduction tokens (reading tokens) (.rule .primary) q).outcome = _ from
          rule_matched_iff.mpr hq), shape_reaching]
      rfl
    rw [hsuff (primary_of_function hf), hsuff hp]
    rw [readSuffixes]
    simp only [hs, shape_reaching]
    rw [← readSuffixes_succ tokens.size _ j (by omega) (by omega)]
    exact shape_suffixes _ _ _ _
  have hends := expression_shape hshape
  have : (reading tokens .expression f).shape = .matched e := by
    rw [← hends, shape_matched_iff]
    exact ⟨us, hx⟩
  obtain ⟨xs, hx'⟩ := shape_matched_iff.mp this
  rw [hexp] at hx'
  cases hx'
  exact he hsemi

/-- A statement does not begin with what can only follow an operand. -/
theorem statement_failed_of_kind {k : Token.Kind} (h : At tokens k f)
    (hk : k = .assignment ∨ k = .operator ∨ k = .comparator ∨ k = .dot) :
    (reading tokens .statement f).outcome = .failed := by
  refine reading_failed (h.starts ?_)
  intro t ht
  rcases hk with rfl | rfl | rfl | rfl <;>
    simp [Rule.starts, startsOperand, nextIs, accepts, ht]

/-- A parenthesis that does not enclose a list of arguments begins no statement. -/
theorem statement_failed_of_paren (hat : At tokens .leftParen f)
    (hs : (readProduction tokens (reading tokens) suffix f).outcome = .failed) :
    (reading tokens .statement f).outcome = .failed := by
  rw [← not_matches_iff]
  rintro ⟨vs, last, hst⟩
  obtain ⟨_, _, hexp, -⟩ := statement_is_expression (Or.inl hat) hst
  obtain ⟨t, us', j, hp⟩ := expression_has_primary hexp
  obtain ⟨_, i, hx, hclose, -⟩ := grouped_of_primary hat hp
  obtain ⟨ls, hl⟩ := expressionList_of_one hx fun hc => absurd (hc.eq hclose) (by decide)
  rw [suffix, choice_failed_iff, choice_cons_failed_iff] at hs
  exact enclosed_not_failed hat hl hclose hs.1

/-- A bracket that is no index of the operand before it: what was read behind it serves the array
that begins there, or no statement begins there. -/
theorem Builder.Bracket.resumes {b : Builder} (hat : At tokens .leftBracket f)
    (hs : (readProduction tokens (reading tokens) suffix f).outcome = .failed)
    (h : b.Bracket tokens f) : b.Resumes tokens f := by
  by_cases hempty : At tokens .rightBracket (after tokens f)
  · exact Or.inl (Or.inl (h.empty hempty))
  by_cases hmore : ∃ ts j, (reading tokens .expression (after tokens f)).outcome = .matched ts j ∧
      At tokens .comma j
  · obtain ⟨ts, j, ho, hc⟩ := hmore
    obtain ⟨hheld, hfresh⟩ := h.more ho hc
    exact Or.inl (Or.inr ⟨hat, h.vacant, ts, j, ho, hc, hheld, hfresh⟩)
  refine Or.inr ⟨?_, fun hcurly => absurd (hat.eq hcurly) (by decide)⟩
  rw [← not_matches_iff]
  rintro ⟨vs, last, hst⟩
  obtain ⟨_, _, hexp, -⟩ := statement_is_expression (Or.inr hat) hst
  obtain ⟨t, us', j, hp⟩ := expression_has_primary hexp
  -- the array that the bracket opens ends with it, so an index would have been read
  obtain ⟨ls, i, hl, hclose, -⟩ := array_of_primary hat hp
  by_cases hx : Matches tokens .expression (after tokens f)
  · obtain ⟨xs, k, hx⟩ := hx
    obtain ⟨ls', hl'⟩ := expressionList_of_one hx fun hc => hmore ⟨xs, k, hx, hc⟩
    rw [hl] at hl'
    cases hl'
    rw [suffix, choice_failed_iff, choice_cons_failed_iff, choice_cons_failed_iff] at hs
    exact enclosed_not_failed hat hx hclose hs.2.1
  · -- a list without a first item is empty
    rw [not_matches_iff] at hx
    rw [reading_eq, production, commaList] at hl
    obtain ⟨_, hl, -⟩ := node_matched_iff.mp hl
    rcases choice_cons_matched_iff.mp hl with hl | ⟨-, hl⟩
    · obtain ⟨_, _, _, hx', -⟩ := parts_cons_matched_iff.mp hl
      rw [rule_matched_iff, hx] at hx'
      cases hx'
    · rcases choice_cons_matched_iff.mp hl with hl | ⟨-, hl⟩
      · obtain ⟨-, rfl⟩ := parts_nil_matched_iff.mp hl
        exact hempty hclose
      · exact absurd hl not_choice_nil_matched

/-- Where a function ends that begins an expression which no semicolon ends, all is as before, or
an array begins, or no statement does. -/
theorem resumes_after_function {b : Builder}
    (hf : (reading tokens .function s).outcome = .matched ts f)
    (hx : (reading tokens .expression s).outcome = .matched us e) (he : ¬ At tokens .semicolon e)
    (ha : b.Ahead tokens e) : b.Resumes tokens f := by
  have hdoomed : ∀ {k : Token.Kind}, At tokens k f → k ≠ .rightCurly →
      (reading tokens .statement f).outcome = .failed → b.Resumes tokens f := by
    intro k hk hne hst
    exact Or.inr ⟨hst, fun hcurly => hne (hk.eq hcurly)⟩
  cases hs : (readProduction tokens (reading tokens) suffix f).outcome with
  | exhausted => exact absurd hs (suffix_proper f).decided
  | matched ps m =>
    -- a suffix of the function
    have hstart : choiceStarts (tokenAt? tokens f) [parenthesised (.rule .expressionList),
        bracketed (.rule .expression), [punct .dot, name]] = true := by
      by_contra hne
      rw [suffix, choice_matched_iff, readChoice_failed (Bool.eq_false_iff.mpr hne)] at hs
      cases hs
    simp only [choiceStarts, partsStart, parenthesised, bracketed, punct, Production.starts,
      Bool.or_eq_true, Bool.or_false] at hstart
    rcases hstart with hat | hat | hat
    · exact hdoomed (k := .leftParen) hat (by decide)
        (statement_failed_of_suffix (Or.inl hat) hf hx he hs)
    · exact hdoomed (k := .leftBracket) hat (by decide)
        (statement_failed_of_suffix (Or.inr hat) hf hx he hs)
    · exact hdoomed (k := .dot) hat (by decide) (statement_failed_of_kind hat (by simp))
  | failed =>
    by_cases hparen : At tokens .leftParen f
    · exact hdoomed hparen (by decide) (statement_failed_of_paren hparen hs)
    by_cases hassign : At tokens .assignment f
    · exact hdoomed hassign (by decide) (statement_failed_of_kind hassign (by simp))
    by_cases hsep : Separated tokens f
    · rcases hsep with hat | hat <;>
        exact hdoomed hat (by decide) (statement_failed_of_kind hat (by simp))
    obtain rfl := expression_end hsep hassign (suffixed_of_function hf hs) hx
    by_cases hbracket : At tokens .leftBracket e
    · exact (ha.edge.bracket hbracket).resumes hbracket hs
    · exact Or.inl (Or.inl (ha.edge.stop hparen hbracket hassign hsep))

/-- The function that is left of an expression without a semicolon has none either. -/
theorem no_semicolon_after_function (hf : (reading tokens .function s).outcome = .matched ts f)
    (hx : (reading tokens .expression s).outcome = .matched us e)
    (he : ¬ At tokens .semicolon e) : ¬ At tokens .semicolon f := by
  intro hat
  obtain ⟨u, hu, hk, -⟩ := nextIs_iff.mp hat
  have hs : (readProduction tokens (reading tokens) suffix f).outcome = .failed := by
    rw [suffix, choice_failed_iff]
    refine readChoice_failed ?_
    simp [hu, choiceStarts, partsStart, parenthesised, bracketed, punct, Production.starts, nextIs,
      accepts, hk]
  have hsep : ¬ Separated tokens f := by
    rintro (h | h) <;> exact absurd (hat.eq h) (by decide)
  obtain rfl := expression_end hsep (fun h => absurd (hat.eq h) (by decide))
    (suffixed_of_function hf hs) hx
  exact he hat

theorem readSuffixes_ne_failed {step : Nat → Attempt} (rounds : Nat) :
    ∀ (t : Tree) (q : Nat), (readSuffixes step rounds t q).outcome ≠ .failed := by
  induction rounds with
  | zero => intro t q; simp [readSuffixes]
  | succ rounds ih =>
    intro t q
    rw [readSuffixes]
    cases h : (step q).outcome with
    | exhausted => simp [h]
    | failed => simp
    | matched parts m => exact ih _ m

theorem expression_not_failed (h : (reading tokens .function s).outcome = .matched ts f) :
    (reading tokens .expression s).outcome ≠ .failed := by
  intro hx
  rw [expression_failed_iff, reading_eq, production, readProduction, Attempt.andThen_matched
    (show (readProduction tokens (reading tokens) (.rule .primary) s).outcome = _ from
      rule_matched_iff.mpr (primary_of_function h))] at hx
  obtain ⟨t, rfl⟩ := reading_single (r := .function) rfl h
  exact readSuffixes_ne_failed _ _ _ hx

theorem expression_failed_of_primary (h : (reading tokens .primary s).outcome = .failed) :
    (reading tokens .expression s).outcome = .failed := by
  rw [expression_failed_iff, ← not_matches_iff]
  rintro ⟨ts, e, ho⟩
  obtain ⟨t, us, m, hp, -⟩ := suffixed_matched_iff.mp ho
  rw [h] at hp
  cases hp

/-- An expression that begins with a keyword begins with a function or a class. -/
theorem expression_failed_of_keyword {t : Token} (ht : tokenAt? tokens s = some t)
    (hk : t.kind = .keyword) (hf : (reading tokens .function s).outcome = .failed)
    (hc : (reading tokens .classLiteral s).outcome = .failed) :
    (reading tokens .expression s).outcome = .failed := by
  refine expression_failed_of_primary ?_
  rw [reading_eq, production, choice_failed_iff, choice_cons_failed_iff]
  refine ⟨readParts_failed ?_, choice_cons_failed_iff.mpr
    ⟨parts_failed_of_rule hf, choice_cons_failed_iff.mpr
      ⟨parts_failed_of_rule hc, readChoice_failed ?_⟩⟩⟩
  · simp [ht, partsStart, Production.starts, choiceStarts, parenthesised, punct, nextIs, accepts, hk]
  · simp [ht, choiceStarts, partsStart, punct, name, Production.starts, Rule.starts, nextIs, accepts,
      hk]

end AfterFunction

section Statement

variable {fuel lo : Nat}

theorem meets_choice_one {pos : Nat} {P : Builder → Prop} {R : Nat → Builder → Prop}
    {F : Builder → Prop} {parts : List Production}
    (h : MeetsParts tokens fuel parts pos lo P R F) (hP : Stable tokens P)
    (hR : ∀ m, Stable tokens (R m)) : MeetsChoice tokens fuel [parts] pos lo P R F :=
  meets_choice_cons h (fun _ => meets_choice_nil.giving fun _ _ _ _ hb => hb.elim) hP hR

/-- A semicolon that may be left out. -/
theorem meets_optional_semicolon {m : Nat} {F : Builder → Prop} :
    MeetsParts tokens fuel [.optional semicolon] m lo (fun b => b.Fresh m)
      (fun n b => b.Resumes tokens n) F := by
  have hsemi : MeetsPart tokens fuel (.optional semicolon) m lo (fun b => b.Fresh m)
      (fun n b => b.Resumes tokens n) F := by
    refine (meets_optional (F := fun b => b.Fresh m) ?_ ?_).failing fun _ _ hb => hb.elim
    · refine ((meets_token _ _ stable_fresh).giving ?_).failing fun _ _ hb => hb.1
      rintro b ts n - ⟨hb, rfl, -⟩
      exact Or.inl (Or.inl hb.after)
    · exact fun b _ hb => Or.inl (Or.inl hb)
  exact meets_parts_cons hsemi fun n _ _ _ => meets_done fun b hb => hb

/-- A condition in parentheses and a block in braces, then the rest. -/
theorem meets_conditional (sp : Specs tokens fuel) {m : Nat} (hlo : lo ≤ m)
    {parts : List Production} {R : Nat → Builder → Prop}
    (h : ∀ n, m ≤ n → MeetsParts tokens fuel parts n lo (fun b => b.Fresh n) R fun _ => True) :
    MeetsParts tokens fuel (parenthesised (.rule .expression) ++ (braced ++ parts)) m lo
      (fun b => b.Fresh m) R fun _ => True := by
  have hlt := lt_after tokens m
  refine meets_token_then stable_fresh (fun _ _ => ?_) fun _ _ _ => trivial
  refine meets_rule_then ((sp.expression (after tokens m)).before fun _ hb => Or.inl hb.after)
    (by omega) ?_
    fun _ _ hb => hb
  intro e ts _ hle
  have hlt' := lt_after tokens e
  refine meets_token_then (stable_held.and (stable_ahead.and stable_opened)) ?_ fun _ _ _ => trivial
  intro _ hat
  refine (meets_braced sp (m := after tokens e) (by omega) fun n hn => h n (by omega)).before
    fun b hb => ?_
  exact (hb.2.1.fresh hat (by decide)).after

/-- An else branch that may be left out. -/
theorem meets_else (sp : Specs tokens fuel) {m : Nat} (hlo : lo ≤ m) :
    MeetsParts tokens fuel
      [.optional (.choice [[kw "else", .rule .ifStatement], kw "else" :: braced])] m lo
      (fun b => b.Fresh m) (fun n b => b.Resumes tokens n) fun _ => True := by
  have hlt := lt_after tokens m
  have hR : ∀ n, Stable tokens fun b => b.Resumes tokens n := fun _ => stable_resumes
  -- a statement does not begin with the word else
  have hdoomed : nextIs .keyword (some "else") (tokenAt? tokens m) = true → Doomed tokens m := by
    intro hnext
    obtain ⟨t, ht, hk, htext⟩ := nextIs_iff.mp hnext
    refine ⟨reading_failed ?_, ?_⟩
    · simp [ht, Rule.starts, startsOperand, nextIs, accepts, hk, ← htext "else" rfl]
    · simp [At, ht, nextIs, accepts, hk]
  have hfail : ∀ b : Builder, (nextIs .keyword (some "else") (tokenAt? tokens m) = false → b.Fresh m) →
      b.Resumes tokens m := by
    intro b hb
    by_cases hnext : nextIs .keyword (some "else") (tokenAt? tokens m) = true
    · exact Or.inr (hdoomed hnext)
    · exact Or.inl (Or.inl (hb (Bool.eq_false_iff.mpr hnext)))
  have hchoice : MeetsChoice tokens fuel [[kw "else", .rule .ifStatement], kw "else" :: braced] m lo
      (fun b => b.Fresh m) (fun n b => b.Resumes tokens n)
      (fun b => nextIs .keyword (some "else") (tokenAt? tokens m) = false → b.Fresh m) := by
    by_cases hif : Rule.starts (tokenAt? tokens (after tokens m)) .ifStatement = true
    · -- then no brace follows
      refine meets_choice_cons
        (G := fun b => nextIs .keyword (some "else") (tokenAt? tokens m) = false → b.Fresh m)
        ?_ (fun _ => ?_) stable_fresh hR
      · refine meets_token_then stable_fresh ?_ fun _ _ hb _ => hb
        intro hnext _
        refine meets_rule_then ((sp.ifStatement (after tokens m)).before fun _ hb => hb.after)
          (by omega) (fun n _ _ _ => meets_done fun b hb => hb) ?_
        intro b _ _ hno
        rw [hnext] at hno
        cases hno
      · refine meets_choice_one ?_ stable_fresh.imp hR
        refine meets_token_then stable_fresh.imp ?_ fun _ _ hb => hb
        intro hnext _
        refine (((meets_parts_refused (P := fun _ => True) stable_true ?_).before
          (fun _ _ => trivial)).giving (fun _ _ _ _ hb => hb.elim)).failing ?_
        · obtain ⟨t, ht, hk, -⟩ := nextIs_iff.mp (show nextIs .keyword (some "if") _ = true from hif)
          simp [ht, partsStart, braced, punct, Production.starts, nextIs, accepts, hk]
        · intro b _ _ hno
          rw [hnext] at hno
          cases hno
    · have hno := Bool.eq_false_iff.mpr hif
      refine meets_choice_cons (G := fun b => b.Fresh m) ?_ (fun _ => ?_) stable_fresh hR
      · refine meets_token_then stable_fresh (fun _ _ => ?_) fun _ _ hb => hb
        exact meets_rule_then (meetsRule_refused stable_fresh fuel .ifStatement hno) (by omega)
          (fun _ _ _ _ => Meets.of_false) fun _ _ hb => hb
      · refine meets_choice_one ?_ stable_fresh hR
        refine meets_token_then stable_fresh ?_ fun _ _ hb _ => hb
        intro hnext _
        refine (((meets_body sp (by omega)).before (fun _ hb => hb.after)).giving
          (fun _ _ _ _ hb => Or.inl (Or.inl hb))).failing ?_
        intro b _ _ hno
        rw [hnext] at hno
        cases hno
  refine meets_parts_cons ((meets_optional (meets_choice hchoice)
    fun b _ hb => hfail b hb).failing fun _ _ _ => trivial) ?_
  exact fun n _ _ _ => meets_done fun b hb => hb

theorem meets_if (sp : Specs tokens fuel) (s : Nat) :
    MeetsParts tokens fuel ifParts s s (fun b => b.Fresh s) (fun m b => b.Resumes tokens m)
      fun _ => True := by
  have hlt := lt_after tokens s
  refine meets_token_then stable_fresh (fun _ _ => ?_) fun _ _ _ => trivial
  exact (meets_conditional sp (Nat.le_of_lt hlt) fun n hn => meets_else sp (by omega)).before
    fun _ hb => hb.after

theorem ifStatement_meets (sp : Specs tokens fuel) (s : Nat) :
    MeetsRule tokens (fuel + 1) .ifStatement s s (fun b => b.Fresh s)
      (fun m b => b.Resumes tokens m) fun _ => True :=
  meets_rule rfl (meets_node (meets_choice_one (meets_if sp s) stable_fresh fun _ => stable_resumes)
    stable_fresh fun _ => stable_resumes)

theorem meets_while (sp : Specs tokens fuel) (s : Nat) :
    MeetsParts tokens fuel whileParts s s (fun b => b.Fresh s) (fun m b => b.Resumes tokens m)
      fun _ => True := by
  have hlt := lt_after tokens s
  refine meets_token_then stable_fresh (fun _ _ => ?_) fun _ _ _ => trivial
  have hend : ∀ n, after tokens s ≤ n → MeetsParts tokens fuel [] n s (fun b => b.Fresh n)
      (fun m b => b.Resumes tokens m) fun _ => True :=
    fun n _ => meets_done fun b hb => Or.inl (Or.inl hb)
  exact (meets_conditional sp (Nat.le_of_lt hlt) hend).before fun _ hb => hb.after

/-- The alternatives of a statement that begins with the word let. -/
theorem meets_let (sp : Specs tokens fuel) {s : Nat} {alternatives : List (List Production)}
    (hrest : choiceStarts (tokenAt? tokens s) alternatives = false) :
    MeetsChoice tokens fuel ([kw "let", name, punct .assignment, .rule .expression, semicolon] ::
        [kw "let", name, semicolon] :: alternatives) s s
      (fun b => b.Fresh s) (fun m b => b.Resumes tokens m) fun _ => True := by
  have hR : ∀ n, Stable tokens fun b => b.Resumes tokens n := fun _ => stable_resumes
  have h₁ := lt_after tokens s
  have h₂ := lt_after tokens (after tokens s)
  have h₃ := lt_after tokens (after tokens (after tokens s))
  -- with an assignment the first alternative decides; without one it ends behind the name
  by_cases hassign : At tokens .assignment (after tokens (after tokens s))
  · refine meets_choice_cons (G := fun _ => True) ?_ (fun _ => ?_) stable_fresh hR
    · refine meets_token_then stable_fresh (fun _ _ => ?_) fun _ _ _ => trivial
      refine meets_token_then stable_fresh (fun _ _ => ?_) fun _ _ _ => trivial
      refine meets_token_then stable_fresh (fun _ _ => ?_) fun _ _ _ => trivial
      refine meets_rule_then ((sp.expression _).before fun _ hb => Or.inl hb.after.after.after)
        (by omega) ?_ fun _ _ hb => hb
      intro e ts _ _
      exact (meets_closing.before (fun b hb hat => hb.2.1.fresh hat (by decide))).giving
        fun _ _ _ _ hb => Or.inl (Or.inl hb)
    · -- without a semicolon after the name nothing else can match
      refine meets_of_failed (choice_agrees tokens fuel _).loosely
        (choice_cons_failed_iff.mpr ⟨?_, readChoice_failed hrest⟩)
      refine parts_failed_after_token (parts_failed_after_token (parts_failed_of_token ?_))
      refine Bool.eq_false_iff.mpr fun hsemi => ?_
      exact absurd (hassign.eq (show At tokens .semicolon _ from hsemi)) (by decide)
  · refine meets_choice_cons (G := fun b => b.Fresh s) ?_ (fun _ => ?_) stable_fresh hR
    · refine meets_token_then stable_fresh (fun _ _ => ?_) fun _ _ hb => hb
      refine meets_token_then stable_fresh (fun _ _ => ?_) fun _ _ hb => hb
      exact meets_token_then stable_fresh (fun _ hat => absurd hat hassign) fun _ _ hb => hb
    · refine meets_choice_last ?_ hrest stable_fresh hR
      refine meets_token_then stable_fresh (fun _ _ => ?_) fun _ _ _ => trivial
      refine meets_token_then stable_fresh (fun _ _ => ?_) fun _ _ _ => trivial
      refine meets_token_then stable_fresh (fun _ _ => ?_) fun _ _ _ => trivial
      exact meets_done fun b hb => Or.inl (Or.inl hb.after.after.after)

/-- A function with a name reads as a function. -/
theorem function_failed_of_named {s : Nat}
    (hname : nextIs .identifier none (tokenAt? tokens (after tokens s)) = true)
    (h : (readProduction tokens (reading tokens) namedFunction s).outcome = .failed) :
    (reading tokens .function s).outcome = .failed := by
  rw [node_failed_iff, choice_cons_failed_iff] at h
  rw [reading_eq, production, node_failed_iff, choice_cons_failed_iff]
  refine ⟨?_, rfl⟩
  rcases parts_cons_failed_iff.mp h.1 with h | ⟨us, m, hw, h⟩
  · exact parts_failed_here h
  · refine parts_failed_later hw ?_
    obtain ⟨_, _, _, -, rfl⟩ := token_matched_iff.mp hw
    rcases parts_cons_failed_iff.mp h with h | ⟨vs, i, hn, h⟩
    · exact absurd (token_failed_iff.mp h) (by
        rw [show nextIs .identifier none (tokenAt? tokens (skip tokens s + 1)) = true from hname]
        decide)
    · exact parts_failed_later (optional_matched_iff.mpr (Or.inl hn)) h

/-- After an expression that no semicolon ends: either there is none, or what follows it is
known. -/
def Builder.Unended (tokens : Array Token) (b : Builder) (s : Nat) : Prop :=
  (reading tokens .expression s).outcome = .failed ∨
    ∃ us e, (reading tokens .expression s).outcome = .matched us e ∧ ¬ At tokens .semicolon e ∧
      b.Ahead tokens e ∧ b.Opened tokens s e

theorem stable_unended {s : Nat} : Stable tokens fun b => b.Unended tokens s := by
  rintro b b' hk (h | ⟨us, e, ho, hno, ha, hopened⟩)
  · exact Or.inl h
  · exact Or.inr ⟨us, e, ho, hno, stable_ahead hk ha, stable_opened hk hopened⟩

theorem meets_expression_statement (sp : Specs tokens fuel) (s : Nat) :
    MeetsParts tokens fuel [.rule .expression, semicolon] s s (fun b => b.Begins tokens s)
      (fun m b => b.Resumes tokens m) fun b => b.Unended tokens s := by
  refine meets_rule_then (sp.expression s) (Nat.le_refl s) ?_ fun _ hf _ => Or.inl hf
  intro e us ho _
  refine meets_token_then (stable_held.and (stable_ahead.and stable_opened)) ?_ ?_
  · intro _ hat
    exact meets_done fun b hb => Or.inl (Or.inl (hb.2.1.fresh hat (by decide)).after)
  · intro hno b hb
    exact Or.inr ⟨us, e, ho, Bool.eq_false_iff.mp hno, hb.2⟩

theorem meetsRule_zero {r : Rule} {pos : Nat} {P : Builder → Prop} {R : Nat → Builder → Prop}
    {F : Builder → Prop} : MeetsRule tokens 0 r pos lo P R F := by
  intro target b b' res _ _ hrun
  cases hrun
  trivial

/-- A function that was read as the beginning of an expression without a semicolon. -/
theorem meets_function_statement (fuel s : Nat) :
    MeetsParts tokens fuel [.rule .function, .optional semicolon] s s
      (fun b => b.Unended tokens s) (fun m b => b.Resumes tokens m) fun _ => True := by
  by_cases hf : Matches tokens .function s
  swap
  · refine meets_of_failed (parts_agree tokens _ _) (parts_failed_here ?_)
    exact rule_failed_iff.mpr (not_matches_iff.mp hf)
  obtain ⟨ts, f, hf⟩ := hf
  -- the function has been read as an operand, so its rule finds it in the table
  have hhit : MeetsRule tokens fuel .function s s (fun b => b.Unended tokens s)
      (fun m b => b.Resumes tokens m ∧ ¬ At tokens .semicolon m) fun _ => False := by
    cases fuel with
    | zero => exact meetsRule_zero
    | succ fuel =>
      refine meets_hit rfl ?_ ?_
      · rintro b (hfail | ⟨us, e, -, -, -, hopened⟩)
        · exact absurd hfail (expression_not_failed hf)
        · exact (hopened hf).2
      · rintro b b' us m ho hb hheld hvacant
        rw [hf] at ho
        cases ho
        rcases hb with hfail | ⟨us, e, hx, hno, ha, -⟩
        · exact absurd hfail (expression_not_failed hf)
        · have hlt := (reading_proper .expression s).moves hx rfl
          have hkeeps : Keeps tokens (s + 1) 0 b b' := by
            refine ⟨?_, fun q _ hq => hvacant q hq⟩
            intro r q hq
            exact hheld r q (Or.inl (Nat.lt_of_lt_of_le hq (r.le_low q)))
          exact ⟨resumes_after_function hf hx hno (ha.keeps hkeeps hlt (Nat.zero_le e)),
            no_semicolon_after_function hf hx hno⟩
  refine meets_rule_then hhit (Nat.le_refl s) ?_ fun _ _ hb => hb.elim
  intro m us _ _
  -- a semicolon does not follow, or the operand with it would have been a statement
  have hsemi : MeetsPart tokens fuel (.optional semicolon) m s
      (fun b => b.Resumes tokens m ∧ ¬ At tokens .semicolon m) (fun n b => b.Resumes tokens n)
      fun _ => False := by
    refine meets_optional (F := fun b => b.Resumes tokens m) ?_ fun b _ hb => hb
    refine ((meets_token _ _ (stable_resumes.and stable_const)).giving ?_).failing fun _ _ hb => hb.1.1
    rintro b ts n - ⟨⟨-, hno⟩, -, t, ht, hacc⟩
    exact absurd (at_of_accepts ht hacc) hno
  refine meets_parts_cons (hsemi.failing fun _ _ hb => hb.elim) ?_
  exact fun n _ _ _ => meets_done fun b hb => hb

/-- The alternatives of a statement that begins with the word func. -/
theorem meets_func (sp : Specs tokens fuel) {s : Nat} {t : Token}
    (ht : tokenAt? tokens s = some t) (hk : t.kind = .keyword) (htext : t.text = "func") :
    MeetsChoice tokens fuel [
        [namedFunction, .optional semicolon],
        [.rule .classLiteral, .optional semicolon],
        [kw "let", name, punct .assignment, .rule .expression, semicolon],
        [kw "let", name, semicolon],
        [.rule .expression, semicolon],
        [.rule .function, .optional semicolon]] s s
      (fun b => b.Fresh s) (fun m b => b.Resumes tokens m) fun _ => True := by
  have hR : ∀ n, Stable tokens fun b => b.Resumes tokens n := fun _ => stable_resumes
  have hF : ∀ n, Stable tokens fun b => b.Fresh n := fun _ => stable_fresh
  have hlt := lt_after tokens s
  have hclass : Rule.starts (tokenAt? tokens s) .classLiteral = false := by
    simp [ht, Rule.starts, nextIs, accepts, hk, htext]
  have hlet : nextIs .keyword (some "let") (tokenAt? tokens s) = false := by
    simp [ht, nextIs, accepts, hk, htext]
  -- with a name behind the word this is a named function; without one only an operand begins so
  by_cases hname : nextIs .identifier none (tokenAt? tokens (after tokens s)) = true
  · refine meets_choice_cons (G := fun _ => True) ?_ (fun hfail => ?_) stable_fresh hR
    · have hnamed : MeetsPart tokens fuel namedFunction s s
          (fun b => b.Fresh s) (fun m b => b.Fresh m) fun _ => True := by
        refine meets_node (meets_choice_one ?_ stable_fresh hF) stable_fresh hF
        refine meets_token_then stable_fresh (fun _ _ => ?_) fun _ _ _ => trivial
        refine meets_token_then stable_fresh (fun _ _ => ?_) fun _ _ _ => trivial
        have hlt' := lt_after tokens (after tokens s)
        exact (meets_signature sp (by omega)).before fun _ hb => hb.after.after
      exact meets_parts_cons hnamed fun m _ _ _ => meets_optional_semicolon
    · -- the function fails, and with it every expression that would begin with it
      have hfunc : (reading tokens .function s).outcome = .failed :=
        function_failed_of_named hname (parts_optional_failed_iff.mp hfail)
      have hexp := expression_failed_of_keyword ht hk hfunc (reading_failed hclass)
      refine meets_of_failed (choice_agrees tokens fuel _).loosely ?_
      simp only [choice_cons_failed_iff, parts_cons_failed_iff, rule_failed_iff, hexp, hfunc,
        reading_failed hclass, true_or, choice_nil_failed, and_true, true_and]
      exact ⟨Or.inl (token_failed_iff.mpr hlet), Or.inl (token_failed_iff.mpr hlet)⟩
  · refine meets_choice_cons (G := fun b => b.Fresh s) ?_ (fun _ => ?_) stable_fresh hR
    · have hnamed : MeetsPart tokens fuel namedFunction s s
          (fun b => b.Fresh s) (fun _ _ => False) fun b => b.Fresh s := by
        refine meets_node (meets_choice_one ?_ stable_fresh fun _ => stable_const) stable_fresh
          fun _ => stable_const
        refine meets_token_then stable_fresh (fun _ _ => ?_) fun _ _ hb => hb
        exact meets_token_then stable_fresh (fun h _ => absurd h hname) fun _ _ hb => hb
      exact meets_parts_cons hnamed fun m _ _ _ => Meets.of_false
    · refine meets_choice_skip (by simpa [partsStart, Production.starts] using hclass) stable_fresh hR
        ?_
      refine meets_choice_skip (by simpa [partsStart, kw, Production.starts] using hlet)
        stable_fresh hR
        ?_
      refine meets_choice_skip (by simpa [partsStart, kw, Production.starts] using hlet)
        stable_fresh hR
        ?_
      refine meets_choice_cons ((meets_expression_statement sp s).before fun _ hb => Or.inl hb)
        (fun _ => ?_) stable_fresh hR
      exact meets_choice_one (meets_function_statement fuel s) stable_unended hR

/-- The alternatives of a statement that begins with the word class. -/
theorem meets_class (sp : Specs tokens fuel) {s : Nat} {t : Token}
    (ht : tokenAt? tokens s = some t) (hk : t.kind = .keyword) (htext : t.text = "class") :
    MeetsChoice tokens fuel [
        [.rule .classLiteral, .optional semicolon],
        [kw "let", name, punct .assignment, .rule .expression, semicolon],
        [kw "let", name, semicolon],
        [.rule .expression, semicolon],
        [.rule .function, .optional semicolon]] s s
      (fun b => b.Fresh s) (fun m b => b.Resumes tokens m) fun _ => True := by
  have hlet : nextIs .keyword (some "let") (tokenAt? tokens s) = false := by
    simp [ht, nextIs, accepts, hk, htext]
  have hfunc : (reading tokens .function s).outcome = .failed := by
    refine reading_failed ?_
    simp [ht, Rule.starts, nextIs, accepts, hk, htext]
  refine meets_choice_cons (G := fun _ => True) ?_ (fun hfail => ?_) stable_fresh
    fun _ => stable_resumes
  · exact meets_rule_then (sp.classLiteral s) (Nat.le_refl s)
      (fun m _ _ _ => meets_optional_semicolon) fun _ _ _ => trivial
  · have hclass : (reading tokens .classLiteral s).outcome = .failed := by
      rcases parts_cons_failed_iff.mp hfail with h | ⟨_, _, -, h⟩
      · exact rule_failed_iff.mp h
      · rcases parts_cons_failed_iff.mp h with h | ⟨_, _, -, h⟩
        · exact absurd h not_optional_failed
        · exact absurd h not_parts_nil_failed
    have hexp := expression_failed_of_keyword ht hk hfunc hclass
    refine meets_of_failed (choice_agrees tokens fuel _).loosely ?_
    simp only [choice_cons_failed_iff, parts_cons_failed_iff, rule_failed_iff, hexp, hfunc,
      true_or, choice_nil_failed, and_true]
    exact ⟨Or.inl (token_failed_iff.mpr hlet), Or.inl (token_failed_iff.mpr hlet)⟩

/-- What can begin and does not begin with a word is an expression and a semicolon. -/
theorem meets_wordless (sp : Specs tokens fuel) {s : Nat}
    (hword : ∀ word, nextIs .keyword (some word) (tokenAt? tokens s) = false) :
    MeetsChoice tokens fuel statementParts s s
      (fun b => b.Begins tokens s) (fun m b => b.Resumes tokens m) fun _ => True := by
  have hR : ∀ n, Stable tokens fun b => b.Resumes tokens n := fun _ => stable_resumes
  have hskip : ∀ {parts alternatives},
      partsStart (tokenAt? tokens s) parts = false →
      MeetsChoice tokens fuel alternatives s s (fun b => b.Begins tokens s)
        (fun m b => b.Resumes tokens m) (fun _ => True) →
      MeetsChoice tokens fuel (parts :: alternatives) s s (fun b => b.Begins tokens s)
        (fun m b => b.Resumes tokens m) fun _ => True :=
    fun hp h => meets_choice_skip hp stable_begins hR h
  have hrest : choiceStarts (tokenAt? tokens s) [[.rule .function, .optional semicolon]] = false := by
    simp [choiceStarts, partsStart, Production.starts, Rule.starts, hword]
  have hlast := meets_choice_last
    ((meets_expression_statement sp s).failing fun _ _ _ => trivial) hrest stable_begins hR
  refine hskip ?_ (hskip ?_ (hskip ?_ (hskip ?_ (hskip ?_ (hskip ?_ hlast))))) <;>
  simp [choiceStarts, partsStart, ifParts, whileParts, kw, Production.starts, Rule.starts, hword]

/-- The words that a statement begins with. -/
theorem words_of_statement {t : Token} (hk : t.kind = .keyword)
    (h : Rule.starts (some t) .statement = true) :
    t.text = "if" ∨ t.text = "while" ∨ t.text = "let" ∨ t.text = "func" ∨ t.text = "class" := by
  simp only [Rule.starts, startsOperand, nextIs, accepts, hk] at h
  simp only [decide_true, Option.all_some, Bool.true_and, Option.all_none, Bool.and_true,
    reduceCtorEq, decide_false, Bool.false_or, Bool.or_false, Bool.or_eq_true,
    decide_eq_true_eq] at h
  rcases h with ((h | h) | h) | h | h
  · exact Or.inl h.symm
  · exact Or.inr (Or.inl h.symm)
  · exact Or.inr (Or.inr (Or.inl h.symm))
  · exact Or.inr (Or.inr (Or.inr (Or.inl h.symm)))
  · exact Or.inr (Or.inr (Or.inr (Or.inr h.symm)))

/-- A word leaves one alternative, or those that begin with the same word. -/
theorem meets_worded (sp : Specs tokens fuel) {s : Nat} {t : Token}
    (ht : tokenAt? tokens s = some t) (hk : t.kind = .keyword)
    (hstart : Rule.starts (some t) .statement = true) :
    MeetsChoice tokens fuel statementParts s s
      (fun b => b.Fresh s) (fun m b => b.Resumes tokens m) fun _ => True := by
  have hR : ∀ n, Stable tokens fun b => b.Resumes tokens n := fun _ => stable_resumes
  rcases words_of_statement hk hstart with htext | htext | htext | htext | htext
  · refine meets_choice_last (meets_if sp s) ?_ stable_fresh hR
    simp [ht, choiceStarts, partsStart, whileParts, kw, Production.starts, Rule.starts,
      startsOperand, nextIs, accepts, hk, htext]
  · refine meets_choice_skip ?_ stable_fresh hR (meets_choice_last (meets_while sp s) ?_
      stable_fresh hR)
    · simp [ht, partsStart, ifParts, kw, Production.starts, nextIs, accepts, hk, htext]
    · simp [ht, choiceStarts, partsStart, kw, Production.starts, Rule.starts,
        startsOperand, nextIs, accepts, hk, htext]
  · refine meets_choice_skip ?_ stable_fresh hR (meets_choice_skip ?_ stable_fresh hR
      (meets_choice_skip ?_ stable_fresh hR (meets_choice_skip ?_ stable_fresh hR
        (meets_let sp ?_)))) <;>
    simp [ht, choiceStarts, partsStart, ifParts, whileParts, kw, Production.starts, Rule.starts,
      startsOperand, nextIs, accepts, hk, htext]
  · refine meets_choice_skip ?_ stable_fresh hR (meets_choice_skip ?_ stable_fresh hR
      (meets_func sp ht hk htext)) <;>
    simp [ht, partsStart, ifParts, whileParts, kw, Production.starts, nextIs, accepts, hk, htext]
  · refine meets_choice_skip ?_ stable_fresh hR (meets_choice_skip ?_ stable_fresh hR
      (meets_choice_skip ?_ stable_fresh hR (meets_class sp ht hk htext))) <;>
    simp [ht, choiceStarts, partsStart, ifParts, whileParts, kw, Production.starts, nextIs,
      accepts, hk, htext]

theorem statement_meets (sp : Specs tokens fuel) (s : Nat) :
    MeetsRule tokens (fuel + 1) .statement s s (fun b => b.Begins tokens s)
      (fun m b => b.Resumes tokens m) fun b => At tokens .rightCurly s → b.Fresh s := by
  refine meets_rule rfl (meets_node ?_ stable_begins fun _ => stable_resumes)
  by_cases hstart : Rule.starts (tokenAt? tokens s) .statement = true
  · -- a statement that can begin does not begin with a closing brace
    have hcurly : ¬ At tokens .rightCurly s := by
      intro hat
      rw [hat.starts] at hstart
      · cases hstart
      · intro t ht
        simp [Rule.starts, startsOperand, nextIs, accepts, ht]
    refine Meets.failing (F := fun _ => True) ?_ fun _ _ _ hat => absurd hat hcurly
    by_cases hword : ∃ t, tokenAt? tokens s = some t ∧ t.kind = .keyword
    · obtain ⟨t, ht, hk⟩ := hword
      have hbracket : ¬ At tokens .leftBracket s := by simp [At, ht, nextIs, accepts, hk]
      exact (meets_worded sp ht hk (ht ▸ hstart)).before fun _ hb => hb.fresh hbracket
    · refine meets_wordless sp fun word => ?_
      by_contra hne
      obtain ⟨t, ht, hk, -⟩ := nextIs_iff.mp (Bool.of_not_eq_false hne)
      exact hword ⟨t, ht, hk⟩
  · have hno : choiceStarts (tokenAt? tokens s) _ = false :=
      production_starts (r := .statement) (Bool.eq_false_iff.mpr hstart)
    refine ((meets_choice_refused stable_begins hno).giving (fun _ _ _ _ hb => hb.elim)).failing ?_
    intro b _ hb hat
    exact hb.fresh fun hbracket => absurd (hat.eq hbracket) (by decide)

theorem block_meets (sp : Specs tokens fuel) (s : Nat) :
    MeetsRule tokens (fuel + 1) .block s s (fun b => b.Fresh s)
      (fun m b => At tokens .rightCurly m → b.Fresh m) fun _ => True := by
  have hR : ∀ m, Stable tokens fun b => At tokens .rightCurly m → b.Fresh m :=
    fun _ => stable_fresh.imp
  refine meets_rule rfl (meets_node (meets_choice_one ?_ stable_fresh hR) stable_fresh hR)
  have hmany : MeetsPart tokens fuel (.many [.rule .statement]) s s (fun b => b.Resumes tokens s)
      (fun m b => At tokens .rightCurly m → b.Fresh m) fun _ => False := by
    refine meets_many (J := fun q b => b.Resumes tokens q) ?_ fun _ => stable_resumes
    intro q hq
    have hmoves : ∀ {m ts}, (reading tokens .statement q).outcome = .matched ts m → q < m :=
      fun ho => (reading_proper .statement q).moves ho rfl
    by_cases hdoomed : Doomed tokens q
    · refine meets_rule_then (P := fun b => b.Resumes tokens q) (S := fun _ _ => False)
        (meetsRule_of_failed hdoomed.1) hq (fun _ _ _ _ => Meets.of_false) ?_
      exact fun _ _ _ hat => absurd hat hdoomed.2
    · refine meets_rule_then ((sp.statement q).before ?_) hq ?_ fun _ _ hb => hb
      · exact fun b hb => hb.resolve_right hdoomed
      · exact fun m ts ho _ => meets_done fun b hb => ⟨hmoves ho, hb⟩
  refine meets_parts_cons ((hmany.before (fun _ hb => Or.inl (Or.inl hb))).failing
    fun _ _ hb => hb.elim) ?_
  exact fun m _ _ _ => meets_done fun b hb => hb

end Statement

theorem specs_zero : Specs tokens 0 where
  suffixed := fun _ => meetsRule_zero
  power := fun _ => meetsRule_zero
  multiplicative := fun _ => meetsRule_zero
  additive := fun _ => meetsRule_zero
  comparison := fun _ => meetsRule_zero
  expression := fun _ => meetsRule_zero
  primary := fun _ => meetsRule_zero
  function := fun _ => meetsRule_zero
  classLiteral := fun _ => meetsRule_zero
  array := fun _ => meetsRule_zero
  expressionList := fun _ => meetsRule_zero
  argumentList := fun _ => meetsRule_zero
  block := fun _ => meetsRule_zero
  statement := fun _ => meetsRule_zero
  ifStatement := fun _ => meetsRule_zero

/-- With every amount of fuel, each rule builds whole trees from the states it is asked in. -/
theorem specs (fuel : Nat) : Specs tokens fuel := by
  induction fuel with
  | zero => exact specs_zero
  | succ fuel sp =>
    exact ⟨suffixed_meets sp, power_meets sp, multiplicative_meets sp, additive_meets sp,
      comparison_meets sp, expression_meets sp, primary_meets sp, function_meets sp,
      classLiteral_meets sp, array_meets sp, expressionList_meets sp, argumentList_meets,
      block_meets sp, statement_meets sp, ifStatement_meets sp⟩

end ScriptKit.Grammar
