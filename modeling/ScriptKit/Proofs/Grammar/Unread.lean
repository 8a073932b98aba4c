import ScriptKit.Proofs.Grammar.Sharing
import ScriptKit.Proofs.Program.Normal

namespace ScriptKit.Grammar

open Arena (root)

variable {X Y : Array Token} {r pos m : Nat} {ts : List Tree}

section Statements

/-- A condition in parentheses and a block in braces, then the rest. -/
theorem conditional_carries (parts : List Production) (hf : Further X Y r pos) {word : String}
    (hd : partsDescend 10 parts = true)
    (h : (readParts X (reading X) (kw word :: parenthesised (.rule .expression) ++ (braced ++ parts))
      pos).outcome = .matched ts m) (hm : m ≤ r)
    (hrest : ∀ {vs j}, pos < j → (readParts X (reading X) parts j).outcome = .matched vs m →
      (readParts Y (reading Y) parts j).outcome = .matched vs m) :
    (readParts Y (reading Y) (kw word :: parenthesised (.rule .expression) ++ (braced ++ parts))
      pos).outcome = .matched ts m := by
  have hd' : partsDescend 10 (braced ++ parts) = true := by
    simpa [braced, partsDescend, Production.descends, punct, Production.takes, Rule.rank_lt] using hd
  have hd'' : partsDescend 10 (parenthesised (.rule .expression) ++ (braced ++ parts)) = true := by
    simpa [parenthesised, partsDescend, Production.descends, punct, Production.takes,
      Rule.rank_lt] using hd'
  refine token_then hf.shares hd'' h hm fun hlt h => ?_
  refine enclosed_then hf (Nat.le_of_lt hlt) (R := .expression) (fun hat _ => ?_) hd' h hm
    fun hlt' h => ?_
  · exact goesOn_of_at hat fun t ht => by simp [Rule.goesOn, beginsSuffix, nextIs, accepts, ht]
  · exact braced_carries parts hf (by omega) hd h hm fun hlt'' h => hrest (by omega) h

theorem else_carries (hf : Further X Y r pos) {q : Nat} (hq : pos < q)
    (hno : nextIs .keyword (some "else") (tokenAt? Y m) = false)
    (h : (readParts X (reading X)
      [.optional (.choice [[kw "else", .rule .ifStatement], kw "else" :: braced])] q).outcome =
        .matched ts m) (hm : m ≤ r) :
    (readParts Y (reading Y)
      [.optional (.choice [[kw "else", .rule .ifStatement], kw "else" :: braced])] q).outcome =
        .matched ts m := by
  rw [parts_one_iff, optional_matched_iff, choice_matched_iff] at h ⊢
  rcases h with h | ⟨-, rfl, rfl⟩
  · left
    rcases choice_cons_matched_iff.mp h with h | ⟨-, h⟩
    · refine choice_here (token_then hf.shares rfl h hm fun hlt h => ?_)
      exact rule_last (hf.forth (by omega) .ifStatement) hm hno h
    · rcases choice_cons_matched_iff.mp h with h | ⟨-, h⟩
      · have hbraced : (readParts Y (reading Y) (kw "else" :: braced) q).outcome = .matched ts m :=
          token_then hf.shares rfl h hm fun hlt h =>
            braced_carries [] hf (by omega) rfl h hm fun _ => then_nothing
        refine choice_next ?_ (choice_here hbraced)
        -- what begins with a brace is no statement
        obtain ⟨us, j, vs, htoken, hblock, -⟩ := parts_cons_matched_iff.mp hbraced
        refine parts_failed_later htoken (parts_failed_of_rule (reading_failed ?_))
        exact nextIs_other (starts_of_matched hblock) (by decide)
      · exact absurd h not_choice_nil_matched
  · right
    refine ⟨choice_failed_iff.mpr (readChoice_failed ?_), rfl, rfl⟩
    simp [choiceStarts, partsStart, kw, Production.starts, hno]

theorem if_carries (hf : Further X Y r pos)
    (hno : nextIs .keyword (some "else") (tokenAt? Y m) = false)
    (h : (readParts X (reading X) ifParts pos).outcome = .matched ts m) (hm : m ≤ r) :
    (readParts Y (reading Y) ifParts pos).outcome = .matched ts m :=
  conditional_carries _ hf rfl h hm fun hlt h => else_carries hf hlt hno h hm

theorem while_carries (hf : Further X Y r pos)
    (h : (readParts X (reading X) whileParts pos).outcome = .matched ts m) (hm : m ≤ r) :
    (readParts Y (reading Y) whileParts pos).outcome = .matched ts m :=
  conditional_carries [] hf rfl h hm fun _ => then_nothing

theorem ifStatement_carries (hf : Further X Y r pos) : Carries X Y r .ifStatement pos := by
  refine carries_of_production hf.shares rfl fun {ts m} _ hline hread hm hend => ?_
  rw [production] at hread ⊢
  exact node_one hline hread fun h => if_carries hf hend h hm

/-- The next token after a statement does not go on with it. -/
theorem next_of_ends {k : Token.Kind} {text : Option String} (hs : Shares X Y r)
    (hends : Ends X Y r .statement m)
    (hcurly : k ≠ .rightCurly)
    (hstart : ∀ t, nextIs k text t = true → Rule.starts t .statement = false) :
    nextIs k text (tokenAt? Y m) = false := by
  by_contra hne
  have hnext : nextIs k text (tokenAt? Y m) = true := Bool.of_not_eq_false hne
  rcases hends with hnone | hat | ⟨us, j, hst, hj⟩
  · rw [hnone] at hnext
    cases hnext
  · rw [nextIs_other hat (by exact fun h => hcurly h.symm)] at hnext
    cases hnext
  · have hlt := (begins_of_reading rfl hst).1
    rw [hs.tokenAt? (by omega)] at hnext
    rw [reading_failed (hstart _ hnext)] at hst
    cases hst

/-- A semicolon that may be left out. -/
theorem semicolon_carries (hs : Shares X Y r) (hends : Ends X Y r .statement m)
    (h : (readParts X (reading X) [.optional semicolon] pos).outcome = .matched ts m) (hm : m ≤ r) :
    (readParts Y (reading Y) [.optional semicolon] pos).outcome = .matched ts m := by
  rw [parts_one_iff, optional_matched_iff] at h ⊢
  rcases h with h | ⟨-, rfl, rfl⟩
  · exact Or.inl (token_carries hs h hm)
  · refine Or.inr ⟨token_failed_iff.mpr (next_of_ends hs hends (by decide) ?_), rfl, rfl⟩
    intro t ht
    simp [Rule.starts, startsOperand, nextIs_other ht]

/-- The rule that an alternative begins with ends where the alternative does, or before. -/
theorem choice_first {firsts : List Rule} {alternatives : List (List Production)}
    (hd : choiceDescends 10 alternatives = true)
    (hall : ∀ parts ∈ alternatives, ∃ R ∈ firsts, parts.head? = some (.rule R))
    (h : (readChoice X (reading X) alternatives pos).outcome = .matched ts m) :
    ∃ R ∈ firsts, ∃ us j, (reading X R pos).outcome = .matched us j ∧ j ≤ m := by
  induction alternatives with
  | nil => exact absurd h not_choice_nil_matched
  | cons parts alternatives ih =>
    rw [choiceDescends, Bool.and_eq_true] at hd
    rcases choice_cons_matched_iff.mp h with h | ⟨-, h⟩
    · obtain ⟨R, hR, hhead⟩ := hall parts (by simp)
      obtain ⟨rest, rfl⟩ := List.head?_eq_some_iff.mp hhead
      obtain ⟨us, j, vs, hrule, hrest, -⟩ := parts_cons_matched_iff.mp h
      have hrestd : partsDescend 10 rest = true := by
        have hparts := hd.1
        rw [partsDescend, ite_self, Bool.and_eq_true] at hparts
        exact hparts.2
      exact ⟨R, hR, us, j, rule_matched_iff.mp hrule, (parts_proper hrestd j).forward hrest⟩
    · exact ih hd.2 (fun p hp => hall p (List.mem_cons_of_mem parts hp)) h

theorem first_le {R : Rule} (firsts : List Rule) {kind : Tree.Kind}
    {alternatives : List (List Production)} (hp : production R = .node kind alternatives)
    (hd : choiceDescends 10 alternatives = true)
    (hall : ∀ parts ∈ alternatives, ∃ R ∈ firsts, parts.head? = some (.rule R))
    (h : (reading X R pos).outcome = .matched ts m) :
    ∃ R ∈ firsts, ∃ us j, (reading X R pos).outcome = .matched us j ∧ j ≤ m := by
  rw [reading_eq, hp, node_matched_iff] at h
  obtain ⟨vs, h, -⟩ := h
  exact choice_first hd hall h

/-- The first operand of an expression ends where the expression does, or before. -/
theorem primary_le_expression (h : (reading X .expression pos).outcome = .matched ts m) :
    ∃ us i, (reading X .primary pos).outcome = .matched us i ∧ i ≤ m := by
  -- every level of the expressions begins with the next one
  have hstep : ∀ (R first : Rule) {us : List Tree} {j : Nat},
      (R, first) ∈ [(Rule.comparison, Rule.additive), (.additive, .multiplicative),
        (.multiplicative, .power), (.power, .suffixed)] →
      (reading X R pos).outcome = .matched us j →
      ∃ vs i, (reading X first pos).outcome = .matched vs i ∧ i ≤ j := by
    intro R first us j hmem hread
    have hfirst : ∃ R' ∈ [first], ∃ vs i,
        (reading X R' pos).outcome = .matched vs i ∧ i ≤ j := by
      simp only [List.mem_cons, Prod.mk.injEq, List.not_mem_nil, or_false] at hmem
      rcases hmem with ⟨rfl, rfl⟩ | ⟨rfl, rfl⟩ | ⟨rfl, rfl⟩ | ⟨rfl, rfl⟩ <;>
        exact first_le _ rfl rfl (by simp) hread
    simpa using hfirst
  have hsuffixed : ∃ vs e, (reading X .suffixed pos).outcome = .matched vs e ∧ e ≤ m := by
    -- an expression is an assignment, which begins with a suffixed operand, or a comparison
    obtain ⟨R, hR, us, j, hread, hj⟩ := first_le [.suffixed, .comparison] rfl rfl (by simp) h
    simp only [List.mem_cons, List.not_mem_nil, or_false] at hR
    rcases hR with rfl | rfl
    · exact ⟨us, j, hread, hj⟩
    · obtain ⟨_, _, hadditive, h₁⟩ := hstep .comparison .additive (by simp) hread
      obtain ⟨_, _, hmultiplicative, h₂⟩ := hstep .additive .multiplicative (by simp) hadditive
      obtain ⟨_, _, hpower, h₃⟩ := hstep .multiplicative .power (by simp) hmultiplicative
      obtain ⟨vs, e, hsuffixed, h₄⟩ := hstep .power .suffixed (by simp) hpower
      exact ⟨vs, e, hsuffixed, by omega⟩
  obtain ⟨vs, e, hsuffixed, he⟩ := hsuffixed
  obtain ⟨t, us, i, hprimary, hsuffixes⟩ := suffixed_matched_iff.mp hsuffixed
  exact ⟨t :: us, i, hprimary, Nat.le_trans (readSuffixes_forward _ hsuffixes) he⟩

section AfterFunction

variable {f e : Nat} {us vs : List Tree}

/-- The alternative of functions with a name is left in both texts by a function without one. -/
theorem named_fails (hs : Shares X Y r) (hfun : (reading X .function pos).outcome = .matched us f)
    (hfr : f ≤ r)
    (h : (readParts X (reading X) [namedFunction, .optional semicolon] pos).outcome = .failed) :
    (readParts Y (reading Y) [namedFunction, .optional semicolon] pos).outcome = .failed := by
  rw [parts_optional_failed_iff] at h ⊢
  have hno : nextIs .identifier none (tokenAt? X (after X pos)) = false := by
    by_contra hne
    rw [function_failed_of_named (Bool.of_not_eq_false hne) h] at hfun
    cases hfun
  rw [reading_eq, production, node_matched_iff] at hfun
  obtain ⟨ws, hfun, -⟩ := hfun
  rcases choice_cons_matched_iff.mp hfun with hparts | ⟨-, hnil⟩
  · obtain ⟨xs, q, ys, hword, hrest, -⟩ := parts_cons_matched_iff.mp hparts
    have hlt := (begins_of_parts rfl rfl hrest).1
    have hle := le_skip X q
    have hwordY := token_carries hs hword (by omega)
    obtain ⟨t, -, -, -, rfl⟩ := token_matched_iff.mp hword
    refine node_failed_iff.mpr (choice_cons_failed_iff.mpr
      ⟨parts_failed_later hwordY (parts_failed_of_token ?_), rfl⟩)
    rw [hs.tokenAt? (by omega)]
    exact hno
  · exact absurd hnil not_choice_nil_matched

/-- A bracket behind a function that is no index of it in `X`, where an array begins a statement
there, is none in `Y`. -/
theorem index_fails (hf : Further X Y r pos) (hq : pos < f) (hat : At X .leftBracket f)
    (hs : (readProduction X (reading X) suffix f).outcome = .failed)
    (hst : (reading X .statement f).outcome = .matched us m) (hm : m ≤ r) :
    (readProduction Y (reading Y) suffix f).outcome = .failed := by
  obtain ⟨_, e, hexp, -, rfl⟩ := statement_is_expression (Or.inr hat) hst
  obtain ⟨ps, i, hprimary, hi⟩ := primary_le_expression hexp
  obtain ⟨ls, j, hlist, hclose, rfl⟩ := array_of_primary hat hprimary
  have hafter : after X f ≤ j := (reading_proper .expressionList _).forward hlist
  have hj : skip X j < r := by
    have := le_skip X e
    simp only [after] at hi hm
    omega
  have hle := le_skip X j
  have hlt := lt_after X f
  have hf' : skip X f < r := by
    simp only [after] at hafter
    omega
  have hcloseY : At Y .rightBracket j := by
    rw [At, hf.shares.tokenAt? hj]
    exact hclose
  have hlistY := hf.forth (Nat.lt_trans hq hlt) .expressionList hlist (by omega)
    ⟨Or.inr hcloseY, by rwa [hf.shares.skip hj]⟩
  cases hY : (readProduction Y (reading Y) suffix f).outcome with
  | exhausted => exact absurd hY (suffix_proper f).decided
  | failed => rfl
  | matched ws n =>
    have hatY : At Y .leftBracket f := by
      rw [At, hf.shares.tokenAt? hf']
      exact hat
    obtain ⟨ys, n', hx, hclose', -⟩ := index_of_suffix hatY hY
    rw [hf.shares.after hf'] at hx
    obtain rfl := list_end_eq hx hclose' (by decide) hlistY
    -- the index is read in `X` as well
    have hback : (reading X .expression (after X f)).outcome = .matched ys j := by
      refine hf.back (Nat.lt_trans hq hlt) .expression hx (by omega) ?_
      exact goesOn_of_at hclose fun t ht => by simp [Rule.goesOn, beginsSuffix, nextIs, accepts, ht]
    rw [suffix, choice_failed_iff, choice_cons_failed_iff, choice_cons_failed_iff] at hs
    exact absurd hs.2.1 (enclosed_not_failed hat hback hclose)

/-- Behind a function that begins an expression without a semicolon, the expression that `Y` reads
has none either. -/
theorem no_semicolon_carries (hf : Further X Y r pos)
    (hX : (reading X .function pos).outcome = .matched us f)
    (hY : (reading Y .function pos).outcome = .matched us f) (hfr : f ≤ r)
    (hx : (reading X .expression pos).outcome = .matched ts e) (he : ¬ At X .semicolon e)
    (hends : Ends X Y r .statement f)
    (hy : (reading Y .expression pos).outcome = .matched vs m) : ¬ At Y .semicolon m := by
  have hnot : ∀ k, k = .semicolon ∨ k = .assignment ∨ k = .operator ∨ k = .comparator ∨ k = .dot →
      ¬ At Y k f := by
    intro k hk
    refine Bool.eq_false_iff.mp (next_of_ends hf.shares hends ?_ fun t ht => ?_)
    · rcases hk with rfl | rfl | rfl | rfl | rfl <;> decide
    · rcases hk with rfl | rfl | rfl | rfl | rfl <;>
        simp [Rule.starts, startsOperand, nextIs_other ht]
  have hsuffix : (readProduction Y (reading Y) suffix f).outcome = .failed := by
    rcases hends with hnone | hat | ⟨ws, k, hst, hk⟩
    · exact suffix_failed (by simp [Unsuffixed, At, hnone, nextIs])
    · exact suffix_failed ⟨fun h => absurd (hat.eq h) (by decide),
        fun h => absurd (hat.eq h) (by decide), fun h => absurd (hat.eq h) (by decide)⟩
    · -- in `X` a statement begins behind the function
      have hlt := (begins_of_reading rfl hst).1
      have hsame : ∀ {kind}, At Y kind f ↔ At X kind f := by
        intro kind
        rw [At, At, hf.shares.tokenAt? (by omega)]
      have hsX : (At X .leftParen f ∨ At X .leftBracket f) →
          (readProduction X (reading X) suffix f).outcome = .failed := by
        intro hat
        cases ho : (readProduction X (reading X) suffix f).outcome with
        | exhausted => exact absurd ho (suffix_proper f).decided
        | failed => rfl
        | matched ps n =>
          rw [statement_failed_of_suffix hat hX hx he ho] at hst
          cases hst
      have hparen : ¬ At X .leftParen f := by
        intro hat
        rw [statement_failed_of_paren hat (hsX (Or.inl hat))] at hst
        cases hst
      by_cases hbracket : At X .leftBracket f
      · have hlt' := (reading_proper .function pos).moves hX rfl
        exact index_fails hf hlt' hbracket (hsX (Or.inr hbracket)) hst hk
      · exact suffix_failed ⟨mt hsame.mp hparen, mt hsame.mp hbracket, hnot .dot (by simp)⟩
  have hsep : ¬ Separated Y f := by
    rintro (h | h)
    · exact hnot .operator (by simp) h
    · exact hnot .comparator (by simp) h
  obtain rfl := expression_end hsep (hnot .assignment (by simp)) (suffixed_of_function hY hsuffix) hy
  exact hnot .semicolon (by simp)

end AfterFunction

theorem starts_of_expression (h : (reading X .expression pos).outcome = .matched ts m) :
    startsOperand (tokenAt? X pos) = true := by
  by_contra hne
  rw [reading_failed (show Rule.starts _ .expression = false from Bool.eq_false_iff.mpr hne)] at h
  cases h

/-- An expression that begins with the word func begins with a function. -/
theorem function_of_expression (hfunc : nextIs .keyword (some "func") (tokenAt? X pos) = true)
    (h : (reading X .expression pos).outcome = .matched ts m) :
    ∃ us f, (reading X .function pos).outcome = .matched us f ∧ f ≤ m := by
  obtain ⟨t, ht, hk, hw⟩ := nextIs_iff.mp hfunc
  cases ho : (reading X .function pos).outcome with
  | exhausted => exact absurd ho (reading_proper .function pos).decided
  | failed =>
    have hclass : (reading X .classLiteral pos).outcome = .failed :=
      reading_failed (nextIs_other_text hfunc (by decide))
    rw [expression_failed_of_keyword ht hk ho hclass] at h
    cases h
  | matched us f =>
    obtain ⟨vs, i, hprimary, hle⟩ := primary_le_expression h
    rw [primary_of_function ho] at hprimary
    cases hprimary
    exact ⟨us, f, rfl, hle⟩

/-- What ends with a semicolon that may be left out. -/
theorem ended_carries (hs : Shares X Y r) {p : Production} (hends : Ends X Y r .statement m)
    (hp : ∀ {us j}, (readProduction X (reading X) p pos).outcome = .matched us j → j ≤ r →
      (readProduction Y (reading Y) p pos).outcome = .matched us j)
    (h : (readParts X (reading X) [p, .optional semicolon] pos).outcome = .matched ts m)
    (hm : m ≤ r) :
    (readParts Y (reading Y) [p, .optional semicolon] pos).outcome = .matched ts m := by
  obtain ⟨us, j, vs, hread, hsemi, rfl⟩ := parts_cons_matched_iff.mp h
  have hj : j ≤ m := (parts_proper rfl j).forward hsemi
  exact parts_cons_matched_iff.mpr ⟨us, j, vs, hp hread (by omega),
    semicolon_carries hs hends hsemi hm, rfl⟩

theorem ends_at_semicolon {j : Nat} (hnext : nextIs .semicolon none (tokenAt? Y j) = true) :
    Ends X Y r .expression j :=
  goesOn_of_at hnext fun t ht => by simp [Rule.goesOn, beginsSuffix, nextIs, accepts, ht]

/-- A statement with a keyword of its own has a name with or without a value, or no name. -/
theorem let_carries (hf : Further X Y r pos) {alternatives : List (List Production)}
    (hm : m ≤ r)
    (h : (readParts X (reading X) [kw "let", name, semicolon] pos).outcome = .matched ts m) :
    (readChoice Y (reading Y) ([kw "let", name, punct .assignment, .rule .expression, semicolon] ::
      [kw "let", name, semicolon] :: alternatives) pos).outcome = .matched ts m := by
  have hplain : (readParts Y (reading Y) [kw "let", name, semicolon] pos).outcome = .matched ts m :=
    token_then hf.shares rfl h hm fun _ h => token_then hf.shares rfl h hm fun _ h =>
      token_then hf.shares rfl h hm fun _ => then_nothing
  refine choice_next ?_ (choice_here hplain)
  obtain ⟨_, _, _, hword, hrest, -⟩ := parts_cons_matched_iff.mp hplain
  obtain ⟨_, _, _, hname, hsemi, -⟩ := parts_cons_matched_iff.mp hrest
  refine parts_failed_later hword (parts_failed_later hname (parts_failed_of_token ?_))
  exact nextIs_other (starts_of_matched hsemi) (by decide)

/-- Where a function that begins an expression without a semicolon is a statement, `Y` reads no
expression with a semicolon either. -/
theorem expression_statement_fails (hf : Further X Y r pos) {f : Nat} {us vs : List Tree}
    (hX : (reading X .function pos).outcome = .matched us f) (hfr : f ≤ r)
    (hfail : (readParts X (reading X) [.rule .expression, semicolon] pos).outcome = .failed)
    (hsemi : (readParts X (reading X) [.optional semicolon] f).outcome = .matched vs m)
    (hends : Ends X Y r .statement m) :
    (readParts Y (reading Y) [.rule .expression, semicolon] pos).outcome = .failed := by
  -- the expression that begins with the function is read, but no semicolon follows it
  obtain ⟨ts, e, hx, he⟩ : ∃ ts e, (reading X .expression pos).outcome = .matched ts e ∧
      ¬ At X .semicolon e := by
    rcases parts_cons_failed_iff.mp hfail with h | ⟨ts, e, h, hend⟩
    · exact absurd (rule_failed_iff.mp h) (expression_not_failed hX)
    · refine ⟨ts, e, rule_matched_iff.mp h, fun hat => ?_⟩
      rcases parts_cons_failed_iff.mp hend with h | ⟨_, _, -, h⟩
      · exact Bool.eq_false_iff.mp (token_failed_iff.mp h) hat
      · exact absurd h not_parts_nil_failed
  obtain rfl : m = f := by
    rw [parts_one_iff, optional_matched_iff] at hsemi
    rcases hsemi with h | ⟨-, -, h⟩
    · obtain ⟨t, ht, hacc, -⟩ := token_matched_iff.mp h
      exact absurd (at_of_accepts ht hacc) (no_semicolon_after_function hX hx he)
    · exact h
  -- in `Y` the same function begins an expression, and again no semicolon follows
  cases hy : (reading Y .expression pos).outcome with
  | exhausted => exact absurd hy (reading_proper .expression pos).decided
  | failed => exact parts_failed_of_rule hy
  | matched ws n =>
    have hY := function_carries hf hX hfr rfl
    have hno := no_semicolon_carries hf hX hY hfr hx he hends hy
    refine parts_failed_after_rule hy (parts_failed_of_token ?_)
    exact Bool.eq_false_iff.mpr hno

theorem named_fails_of_expression (hs : Shares X Y r) (hsame : tokenAt? Y pos = tokenAt? X pos)
    (hx : (reading X .expression pos).outcome = .matched ts m) (hm : m ≤ r)
    (h : (readParts X (reading X) [namedFunction, .optional semicolon] pos).outcome = .failed) :
    (readParts Y (reading Y) [namedFunction, .optional semicolon] pos).outcome = .failed := by
  by_cases hw : nextIs .keyword (some "func") (tokenAt? X pos) = true
  · obtain ⟨us, f, hfun, hf⟩ := function_of_expression hw hx
    exact named_fails hs hfun (by omega) h
  · refine readParts_failed ?_
    simp [hsame, partsStart, Production.starts, choiceStarts, kw, Bool.eq_false_iff.mpr hw]

/-- The only words that begin an expression are those of functions and classes. -/
theorem no_word_of_expression {w : String} (hw : w ≠ "func" ∧ w ≠ "class")
    (h : (reading X .expression pos).outcome = .matched ts m) :
    nextIs .keyword (some w) (tokenAt? X pos) = false := by
  by_contra hne
  have hnext := Bool.of_not_eq_false hne
  have hstart := starts_of_expression h
  simp [startsOperand, nextIs_other hnext, nextIs_other_text hnext hw.1,
    nextIs_other_text hnext hw.2] at hstart

theorem not_class_of_expression
    (hfail : (readParts X (reading X) [.rule .classLiteral, .optional semicolon] pos).outcome =
      .failed)
    (h : (reading X .expression pos).outcome = .matched ts m) :
    nextIs .keyword (some "class") (tokenAt? X pos) = false := by
  by_contra hne
  have hnext := Bool.of_not_eq_false hne
  obtain ⟨t, ht, hk, -⟩ := nextIs_iff.mp hnext
  have hfunction : (reading X .function pos).outcome = .failed :=
    reading_failed (nextIs_other_text hnext (by decide))
  have hclass : (reading X .classLiteral pos).outcome = .failed :=
    rule_failed_iff.mp (parts_optional_failed_iff.mp hfail)
  rw [expression_failed_of_keyword ht hk hfunction hclass] at h
  cases h

section Alternatives

variable {us : List Tree}

/-- An alternative that cannot begin with the first token is passed over. -/
theorem choice_past {parts : List Production} {alternatives : List (List Production)}
    (hsame : tokenAt? Y pos = tokenAt? X pos) (hno : partsStart (tokenAt? X pos) parts = false)
    (h : (readChoice Y (reading Y) alternatives pos).outcome = .matched us m) :
    (readChoice Y (reading Y) (parts :: alternatives) pos).outcome = .matched us m :=
  (choice_skip_iff (by rwa [hsame])).mpr h

/-- Only the first alternatives of a statement begin with the word if or while. -/
theorem past_conditions {alternatives : List (List Production)} {w : String}
    (hsame : tokenAt? Y pos = tokenAt? X pos)
    (hw : nextIs .keyword (some w) (tokenAt? X pos) = true) (hif : w ≠ "if") (hwhile : w ≠ "while")
    (h : (readChoice Y (reading Y) alternatives pos).outcome = .matched us m) :
    (readChoice Y (reading Y) (ifParts :: whileParts :: alternatives) pos).outcome =
      .matched us m :=
  choice_past hsame (nextIs_other_text hw hif) (choice_past hsame (nextIs_other_text hw hwhile) h)

theorem partsStart_named {t : Option Token} :
    partsStart t [namedFunction, .optional semicolon] = nextIs .keyword (some "func") t := by
  simp [partsStart, Production.starts, choiceStarts, kw]

/-- Neither a function with a name nor a class begins with another word. -/
theorem past_definitions {alternatives : List (List Production)} {w : String}
    (hsame : tokenAt? Y pos = tokenAt? X pos)
    (hw : nextIs .keyword (some w) (tokenAt? X pos) = true) (hfunc : w ≠ "func")
    (hclass : w ≠ "class")
    (h : (readChoice Y (reading Y) alternatives pos).outcome = .matched us m) :
    (readChoice Y (reading Y) ([namedFunction, .optional semicolon] ::
      [.rule .classLiteral, .optional semicolon] :: alternatives) pos).outcome = .matched us m := by
  refine choice_past hsame ?_ (choice_past hsame (nextIs_other_text hw hclass) h)
  rw [partsStart_named]
  exact nextIs_other_text hw hfunc

theorem named_carries (hf : Further X Y r pos) (hsame : tokenAt? Y pos = tokenAt? X pos)
    (hline : lineAt Y pos = lineAt X pos) (hends : Ends X Y r .statement m) (hm : m ≤ r)
    (h : (readParts X (reading X) [namedFunction, .optional semicolon] pos).outcome =
      .matched us m) :
    (readChoice Y (reading Y) statementParts pos).outcome = .matched us m := by
  have hw : nextIs .keyword (some "func") (tokenAt? X pos) = true :=
    partsStart_named.symm.trans (starts_of_matched h)
  refine past_conditions hsame hw (by decide) (by decide) (choice_here ?_)
  refine ended_carries hf.shares hends (fun h hj => node_one hline h fun h => ?_) h hm
  exact token_then hf.shares rfl h hj fun _ h => token_then hf.shares rfl h hj fun _ h =>
    signature_carries hf (by omega) h hj

theorem class_carries (hf : Further X Y r pos) (hsame : tokenAt? Y pos = tokenAt? X pos)
    (hends : Ends X Y r .statement m) (hm : m ≤ r)
    (h : (readParts X (reading X) [.rule .classLiteral, .optional semicolon] pos).outcome =
      .matched us m) :
    (readChoice Y (reading Y) statementParts pos).outcome = .matched us m := by
  have hw : nextIs .keyword (some "class") (tokenAt? X pos) = true := starts_of_matched h
  refine past_conditions hsame hw (by decide) (by decide) (choice_past hsame ?_ (choice_here ?_))
  · rw [partsStart_named]
    exact nextIs_other_text hw (by decide)
  · refine ended_carries hf.shares hends (fun h hj => ?_) h hm
    rw [rule_matched_iff] at h ⊢
    exact classLiteral_carries hf h hj rfl

theorem initialisation_carries (hf : Further X Y r pos) (hsame : tokenAt? Y pos = tokenAt? X pos)
    (hm : m ≤ r)
    (h : (readParts X (reading X) [kw "let", name, punct .assignment, .rule .expression, semicolon]
      pos).outcome = .matched us m) :
    (readChoice Y (reading Y) statementParts pos).outcome = .matched us m := by
  have hw : nextIs .keyword (some "let") (tokenAt? X pos) = true := starts_of_matched h
  refine past_conditions hsame hw (by decide) (by decide)
    (past_definitions hsame hw (by decide) (by decide) (choice_here ?_))
  refine token_then hf.shares rfl h hm fun hlt h => token_then hf.shares rfl h hm fun hlt' h =>
    token_then hf.shares rfl h hm fun hlt'' h => ?_
  exact rule_then hf.shares (hf.forth (by omega) .expression) (fun hnext _ => ends_at_semicolon hnext)
    rfl h hm fun _ => then_nothing

theorem declaration_carries (hf : Further X Y r pos) (hsame : tokenAt? Y pos = tokenAt? X pos)
    (hm : m ≤ r)
    (h : (readParts X (reading X) [kw "let", name, semicolon] pos).outcome = .matched us m) :
    (readChoice Y (reading Y) statementParts pos).outcome = .matched us m := by
  have hw : nextIs .keyword (some "let") (tokenAt? X pos) = true := starts_of_matched h
  exact past_conditions hsame hw (by decide) (by decide)
    (past_definitions hsame hw (by decide) (by decide) (let_carries hf hm h))

/-- An expression with a semicolon, where no function with a name and no class is read. -/
theorem expression_statement_carries (hf : Further X Y r pos)
    (hsame : tokenAt? Y pos = tokenAt? X pos) (hx : Carries X Y r .expression pos) (hm : m ≤ r)
    (hnamed : (readParts X (reading X) [namedFunction, .optional semicolon] pos).outcome = .failed)
    (hclass : (readParts X (reading X) [.rule .classLiteral, .optional semicolon] pos).outcome =
      .failed)
    (h : (readParts X (reading X) [.rule .expression, semicolon] pos).outcome = .matched us m) :
    (readChoice Y (reading Y) statementParts pos).outcome = .matched us m := by
  obtain ⟨xs, e, ys, hread, hsemi, -⟩ := parts_cons_matched_iff.mp h
  rw [rule_matched_iff] at hread
  have he : e ≤ m := (parts_proper rfl e).forward hsemi
  have hword : ∀ {w}, w ≠ "func" ∧ w ≠ "class" → nextIs .keyword (some w) (tokenAt? X pos) = false :=
    fun hw => no_word_of_expression hw hread
  have hlet := hword (w := "let") (by decide)
  refine choice_past hsame (hword (by decide)) (choice_past hsame (hword (by decide)) ?_)
  refine choice_next (named_fails_of_expression hf.shares hsame hread (by omega) hnamed) ?_
  refine choice_past hsame (not_class_of_expression hclass hread) ?_
  refine choice_past hsame hlet (choice_past hsame hlet (choice_here ?_))
  exact rule_then hf.shares hx (fun hnext _ => ends_at_semicolon hnext) rfl h hm
    fun _ => then_nothing

/-- A function without a name that no expression with a semicolon begins with. -/
theorem function_statement_carries (hf : Further X Y r pos)
    (hsame : tokenAt? Y pos = tokenAt? X pos) (hends : Ends X Y r .statement m) (hm : m ≤ r)
    (hnamed : (readParts X (reading X) [namedFunction, .optional semicolon] pos).outcome = .failed)
    (hexp : (readParts X (reading X) [.rule .expression, semicolon] pos).outcome = .failed)
    (h : (readParts X (reading X) [.rule .function, .optional semicolon] pos).outcome =
      .matched us m) :
    (readChoice Y (reading Y) statementParts pos).outcome = .matched us m := by
  have hw : nextIs .keyword (some "func") (tokenAt? X pos) = true := starts_of_matched h
  have hlet : nextIs .keyword (some "let") (tokenAt? X pos) = false :=
    nextIs_other_text hw (by decide)
  obtain ⟨xs, f, ys, hread, hsemi, -⟩ := parts_cons_matched_iff.mp h
  rw [rule_matched_iff] at hread
  have hfm : f ≤ m := (parts_proper rfl f).forward hsemi
  refine past_conditions hsame hw (by decide) (by decide) ?_
  refine choice_next (named_fails hf.shares hread (by omega) hnamed) ?_
  refine choice_past hsame (nextIs_other_text hw (by decide)) ?_
  refine choice_past hsame hlet (choice_past hsame hlet ?_)
  refine choice_next (expression_statement_fails hf hread (by omega) hexp hsemi hends) ?_
  refine choice_here (ended_carries hf.shares hends (fun h hj => ?_) h hm)
  rw [rule_matched_iff] at h ⊢
  exact function_carries hf h hj rfl

end Alternatives

theorem statement_carries (hf : Further X Y r pos) (hx : Carries X Y r .expression pos) :
    Carries X Y r .statement pos := by
  refine carries_of_production hf.shares rfl fun {ts m} hsame hline hread hm hends => ?_
  have helse : nextIs .keyword (some "else") (tokenAt? Y m) = false := by
    refine next_of_ends hf.shares hends (by decide) fun t ht => ?_
    simp [Rule.starts, startsOperand, nextIs_other ht, nextIs_other_text ht]
  rw [production] at hread ⊢
  refine node_carries hline hread fun {us} hchoice => ?_
  -- one alternative after the other, each where those before it fail
  rcases choice_cons_matched_iff.mp hchoice with h | ⟨-, hchoice⟩
  · exact choice_here (if_carries hf helse h hm)
  rcases choice_cons_matched_iff.mp hchoice with h | ⟨-, hchoice⟩
  · have hw : nextIs .keyword (some "while") (tokenAt? X pos) = true := starts_of_matched h
    exact choice_past hsame (nextIs_other_text hw (by decide)) (choice_here (while_carries hf h hm))
  rcases choice_cons_matched_iff.mp hchoice with h | ⟨hnamed, hchoice⟩
  · exact named_carries hf hsame hline hends hm h
  rcases choice_cons_matched_iff.mp hchoice with h | ⟨hclass, hchoice⟩
  · exact class_carries hf hsame hends hm h
  rcases choice_cons_matched_iff.mp hchoice with h | ⟨-, hchoice⟩
  · exact initialisation_carries hf hsame hm h
  rcases choice_cons_matched_iff.mp hchoice with h | ⟨-, hchoice⟩
  · exact declaration_carries hf hsame hm h
  rcases choice_cons_matched_iff.mp hchoice with h | ⟨hexp, hchoice⟩
  · exact expression_statement_carries hf hsame hx hm hnamed hclass h
  rcases choice_cons_matched_iff.mp hchoice with h | ⟨-, hchoice⟩
  · exact function_statement_carries hf hsame hends hm hnamed hexp h
  exact absurd hchoice not_choice_nil_matched

/-- Statements up to a closing brace or to the end of `Y`. -/
theorem statements_carry (h : ∀ q, pos ≤ q → Carries X Y r .statement q)
    (hend : tokenAt? Y m = none ∨ At Y .rightCurly m) (hm : m ≤ r) {q : Nat} (hq : pos ≤ q)
    (hread : (readProduction X (reading X) (.many [.rule .statement]) q).outcome = .matched ts m) :
    (readProduction Y (reading Y) (.many [.rule .statement]) q).outcome = .matched ts m := by
  induction hk : m - q using Nat.strongRecOn generalizing q ts with
  | ind k ih =>
  rcases (many_matched_iff rfl).mp hread with ⟨-, rfl, rfl⟩ | ⟨us, j, vs, hparts, hlt, hmany, rfl⟩
  · refine many_of_failed (readParts_failed ?_)
    rcases hend with hnone | hat
    · rw [hnone]
      rfl
    · exact hat.starts (r := .statement) fun t ht => by
        simp [Rule.starts, startsOperand, nextIs, accepts, ht]
  · have hjm := (part_proper rfl j).forward hmany
    refine many_more rfl (rule_last (h q hq) (by omega) ?_ hparts)
      (ih (m - j) (by omega) (by omega) hmany rfl)
    -- the statement ends where the next one begins
    rcases (many_matched_iff rfl).mp hmany with ⟨-, -, rfl⟩ | ⟨ws, n, _, hnext, -, hrest, -⟩
    · exact hend.elim Or.inl fun hat => Or.inr (Or.inl hat)
    · have hn := (part_proper rfl n).forward hrest
      rw [parts_one_iff, rule_matched_iff] at hnext
      exact Or.inr (Or.inr ⟨ws, n, hnext, by omega⟩)

theorem block_carries (hf : Further X Y r pos) (hst : Carries X Y r .statement pos) :
    Carries X Y r .block pos := by
  intro ts m h hm hends
  have hle := (reading_proper .block pos).forward h
  obtain ⟨-, hline⟩ := hf.shares.opening hle hends.1 hends.2
  rw [reading_eq, production] at h ⊢
  refine node_one hline h fun hparts => ?_
  rw [parts_one_iff] at hparts ⊢
  exact statements_carry (fun q hq => hf.onward hst hq) (Or.inr hends.1) hm (Nat.le_refl pos) hparts

end Statements

/-- What is read in a text is read in every text that shares the tokens up to where it ends. -/
theorem reading_carries (hs : Shares X Y r) (R : Rule) (pos : Nat) : Carries X Y r R pos := by
  suffices hbelow : ∀ n, ∀ {X Y : Array Token}, Shares X Y r → ∀ pos, r < pos + n →
      ∀ R, Carries X Y r R pos from hbelow (r + 1) hs pos (by omega) R
  intro n
  induction n with
  | zero =>
    -- nothing behind `r` is read up to `r`
    intro X Y hs pos hpos R ts m h hm
    have := (reading_proper R pos).forward h
    omega
  | succ n ih =>
    intro X Y hs pos hpos R
    have hf : Further X Y r pos :=
      ⟨hs, fun hlt R => ih hs _ (by omega) R, fun hlt R => ih hs.symm _ (by omega) R⟩
    have hsuffixed := suffixed_carries hf (primary_carries hf)
    have hcomparison := comparison_carries hf hsuffixed
    have hexpression := expression_carries hf hsuffixed hcomparison
    have hstatement := statement_carries hf hexpression
    cases R with
    | block => exact block_carries hf hstatement
    | statement => exact hstatement
    | ifStatement => exact ifStatement_carries hf
    | expression => exact hexpression
    | comparison => exact hcomparison
    | additive => exact additive_carries hf hsuffixed
    | multiplicative => exact multiplicative_carries hf hsuffixed
    | power => exact power_carries hf hsuffixed
    | suffixed => exact hsuffixed
    | primary => exact primary_carries hf
    | function => exact function_carries hf
    | classLiteral => exact classLiteral_carries hf
    | array => exact array_carries hf
    | expressionList => exact expressionList_carries hf hexpression
    | argumentList => exact argumentList_carries hf

/-- A block, and what it takes to read it. -/
theorem block_matched_iff : (reading X .block pos).outcome = .matched ts m ↔
    ∃ us, (readProduction X (reading X) (.many [.rule .statement]) pos).outcome = .matched us m ∧
      ts = [.branch .block (lineAt X pos) us] := by
  rw [reading_eq, production, node_matched_iff]
  simp only [choice_cons_matched_iff, parts_one_iff, not_choice_nil_matched, and_false, or_false]

/-- The plain reading of what precedes the unread rest of a program: it is the same block, and
nothing is left of it. -/
theorem readProgram_take {tokens : List Token} {next : Nat} (hne : ts ≠ [])
    (h : (readProduction tokens.toArray (reading tokens.toArray) (.many [.rule .statement])
      0).outcome = .matched ts next) :
    readProgram (tokens.take (skip tokens.toArray next)).toArray =
      ⟨true, programTree [.branch .block (lineAt tokens.toArray 0) ts], none⟩ := by
  have hs := shares_take tokens (skip tokens.toArray next)
  have hnext := le_skip tokens.toArray next
  -- what is left of the tokens ends where the statements do
  have hend : tokenAt? (tokens.take (skip tokens.toArray next)).toArray next = none :=
    tokenAt?_take (Nat.le_refl _)
  -- some statement has been read, and it takes a token
  obtain ⟨hlt, t, ht⟩ : skip tokens.toArray 0 < next ∧ ∃ t, tokenAt? tokens.toArray 0 = some t := by
    rcases (many_matched_iff rfl).mp h with ⟨-, rfl, -⟩ | ⟨us, j, vs, hparts, -, hmany, -⟩
    · exact absurd rfl hne
    · obtain ⟨hlt, ht⟩ := begins_of_parts rfl rfl hparts
      exact ⟨Nat.lt_of_lt_of_le hlt ((part_proper rfl j).forward hmany), ht⟩
  have hread : (reading (tokens.take (skip tokens.toArray next)).toArray .block 0).outcome =
      .matched [.branch .block (lineAt tokens.toArray 0) ts] next := by
    refine block_matched_iff.mpr ⟨ts, ?_, by rw [hs.lineAt (by omega) ht]⟩
    exact statements_carry (fun q _ => reading_carries hs .statement q) (Or.inl hend) hnext
      (Nat.le_refl 0) h
  have hstart := skip_lt_of_tokenAt? ((hs.tokenAt? (by omega)).trans ht)
  have hrest : (tokens.take (skip tokens.toArray next)).toArray.size ≤
      skip (tokens.take (skip tokens.toArray next)).toArray next :=
    Array.getElem?_eq_none_iff.mp hend
  rw [readProgram, if_neg (by omega), hread]
  simp only [leftOver]
  rw [if_neg (by omega)]

/-- The tree of a program that was not read in full is that of the tokens it was read from: they are
a complete program, in every line the same, before and after it is brought into normal form. -/
theorem parseTokens_take (tokens : List Token) (file : String)
    (h : ∃ b ∈ (parseTokens tokens file).root.children, b.children ≠ []) :
    (parseTokens (tokens.take (firstUnread tokens.toArray file)) file).diagnostic = none ∧
    (parseTokens (tokens.take (firstUnread tokens.toArray file)) file).executable =
      (parseTokens tokens file).executable ∧
    (parseTokens (tokens.take (firstUnread tokens.toArray file)) file).arena.toTree root =
      (parseTokens tokens file).arena.toTree root ∧
    (parseTokens (tokens.take (firstUnread tokens.toArray file)) file).arena.normalised.toTree root =
      (parseTokens tokens file).arena.normalised.toTree root := by
  obtain ⟨trees, next, b, hrun, ho, -, -, -⟩ := build_program tokens.toArray file
  have hunread : firstUnread tokens.toArray file = skip tokens.toArray next := by
    rw [firstUnread, hrun]
    rfl
  obtain ⟨ts, hmany, rfl⟩ := block_matched_iff.mp ho
  rw [parseTokens_root] at h
  -- a block with a statement is no program without tokens
  have hplain : (readProgram tokens.toArray).executable = true ∧
      (readProgram tokens.toArray).root =
        programTree [.branch .block (lineAt tokens.toArray 0) ts] := by
    rw [readProgram] at h ⊢
    split
    · rename_i hblank
      rw [if_pos hblank] at h
      obtain ⟨b, hb, -⟩ := h
      cases hb
    · rw [ho]
      exact ⟨rfl, rfl⟩
  have hne : ts ≠ [] := by
    rintro rfl
    obtain ⟨b, hb, hb'⟩ := h
    rw [hplain.2] at hb
    obtain rfl := List.mem_singleton.mp hb
    exact hb' rfl
  have hfront := readProgram_take hne hmany
  rw [hunread]
  have hroot : (parseTokens (tokens.take (skip tokens.toArray next)) file).root =
      (parseTokens tokens file).root := by
    rw [parseTokens_root, parseTokens_root, hfront, hplain.2]
  obtain ⟨hexec, hdiag⟩ := parseTokens_plain (tokens.take (skip tokens.toArray next)) file
  refine ⟨?_, ?_, ?_, ?_⟩
  · rw [hdiag, hfront]
  · rw [hexec, hfront, (parseTokens_plain tokens file).1, hplain.1]
  · rw [(parseTokens_holds _ file).2.toTree_eq, (parseTokens_holds tokens file).2.toTree_eq, hfront,
      hplain.2]
  · rw [toTree_normalised, toTree_normalised, hroot]

/-- The text "a; )". -/
def unclosed : List Token :=
  [⟨.identifier, "a", 1⟩, ⟨.semicolon, ";", 1⟩, ⟨.whitespace, " ", 1⟩, ⟨.rightParen, ")", 1⟩]

theorem parseTokens_take_unclosed :
    (∃ b ∈ (parseTokens unclosed "f").root.children, b.children ≠ []) ∧
    (parseTokens unclosed "f").diagnostic.isSome = true ∧
    (parseTokens (unclosed.take (firstUnread unclosed.toArray "f")) "f").diagnostic = none ∧
    (parseTokens (unclosed.take (firstUnread unclosed.toArray "f")) "f").executable =
      (parseTokens unclosed "f").executable ∧
    (parseTokens (unclosed.take (firstUnread unclosed.toArray "f")) "f").arena.toTree root =
      (parseTokens unclosed "f").arena.toTree root ∧
    (parseTokens (unclosed.take (firstUnread unclosed.toArray "f")) "f").arena.normalised.toTree
      root = (parseTokens unclosed "f").arena.normalised.toTree root := by
  have h : ∃ b ∈ (parseTokens unclosed "f").root.children, b.children ≠ [] := by
    rw [parseTokens_root]
    have hany : ((readProgram unclosed.toArray).root.children.any
        fun b => !b.children.isEmpty) = true := by decide +kernel
    simpa using hany
  refine ⟨h, ?_, parseTokens_take unclosed "f" h⟩
  rw [(parseTokens_plain unclosed "f").2]
  decide +kernel

end ScriptKit.Grammar
