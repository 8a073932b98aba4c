import ScriptKit.Proofs.Grammar.Lookahead

namespace ScriptKit.Grammar

open Builder

variable {tokens : Array Token}

section Steps

variable {fuel pos lo : Nat} {P : Builder → Prop} {R : Nat → Builder → Prop} {F : Builder → Prop}

theorem meets_done (h : ∀ b, P b → R pos b) : MeetsParts tokens fuel [] pos lo P R F :=
  (meets_parts_nil.giving (fun b _ _ _ hb => hb.1 ▸ h b hb.2)).failing fun _ _ hb => hb.elim

/-- A token, then the rest. -/
theorem meets_token_then {kind : Token.Kind} {text : Option String} {parts : List Production}
    (hP : Stable tokens P)
    (h : nextIs kind text (tokenAt? tokens pos) = true → At tokens kind pos →
      MeetsParts tokens fuel parts (after tokens pos) lo P R F)
    (hF : nextIs kind text (tokenAt? tokens pos) = false → ∀ b, P b → F b) :
    MeetsParts tokens fuel (.token kind text :: parts) pos lo P R F := by
  have htoken : MeetsPart tokens fuel (.token kind text) pos lo P
      (fun m b => P b ∧ m = after tokens pos ∧ nextIs kind text (tokenAt? tokens pos) = true ∧
        At tokens kind pos) F := by
    refine ((meets_token kind text hP).giving ?_).failing ?_
    · rintro b ts m - ⟨hb, hm, t, ht, hacc⟩
      refine ⟨hb, hm, ?_, at_of_accepts ht hacc⟩
      rw [ht]
      exact hacc
    · rintro b - ⟨hb, hn⟩
      refine hF ?_ b hb
      cases ht : tokenAt? tokens pos with
      | none => rfl
      | some t => exact hn t ht
  refine meets_parts_cons htoken ?_
  intro m ts hm hle target b b' res hr hb hrun
  obtain ⟨hb, rfl, hnext, hat⟩ := hb
  exact h hnext hat hr hb hrun

/-- A rule, then the rest. -/
theorem meets_rule_then {r : Rule} {parts : List Production} {S : Nat → Builder → Prop}
    {G : Builder → Prop} (h₁ : MeetsRule tokens fuel r pos pos P S G) (hlo : lo ≤ pos)
    (h₂ : ∀ m ts, (reading tokens r pos).outcome = .matched ts m → pos ≤ m →
      MeetsParts tokens fuel parts m lo (S m) R F)
    (hF : ∀ b, (reading tokens r pos).outcome = .failed → G b → F b) :
    MeetsParts tokens fuel (.rule r :: parts) pos lo P R F := by
  have hrule := h₁.weaken hlo (fun _ hb => hb) (fun _ _ _ _ hb => hb) hF
  refine meets_parts_cons (meets_part_rule hrule) ?_
  intro m ts hm
  exact h₂ m ts (rule_matched_iff.mp hm)

theorem MeetsRule.keeping {r : Rule} {K : Builder → Prop}
    (h : MeetsRule tokens fuel r pos lo P R F)
    (hK : ∀ {target : Nat} {b b' : Builder} {reach : Nat}, b.Ready tokens target pos →
      Leaves tokens b b' target pos reach → K b → K b') :
    MeetsRule tokens fuel r pos lo (fun b => P b ∧ K b) (fun m b => R m b ∧ K b)
      fun b => F b ∧ K b :=
  Meets.frame h (agrees_rule fuel r).loosely hK

theorem meetsRule_of_failed {r : Rule} (h : (reading tokens r pos).outcome = .failed) :
    MeetsRule tokens fuel r pos lo P R fun _ => True :=
  meets_of_failed (agrees_rule fuel r).loosely h

/-- An alternative that cannot begin with the next token is passed over. -/
theorem meets_choice_skip {parts : List Production} {alternatives : List (List Production)}
    (hstart : partsStart (tokenAt? tokens pos) parts = false) (hP : Stable tokens P)
    (hR : ∀ m, Stable tokens (R m)) (h : MeetsChoice tokens fuel alternatives pos lo P R F) :
    MeetsChoice tokens fuel (parts :: alternatives) pos lo P R F :=
  meets_choice_cons ((meets_parts_refused hP hstart).giving fun _ _ _ _ hb => hb.elim)
    (fun _ => h) hP hR

/-- The last alternative that can begin with the next token. -/
theorem meets_choice_last {parts : List Production} {alternatives : List (List Production)}
    (h : MeetsParts tokens fuel parts pos lo P R fun _ => True)
    (hstart : choiceStarts (tokenAt? tokens pos) alternatives = false) (hP : Stable tokens P)
    (hR : ∀ m, Stable tokens (R m)) :
    MeetsChoice tokens fuel (parts :: alternatives) pos lo P R fun _ => True :=
  meets_choice_cons h (fun _ => meets_of_failed (choice_agrees tokens fuel alternatives).loosely
    (readChoice_failed hstart)) hP hR

/-- Alternatives of one token each. -/
theorem meets_tokens (choices : List (Token.Kind × Option String)) (hP : Stable tokens P) :
    MeetsChoice tokens fuel (choices.map fun c => [.token c.1 c.2]) pos lo P
      (fun m b => P b ∧ m = after tokens pos ∧ ∃ c ∈ choices, At tokens c.1 pos) P := by
  induction choices with
  | nil =>
    exact meets_choice_nil.giving fun _ _ _ _ hb => hb.elim
  | cons c choices ih =>
    refine meets_choice_cons (G := P) ?_ ?_ hP fun m => hP.and stable_const
    · refine meets_token_then hP (fun _ hat => ?_) fun _ _ hb => hb
      exact meets_done fun b hb => ⟨hb, rfl, c, List.mem_cons_self, hat⟩
    · intro _
      refine ih.giving ?_
      rintro b ts m - ⟨hb, hm, d, hd, hat⟩
      exact ⟨hb, hm, d, List.mem_cons_of_mem _ hd, hat⟩

end Steps

/-- The states in which an expression is read for the first time. -/
def Builder.Begins (tokens : Array Token) (b : Builder) (s : Nat) : Prop :=
  b.Fresh s ∨ b.Island tokens s

theorem stable_begins {s : Nat} : Stable tokens fun b => b.Begins tokens s :=
  stable_fresh.or stable_island

theorem Builder.Begins.vacant {b : Builder} {s : Nat} (h : b.Begins tokens s) : b.Vacant s := by
  rcases h with h | h
  · exact h s (Nat.le_refl s)
  · exact h.2.1

theorem Builder.Begins.poised {b : Builder} {s : Nat} (h : b.Begins tokens s) :
    b.Poised tokens s := by
  rcases h with h | h
  · exact .fresh h
  · exact .island h

/-- What a rule of operands and operators does: the operands are held afterwards, and what follows
them is known. -/
def ReadsChain (tokens : Array Token) (fuel : Nat) (r : Rule) : Prop :=
  ∀ s, MeetsRule tokens fuel r s s (fun b => b.Poised tokens s)
    (fun e b => b.Seg tokens s e ∧ b.Ahead tokens e) fun _ => True

section Chain

variable {fuel : Nat}

theorem stable_chain {s : Nat} (e : Nat) :
    Stable tokens fun b => b.Seg tokens s e ∧ b.Ahead tokens e := stable_seg.and stable_ahead

/-- What follows a separator prolongs the chain, or leaves it as it is. -/
theorem meets_operand {r : Rule} (hr : ReadsChain tokens fuel r)
    (hfail : ∀ q, (reading tokens r q).outcome = .failed ↔
      (reading tokens .suffixed q).outcome = .failed)
    {s e : Nat} (hsep : Separated tokens e) :
    MeetsRule tokens fuel r (after tokens e) (after tokens e)
      (fun b => b.Seg tokens s e ∧ b.Ahead tokens e)
      (fun m b => b.Seg tokens s m ∧ b.Ahead tokens m)
      fun b => b.Seg tokens s e ∧ b.Ahead tokens e := by
  have hlt := lt_after tokens e
  -- without an operand what was read before the operator stays
  by_cases hm : Matches tokens .suffixed (after tokens e)
  · have hkeep := MeetsRule.keeping (K := fun b => b.Seg tokens s e) (hr (after tokens e))
      fun hready hl h => h.leaves (Nat.le_of_lt hlt) hready hl
    refine ((hkeep.before ?_).giving ?_).failing ?_
    · rintro b ⟨hseg, hahead⟩
      exact ⟨hahead.sep hsep hm, hseg⟩
    · rintro b ts m - ⟨⟨hseg, hahead⟩, hseg'⟩
      exact ⟨hseg'.trans hsep hseg, hahead⟩
    · rintro b hf -
      exact absurd hm (not_matches_iff.mpr ((hfail _).mp hf))
  · have hf := (hfail _).mpr (not_matches_iff.mp hm)
    have hnone : MeetsRule tokens fuel r (after tokens e) (after tokens e) (fun _ => True)
        (fun m b => b.Seg tokens s m ∧ b.Ahead tokens m) fun _ => True := meetsRule_of_failed hf
    have hkeep := MeetsRule.keeping (K := fun b => b.Seg tokens s e) hnone
      fun hready hl h => h.leaves (Nat.le_of_lt hlt) hready hl
    refine ((hkeep.before ?_).giving ?_).failing ?_
    · rintro b ⟨hseg, -⟩
      exact ⟨trivial, hseg⟩
    · rintro b ts m - ⟨h, -⟩
      exact h
    · rintro b - ⟨-, hseg⟩
      exact ⟨hseg, .of_separated hsep hm⟩

/-- Two operands with a separator between them, or the first alone, which is then read again. -/
theorem readsChain_pair {r first second : Rule} {kind : Tree.Kind} {sep : Token.Kind}
    {text : Option String} (ht : r.isTabled = false)
    (hprod : production r = .node kind [[.rule first, .token sep text, .rule second],
      [.rule first]])
    (hsep : ∀ e, At tokens sep e → Separated tokens e) (hfirst : ReadsChain tokens fuel first)
    (hsecond : ReadsChain tokens fuel second)
    (hfail : ∀ q, (reading tokens second q).outcome = .failed ↔
      (reading tokens .suffixed q).outcome = .failed) :
    ReadsChain tokens (fuel + 1) r := by
  intro s
  refine meets_rule ht ?_
  rw [hprod]
  refine meets_node ?_ stable_poised stable_chain
  by_cases hnone : (reading tokens first s).outcome = .failed
  · -- without a first operand both alternatives fail
    refine meets_of_failed (choice_agrees tokens fuel _).loosely ?_
    simp [choice_cons_failed_iff, parts_cons_failed_iff, hnone]
  -- if no second operand follows, the first one is read again
  refine meets_choice_cons (G := fun b => b.Poised tokens s) ?_ ?_ stable_poised stable_chain
  · refine meets_rule_then (hfirst s) (Nat.le_refl s) ?_ fun b hf _ => absurd hf hnone
    intro e ts ho hle
    refine meets_token_then (stable_chain e) ?_ fun _ b hb => hb.1.poised hb.2
    intro _ hat
    have := lt_after tokens e
    refine meets_rule_then (meets_operand hsecond hfail (hsep e hat)) (by omega) ?_ ?_
    · intro m us _ _
      exact meets_done fun b hb => hb
    · intro b _ hb
      exact hb.1.poised hb.2
  · intro _
    refine meets_choice_last ?_ rfl stable_poised stable_chain
    refine meets_rule_then (hfirst s) (Nat.le_refl s) ?_ fun _ _ hb => hb
    intro e ts _ _
    exact meets_done fun b hb => hb

/-- An operand, and as many more as operators come before. -/
theorem readsChain_loop (choices : List (Token.Kind × Option String)) {r operand : Rule}
    {kind : Tree.Kind} (ht : r.isTabled = false)
    (hprod : production r = .node kind [[.rule operand,
      .many [.choice (choices.map fun c => [.token c.1 c.2]), .rule operand]]])
    (hops : ∀ c ∈ choices, c.1 = .operator)
    (hoperand : ReadsChain tokens fuel operand)
    (hfail : ∀ q, (reading tokens operand q).outcome = .failed ↔
      (reading tokens .suffixed q).outcome = .failed) :
    ReadsChain tokens (fuel + 1) r := by
  intro s
  refine meets_rule ht ?_
  rw [hprod]
  refine meets_node ?_ stable_poised stable_chain
  refine meets_choice_last ?_ rfl stable_poised stable_chain
  refine meets_rule_then (hoperand s) (Nat.le_refl s) ?_ fun _ _ hb => hb
  intro e ts _ hle
  -- the loop keeps the chain from `s` to where it has come
  have hloop : MeetsPart tokens fuel
      (.many [.choice (choices.map fun c => [.token c.1 c.2]), .rule operand]) e s
      (fun b => b.Seg tokens s e ∧ b.Ahead tokens e)
      (fun m b => b.Seg tokens s m ∧ b.Ahead tokens m) fun _ => False := by
    refine meets_many (J := fun q b => b.Seg tokens s q ∧ b.Ahead tokens q) ?_ stable_chain
    intro q hq
    refine meets_parts_cons (meets_choice (meets_tokens choices (stable_chain q))) ?_
    intro m us hm hqm target b b' res hr hb hrun
    obtain ⟨hb, rfl, c, hc, hat⟩ := hb
    rw [hops c hc] at hat
    have := lt_after tokens q
    have hrest : MeetsParts tokens fuel [.rule operand] (after tokens q) s
        (fun b => b.Seg tokens s q ∧ b.Ahead tokens q)
        (fun m b => q < m ∧ b.Seg tokens s m ∧ b.Ahead tokens m)
        fun b => b.Seg tokens s q ∧ b.Ahead tokens q := by
      refine meets_rule_then (meets_operand hoperand hfail (Or.inl hat)) (by omega) ?_
        fun _ _ hb => hb
      intro m us _ hle'
      exact meets_done fun b hb => ⟨by omega, hb⟩
    exact hrest hr hb hrun
  refine meets_parts_cons (hloop.failing fun _ _ hb => hb.elim) ?_
  intro m us _ _
  exact meets_done fun b hb => hb

end Chain

/-- The states in which a list of expressions is read: its first item may have been read already. -/
def Builder.Listed (tokens : Array Token) (b : Builder) (s : Nat) : Prop :=
  b.Fresh s ∨ ∃ ts j, (reading tokens .expression s).outcome = .matched ts j ∧
    b.Held tokens .expression s ∧ b.Fresh j

theorem stable_listed {s : Nat} : Stable tokens fun b => b.Listed tokens s := by
  rintro b b' hk (h | ⟨ts, j, ho, hheld, hfresh⟩)
  · exact Or.inl (stable_fresh hk h)
  · exact Or.inr ⟨ts, j, ho, stable_held hk hheld, stable_fresh hk hfresh⟩

/-- Nothing matched yet at a bracket or parenthesis that closes a list. -/
def Builder.Closing (tokens : Array Token) (b : Builder) (m : Nat) : Prop :=
  At tokens .rightParen m ∨ At tokens .rightBracket m → b.Fresh m

theorem stable_closing {m : Nat} : Stable tokens fun b => b.Closing tokens m := stable_fresh.imp

/-- A statement that fails where a block does not end either. -/
def Doomed (tokens : Array Token) (m : Nat) : Prop :=
  (reading tokens .statement m).outcome = .failed ∧ ¬ At tokens .rightCurly m

/-- The states after a statement. -/
def Builder.Resumes (tokens : Array Token) (b : Builder) (m : Nat) : Prop :=
  b.Begins tokens m ∨ Doomed tokens m

theorem stable_resumes {m : Nat} : Stable tokens fun b => b.Resumes tokens m :=
  stable_begins.or stable_const

/-- What the rules do with so much fuel. -/
structure Specs (tokens : Array Token) (fuel : Nat) : Prop where
  suffixed : ReadsChain tokens fuel .suffixed
  power : ReadsChain tokens fuel .power
  multiplicative : ReadsChain tokens fuel .multiplicative
  additive : ReadsChain tokens fuel .additive
  comparison : ReadsChain tokens fuel .comparison
  expression : ∀ s, MeetsRule tokens fuel .expression s s (fun b => b.Begins tokens s)
    (fun e b => b.Held tokens .expression s ∧ b.Ahead tokens e ∧ b.Opened tokens s e) fun _ => True
  primary : ∀ s, MeetsRule tokens fuel .primary s s (fun b => b.Begins tokens s)
    (fun m b => b.Fresh m ∧ b.Opened tokens s m) fun _ => True
  function : ∀ s, MeetsRule tokens fuel .function s s (fun b => b.Fresh s)
    (fun m b => b.Fresh m ∧ b.Held tokens .function s) fun _ => True
  classLiteral : ∀ s, MeetsRule tokens fuel .classLiteral s s (fun b => b.Fresh s)
    (fun m b => b.Fresh m) fun _ => True
  array : ∀ s, MeetsRule tokens fuel .array s s (fun b => b.Begins tokens s)
    (fun m b => b.Fresh m) fun _ => True
  expressionList : ∀ s, MeetsRule tokens fuel .expressionList s s (fun b => b.Listed tokens s)
    (fun m b => b.Closing tokens m) fun _ => True
  argumentList : ∀ s, MeetsRule tokens fuel .argumentList s s (fun b => b.Fresh s)
    (fun m b => b.Fresh m) fun _ => True
  block : ∀ s, MeetsRule tokens fuel .block s s (fun b => b.Fresh s)
    (fun m b => At tokens .rightCurly m → b.Fresh m) fun _ => True
  statement : ∀ s, MeetsRule tokens fuel .statement s s (fun b => b.Begins tokens s)
    (fun m b => b.Resumes tokens m) fun b => At tokens .rightCurly s → b.Fresh s
  ifStatement : ∀ s, MeetsRule tokens fuel .ifStatement s s (fun b => b.Fresh s)
    (fun m b => b.Resumes tokens m) fun _ => True

section Operands

variable {fuel : Nat}

/-- A token that closes what a rule has read. -/
theorem meets_closing {kind : Token.Kind} {m lo : Nat} :
    MeetsParts tokens fuel [punct kind] m lo (fun b => At tokens kind m → b.Fresh m)
      (fun n b => b.Fresh n) fun _ => True := by
  refine meets_token_then stable_fresh.imp ?_ fun _ _ _ => trivial
  intro _ hat
  exact meets_done fun b hb => (hb hat).later (Nat.le_of_lt (lt_after tokens m))

theorem meets_listed (sp : Specs tokens fuel) {kind : Token.Kind} {m lo : Nat} (hlo : lo ≤ m)
    (hk : kind = .rightParen ∨ kind = .rightBracket) :
    MeetsParts tokens fuel [.rule .expressionList, punct kind] m lo (fun b => b.Listed tokens m)
      (fun n b => b.Fresh n) fun _ => True := by
  refine meets_rule_then (sp.expressionList m) hlo ?_ fun _ _ _ => trivial
  intro n ts _ _
  refine meets_closing.before ?_
  intro b hb hat
  rcases hk with rfl | rfl
  · exact hb (Or.inl hat)
  · exact hb (Or.inr hat)

/-- An expression in brackets, after an operand: it is an index, or it is left for the array that
may begin with the bracket. -/
theorem meets_index (sp : Specs tokens fuel) {q : Nat} (hq : At tokens .leftBracket q) :
    MeetsParts tokens fuel (bracketed (.rule .expression)) q q (fun b => b.Fresh q)
      (fun m b => b.Fresh m) fun b => b.Ahead tokens q := by
  have hlt := lt_after tokens q
  refine meets_token_then stable_fresh ?_ ?_
  · intro _ _
    by_cases hstart : Rule.starts (tokenAt? tokens (after tokens q)) .expression = true
    · -- an expression may follow, and then no bracket closes at once
      have hopen : ¬ At tokens .rightBracket (after tokens q) := by
        intro hat
        rw [hat.starts] at hstart
        · cases hstart
        · intro t ht
          simp [Rule.starts, startsOperand, nextIs, accepts, ht]
      have hkeep := MeetsRule.keeping (K := fun b => b.Vacant q) (sp.expression (after tokens q))
        fun _ hl h => h.leaves hl hlt
      refine meets_rule_then (hkeep.before ?_) (Nat.le_of_lt hlt) ?_ ?_
      · intro b hb
        exact ⟨Or.inl (hb.later (Nat.le_of_lt hlt)), hb q (Nat.le_refl q)⟩
      -- an expression without the bracket behind it is the first item of a list
      · intro j ts ho hle
        refine meets_token_then ((stable_held.and (stable_ahead.and stable_opened)).and
          stable_vacant) ?_ ?_
        · rintro - hat
          refine meets_done ?_
          rintro b ⟨⟨-, hahead, -⟩, -⟩
          exact (hahead.fresh hat (by decide)).later (Nat.le_of_lt (lt_after tokens j))
        · rintro - b ⟨⟨hheld, hahead, -⟩, hvacant⟩
          refine .of_bracket hq ⟨hvacant, fun hat => absurd hat hopen, ?_⟩
          intro us i ho' hc
          rw [ho] at ho'
          cases ho'
          exact ⟨hheld, hahead.fresh hc (by decide)⟩
      · rintro b hf ⟨-, hvacant⟩
        -- without an expression there is no first item
        refine .of_bracket hq ⟨hvacant, fun hat => absurd hat hopen, ?_⟩
        intro us i ho' _
        rw [hf] at ho'
        cases ho'
    · -- no expression can follow, and looking for one changes nothing
      have hno := Bool.eq_false_iff.mpr hstart
      refine meets_rule_then (meetsRule_refused stable_fresh fuel .expression hno)
        (Nat.le_of_lt hlt) (fun _ _ _ _ => Meets.of_false) ?_
      intro b hf hb
      refine .of_bracket hq ⟨hb q (Nat.le_refl q), fun _ => hb, ?_⟩
      intro us i ho' _
      rw [hf] at ho'
      cases ho'
  · intro hno
    rw [At, hno] at hq
    cases hq

theorem Builder.Fresh.after {b : Builder} {s : Nat} (h : b.Fresh s) : b.Fresh (after tokens s) :=
  h.later (Nat.le_of_lt (lt_after tokens s))

theorem meets_suffix (sp : Specs tokens fuel) (q : Nat) :
    MeetsPart tokens fuel suffix q q (fun b => b.Fresh q) (fun m b => b.Fresh m)
      fun b => b.Ahead tokens q := by
  have hlt := lt_after tokens q
  have hF : ∀ m, Stable tokens fun b => b.Fresh m := fun _ => stable_fresh
  refine meets_choice ?_
  by_cases hparen : At tokens .leftParen q
  · have hrest : choiceStarts (tokenAt? tokens q) [bracketed (.rule .expression), [punct .dot, name]] =
        false := by
      obtain ⟨t, ht, hk, -⟩ := nextIs_iff.mp hparen
      simp [ht, choiceStarts, partsStart, bracketed, punct, Production.starts, nextIs, accepts, hk]
    refine (meets_choice_last ?_ hrest stable_fresh hF).failing fun _ _ _ => .of_paren hparen
    refine meets_token_then stable_fresh ?_ fun _ _ _ => trivial
    intro _ _
    refine (meets_listed sp (Nat.le_of_lt hlt) (Or.inl rfl)).before ?_
    exact fun b hb => Or.inl hb.after
  refine meets_choice_skip (by simpa [partsStart, parenthesised, punct, Production.starts, At] using
    hparen) stable_fresh hF ?_
  by_cases hbracket : At tokens .leftBracket q
  · have hrest : choiceStarts (tokenAt? tokens q) [[punct .dot, name]] = false := by
      obtain ⟨t, ht, hk, -⟩ := nextIs_iff.mp hbracket
      simp [ht, choiceStarts, partsStart, punct, Production.starts, nextIs, accepts, hk]
    refine meets_choice_cons (meets_index sp hbracket) (fun _ => ?_) stable_fresh hF
    exact (meets_choice_refused stable_ahead hrest).giving fun _ _ _ _ hb => hb.elim
  refine meets_choice_skip (by simpa [partsStart, bracketed, punct, Production.starts, At] using
    hbracket) stable_fresh hF ?_
  refine meets_choice_cons (G := fun b => b.Fresh q) ?_ (fun _ => ?_) stable_fresh hF
  · refine meets_token_then stable_fresh (fun _ _ => ?_) fun _ _ hb => hb
    exact meets_token_then stable_fresh (fun _ _ => meets_done fun b hb => hb.after.after)
      fun _ _ hb => hb
  · exact (meets_choice_nil.giving (fun _ _ _ _ hb => hb.elim)).failing
      fun _ _ hb => .of_fresh hb hbracket

theorem stable_fresh_opened {s : Nat} (m : Nat) :
    Stable tokens fun b => b.Fresh m ∧ b.Opened tokens s m := stable_fresh.and stable_opened

theorem stable_ahead_opened {s : Nat} (m : Nat) :
    Stable tokens fun b => b.Ahead tokens m ∧ b.Opened tokens s m := stable_ahead.and stable_opened

/-- An operand that is read for the first time. -/
theorem suffixed_begins (sp : Specs tokens fuel) (s : Nat) :
    MeetsRule tokens (fuel + 1) .suffixed s s (fun b => b.Begins tokens s)
      (fun e b => b.Seg tokens s e ∧ b.Ahead tokens e) fun _ => True := by
  have hchain : MeetsPart tokens fuel (production .suffixed) s s (fun b => b.Begins tokens s)
      (fun e b => b.Ahead tokens e ∧ b.Opened tokens s e) fun _ => True := by
    refine meets_chain (J := fun m b => b.Fresh m ∧ b.Opened tokens s m)
      (meets_part_rule (sp.primary s)) ?_ stable_fresh_opened stable_ahead_opened stable_begins ?_
    · intro q hq
      have hkeep := (meets_suffix sp q).frame (K := fun b => b.Opened tokens s q)
        (part_agrees tokens fuel suffix).loosely
        fun hr hl h => h.leaves (Nat.le_refl q) hr hl
      refine hkeep.weaken hq (fun _ hb => hb) ?_ fun _ _ hb => hb
      rintro b ts m ho ⟨hfresh, hopened⟩
      exact ⟨hfresh, hopened.mono ((suffix_proper q).forward ho)⟩
    · intro ts m ho
      obtain ⟨t, rfl⟩ := primary_single (rule_matched_iff.mp ho)
      simp
  refine meets_record rfl (fun _ hb => hb.vacant) hchain stable_begins ?_
  rintro b b' ts e ho ⟨hahead, hopened⟩ hk hheld
  have hlt := (reading_proper .suffixed s).moves ho rfl
  have hopened' := hopened.keeps hk (Nat.zero_le s)
  exact ⟨.last ⟨hheld, fun ⟨us, f, hf⟩ => (hopened' hf).2⟩ ho,
    hahead.keeps hk (Nat.zero_le e) hlt⟩

/-- An operand whose tree is held. -/
theorem suffixed_again (fuel s : Nat) :
    MeetsRule tokens (fuel + 1) .suffixed s s
      (fun b => b.Kept tokens s ∧ ∃ ts e, (reading tokens .suffixed s).outcome = .matched ts e ∧
        b.Ahead tokens e)
      (fun e b => b.Seg tokens s e ∧ b.Ahead tokens e) fun _ => True := by
  refine (meets_hit rfl (fun _ hb => hb.1.1) ?_).failing fun _ _ hb => hb.elim
  rintro b b' ts e ho ⟨hkept, us, e', ho', hahead⟩ hheld hvacant
  rw [ho] at ho'
  cases ho'
  have hlt := (reading_proper .suffixed s).moves ho rfl
  have hkeeps : Keeps tokens (s + 1) 0 b b' := by
    refine ⟨?_, fun q _ hq => hvacant q hq⟩
    intro r q hq
    exact hheld r q (Or.inl (Nat.lt_of_lt_of_le hq (r.le_low q)))
  refine ⟨.last ⟨hheld _ s (Or.inr ⟨rfl, rfl⟩) hkept.1, ?_⟩ ho, hahead.keeps hkeeps hlt (by omega)⟩
  intro hm
  exact hheld .function s (Or.inl (Nat.lt_succ_self s)) (hkept.2 hm)

theorem suffixed_meets (sp : Specs tokens fuel) : ReadsChain tokens (fuel + 1) .suffixed := by
  intro s target b b' res hr hb hrun
  cases hb with
  | fresh h => exact suffixed_begins sp s hr (Or.inl h) hrun
  | island h => exact suffixed_begins sp s hr (Or.inr h) hrun
  | kept hk ho edge sep => exact suffixed_again fuel s hr ⟨hk, _, _, ho, edge, sep⟩ hrun

theorem power_meets (sp : Specs tokens fuel) : ReadsChain tokens (fuel + 1) .power :=
  readsChain_pair rfl rfl (fun _ h => Or.inl h) sp.suffixed sp.power fun _ => power_failed_iff

theorem multiplicative_meets (sp : Specs tokens fuel) :
    ReadsChain tokens (fuel + 1) .multiplicative :=
  readsChain_loop [(.operator, some "*"), (.operator, some "/"), (.operator, some "%")] rfl rfl
    (by decide) sp.power fun _ => power_failed_iff

theorem additive_meets (sp : Specs tokens fuel) : ReadsChain tokens (fuel + 1) .additive :=
  readsChain_loop [(.operator, some "+"), (.operator, some "-")] rfl rfl (by decide)
    sp.multiplicative fun _ => multiplicative_failed_iff

theorem comparison_meets (sp : Specs tokens fuel) : ReadsChain tokens (fuel + 1) .comparison :=
  readsChain_pair rfl rfl (fun _ h => Or.inr h) sp.additive sp.additive fun _ => additive_failed_iff

theorem Builder.Begins.fresh {b : Builder} {s : Nat} (h : b.Begins tokens s)
    (hn : ¬ At tokens .leftBracket s) : b.Fresh s :=
  h.resolve_right fun hi => hn hi.1

theorem array_meets (sp : Specs tokens fuel) (s : Nat) :
    MeetsRule tokens (fuel + 1) .array s s (fun b => b.Begins tokens s) (fun m b => b.Fresh m)
      fun _ => True := by
  refine meets_rule rfl (meets_node ?_ stable_begins fun _ => stable_fresh)
  refine meets_choice_last ?_ rfl stable_begins fun _ => stable_fresh
  refine meets_token_then stable_begins ?_ fun _ _ _ => trivial
  intro _ _
  refine (meets_listed sp (Nat.le_of_lt (lt_after tokens s)) (Or.inr rfl)).before ?_
  rintro b (h | ⟨-, -, ts, j, ho, -, hheld, hfresh⟩)
  · exact Or.inl h.after
  · exact Or.inr ⟨ts, j, ho, hheld, hfresh⟩

/-- Nothing matched yet at a comma, or where a list is closed. -/
def Builder.Between (tokens : Array Token) (b : Builder) (m : Nat) : Prop :=
  At tokens .comma m ∨ At tokens .rightParen m ∨ At tokens .rightBracket m → b.Fresh m

theorem stable_between (m : Nat) : Stable tokens fun b => b.Between tokens m := stable_fresh.imp

theorem Builder.Ahead.between {b : Builder} {m : Nat} (h : b.Ahead tokens m) :
    b.Between tokens m := by
  rintro (hat | hat | hat)
  · exact h.fresh hat (by decide)
  · exact h.fresh hat (by decide)
  · exact h.fresh hat (by decide)

/-- The first item of a list, which may have been read already. -/
theorem meets_first_item (sp : Specs tokens fuel) (s : Nat) :
    MeetsRule tokens fuel .expression s s (fun b => b.Listed tokens s)
      (fun m b => b.Between tokens m) fun _ => True := by
  intro target b b' res hr hb hrun
  rcases hb with hfresh | hlisted
  · have h := (sp.expression s).giving fun _ _ _ _ hb => hb.2.1.between
    exact h hr (Or.inl hfresh) hrun
  · cases fuel with
    | zero => cases hrun; trivial
    | succ fuel =>
      have h : MeetsRule tokens (fuel + 1) .expression s s
          (fun b => ∃ ts j, (reading tokens .expression s).outcome = .matched ts j ∧
            b.Held tokens .expression s ∧ b.Fresh j)
          (fun m b => b.Between tokens m) fun _ => True := by
        refine (meets_hit rfl (fun b ⟨_, _, _, hheld, _⟩ => hheld) ?_).failing fun _ _ _ => trivial
        rintro b b' ts m ho ⟨us, j, ho', -, hfresh⟩ - hvacant -
        rw [ho] at ho'
        cases ho'
        exact fun q hq => hvacant q (hfresh q hq)
      exact h hr hlisted hrun

theorem expressionList_meets (sp : Specs tokens fuel) (s : Nat) :
    MeetsRule tokens (fuel + 1) .expressionList s s (fun b => b.Listed tokens s)
      (fun m b => b.Closing tokens m) fun _ => True := by
  refine meets_rule rfl (meets_node ?_ stable_listed fun _ => stable_closing)
  -- without a first item the list is empty, and looking for one has changed nothing if it closes
  have hempty : ∀ G : Builder → Prop, (∀ b, G b → b.Closing tokens s) → Stable tokens G →
      MeetsChoice tokens fuel [[]] s s G (fun m b => b.Closing tokens m) fun _ => True := by
    intro G hG hstable
    refine meets_choice_last (meets_done hG) rfl hstable fun _ => stable_closing
  by_cases hstart : Rule.starts (tokenAt? tokens s) .expression = true
  · refine meets_choice_cons (G := fun _ => True) ?_ ?_ stable_listed fun _ => stable_closing
    · refine meets_rule_then (meets_first_item sp s) (Nat.le_refl s) ?_ fun _ _ hb => hb
      intro e ts _ hle
      have hmore : MeetsPart tokens fuel (.many [punct .comma, .rule .expression]) e s
          (fun b => b.Between tokens e) (fun m b => b.Closing tokens m) fun _ => False := by
        refine meets_many (J := fun q b => b.Between tokens q) ?_ stable_between
        intro q hq
        have hlt := lt_after tokens q
        refine meets_token_then (stable_between q) ?_ fun _ b hb h => hb (Or.inr h)
        intro _ hat
        refine meets_rule_then ((sp.expression (after tokens q)).before ?_) (by omega) ?_ ?_
        · exact fun b hb => Or.inl (hb (Or.inl hat)).after
        · intro m us _ hle'
          refine meets_done fun b hb => ⟨by omega, hb.2.1.between⟩
        · rintro b - - (h | h) <;> exact absurd (hat.eq h) (by decide)
      refine meets_parts_cons (hmore.failing fun _ _ _ => trivial) ?_
      exact fun m us _ _ => meets_done fun b hb => hb
    · intro _
      refine hempty _ ?_ stable_true
      rintro b - (h | h)
      · rw [h.starts] at hstart
        · cases hstart
        · intro t ht
          simp [Rule.starts, startsOperand, nextIs, accepts, ht]
      · rw [h.starts] at hstart
        · cases hstart
        · intro t ht
          simp [Rule.starts, startsOperand, nextIs, accepts, ht]
  · have hno := Bool.eq_false_iff.mpr hstart
    refine meets_choice_skip (by simpa [partsStart, Production.starts] using hno) stable_listed
      (fun _ => stable_closing) ?_
    refine hempty _ ?_ stable_listed
    rintro b (h | ⟨ts, j, ho, -⟩) -
    · exact h
    · rw [reading_failed hno] at ho
      cases ho

theorem argumentList_meets (s : Nat) :
    MeetsRule tokens (fuel + 1) .argumentList s s (fun b => b.Fresh s) (fun m b => b.Fresh m)
      fun _ => True := by
  have hF : ∀ m, Stable tokens fun b => b.Fresh m := fun _ => stable_fresh
  refine meets_rule rfl (meets_node ?_ stable_fresh hF)
  refine meets_choice_cons (G := fun b => b.Fresh s) ?_ ?_ stable_fresh hF
  · refine meets_token_then stable_fresh (fun _ _ => ?_) fun _ _ hb => hb
    have hmore : MeetsPart tokens fuel (.many [punct .comma, name]) (after tokens s) s
        (fun b => b.Fresh (after tokens s)) (fun m b => b.Fresh m) fun _ => False := by
      refine meets_many (J := fun q b => b.Fresh q) ?_ hF
      intro q _
      have hlt := lt_after tokens q
      have hlt' := lt_after tokens (after tokens q)
      refine meets_token_then stable_fresh (fun _ _ => ?_) fun _ _ hb => hb
      refine meets_token_then stable_fresh (fun _ _ => ?_) fun _ _ hb => hb
      exact meets_done fun b hb => ⟨by omega, hb.after.after⟩
    refine meets_parts_cons ((hmore.before (fun _ hb => hb.after)).failing fun _ _ hb => hb.elim) ?_
    exact fun m us _ _ => meets_done fun b hb => hb
  · exact fun _ => meets_choice_last (meets_done fun _ hb => hb) rfl stable_fresh hF

/-- A block in braces, then the rest. -/
theorem meets_braced (sp : Specs tokens fuel) {m lo : Nat} (hlo : lo ≤ m)
    {parts : List Production} {R : Nat → Builder → Prop}
    (h : ∀ n, m ≤ n → MeetsParts tokens fuel parts n lo (fun b => b.Fresh n) R fun _ => True) :
    MeetsParts tokens fuel (braced ++ parts) m lo (fun b => b.Fresh m) R fun _ => True := by
  have hlt := lt_after tokens m
  refine meets_token_then stable_fresh (fun _ _ => ?_) fun _ _ _ => trivial
  refine meets_rule_then ((sp.block (after tokens m)).before fun _ hb => hb.after) (by omega) ?_
    fun _ _ hb => hb
  intro n ts _ hle
  have hlt' := lt_after tokens n
  refine meets_token_then stable_fresh.imp ?_ fun _ _ _ => trivial
  intro _ hat
  exact (h (after tokens n) (by omega)).before fun b hb => (hb hat).after

theorem meets_body (sp : Specs tokens fuel) {m lo : Nat} (hlo : lo ≤ m) :
    MeetsParts tokens fuel braced m lo (fun b => b.Fresh m) (fun n b => b.Fresh n) fun _ => True := by
  rw [← List.append_nil braced]
  exact meets_braced sp hlo fun n _ => meets_done fun b hb => hb

/-- The parameters and the body of a function. -/
theorem meets_signature (sp : Specs tokens fuel) {m lo : Nat} (hlo : lo ≤ m) :
    MeetsParts tokens fuel (parenthesised (.rule .argumentList) ++ braced) m lo (fun b => b.Fresh m)
      (fun n b => b.Fresh n) fun _ => True := by
  have hlt := lt_after tokens m
  refine meets_token_then stable_fresh (fun _ _ => ?_) fun _ _ _ => trivial
  refine meets_rule_then ((sp.argumentList (after tokens m)).before fun _ hb => hb.after)
    (by omega) ?_ fun _ _ hb => hb
  intro n ts _ hle
  have hlt' := lt_after tokens n
  refine meets_token_then stable_fresh (fun _ _ => ?_) fun _ _ _ => trivial
  exact (meets_body sp (by omega)).before fun _ hb => hb.after

theorem function_meets (sp : Specs tokens fuel) (s : Nat) :
    MeetsRule tokens (fuel + 1) .function s s (fun b => b.Fresh s)
      (fun m b => b.Fresh m ∧ b.Held tokens .function s) fun _ => True := by
  have hF : ∀ m, Stable tokens fun b => b.Fresh m := fun _ => stable_fresh
  have hprod : MeetsPart tokens fuel (production .function) s (s + 1) (fun b => b.Fresh s)
      (fun m b => b.Fresh m) fun _ => True := by
    have hlt := lt_after tokens s
    refine meets_node ?_ stable_fresh hF
    refine meets_choice_last ?_ rfl stable_fresh hF
    refine meets_token_then stable_fresh (fun _ _ => ?_) fun _ _ _ => trivial
    have hname : MeetsPart tokens fuel (.optional name) (after tokens s) (s + 1)
        (fun b => b.Fresh s) (fun m b => after tokens s ≤ m ∧ b.Fresh m) fun _ => False := by
      refine meets_optional (F := fun b => b.Fresh s) ?_ fun b _ hb => ⟨Nat.le_refl _, hb.after⟩
      refine ((meets_token _ _ stable_fresh).giving ?_).failing fun _ _ hb => hb.1
      rintro b ts m - ⟨hb, rfl, -⟩
      have := lt_after tokens (after tokens s)
      exact ⟨Nat.le_of_lt this, hb.after.after⟩
    refine meets_parts_cons (hname.failing fun _ _ hb => hb.elim) ?_
    intro m ts _ hle
    exact (meets_signature sp (by omega)).before fun _ hb => hb.2
  refine meets_record rfl (fun b hb => hb s (Nat.le_refl s)) hprod stable_fresh ?_
  intro b b' ts m ho hfresh hk hheld
  exact ⟨hk.fresh ((reading_proper .function s).moves ho rfl) hfresh, hheld⟩

theorem classLiteral_meets (sp : Specs tokens fuel) (s : Nat) :
    MeetsRule tokens (fuel + 1) .classLiteral s s (fun b => b.Fresh s) (fun m b => b.Fresh m)
      fun _ => True := by
  have hF : ∀ m, Stable tokens fun b => b.Fresh m := fun _ => stable_fresh
  have hprod : MeetsPart tokens fuel (production .classLiteral) s s (fun b => b.Fresh s)
      (fun m b => b.Fresh m) fun _ => True := by
    have hlt := lt_after tokens s
    have hlt' := lt_after tokens (after tokens s)
    refine meets_node ?_ stable_fresh hF
    refine meets_choice_last ?_ rfl stable_fresh hF
    refine meets_token_then stable_fresh (fun _ _ => ?_) fun _ _ _ => trivial
    refine meets_token_then stable_fresh (fun _ _ => ?_) fun _ _ _ => trivial
    exact (meets_body sp (by omega)).before fun _ hb => hb.after.after
  refine meets_record rfl (fun b hb => hb s (Nat.le_refl s)) hprod stable_fresh ?_
  intro b b' ts m ho hfresh hk hheld
  exact hk.fresh ((reading_proper .classLiteral s).moves ho rfl) hfresh

/-- An expression in parentheses. -/
theorem meets_grouped (sp : Specs tokens fuel) (s : Nat) :
    MeetsPart tokens fuel (.node .expression [parenthesised (.rule .expression)]) s s
      (fun b => b.Fresh s) (fun m b => b.Fresh m) fun _ => True := by
  have hlt := lt_after tokens s
  refine meets_node ?_ stable_fresh fun _ => stable_fresh
  refine meets_choice_last ?_ rfl stable_fresh fun _ => stable_fresh
  refine meets_token_then stable_fresh (fun _ _ => ?_) fun _ _ _ => trivial
  refine meets_rule_then ((sp.expression (after tokens s)).before fun _ hb => Or.inl hb.after)
    (by omega) ?_ fun _ _ hb => hb
  intro e ts _ _
  exact meets_closing.before fun b hb hat => hb.2.1.fresh hat (by decide)

theorem primary_meets (sp : Specs tokens fuel) (s : Nat) :
    MeetsRule tokens (fuel + 1) .primary s s (fun b => b.Begins tokens s)
      (fun m b => b.Fresh m ∧ b.Opened tokens s m) fun _ => True := by
  have hlt := lt_after tokens s
  have hR : ∀ m, Stable tokens fun b => b.Fresh m ∧ b.Opened tokens s m := stable_fresh_opened
  refine meets_rule rfl (meets_choice ?_)
  by_cases hparen : nextIs .leftParen none (tokenAt? tokens s) = true
  · obtain ⟨t, ht, hk, -⟩ := nextIs_iff.mp hparen
    have hfunc : Rule.starts (tokenAt? tokens s) .function = false := by
      simp [Rule.starts, ht, nextIs, accepts, hk]
    have hbracket : ¬ At tokens .leftBracket s := by simp [At, ht, nextIs, accepts, hk]
    refine meets_choice_last ?_ ?_ stable_begins hR
    · refine meets_parts_cons ((meets_grouped sp s).before fun _ hb => hb.fresh hbracket) ?_
      exact fun m ts _ _ => meets_done fun b hb => ⟨hb, .of_not_starts hfunc⟩
    · simp [ht, choiceStarts, partsStart, punct, name, Production.starts, Rule.starts, nextIs,
        accepts, hk]
  refine meets_choice_skip ?_ stable_begins hR ?_
  · simpa [partsStart, Production.starts, choiceStarts, parenthesised, punct] using hparen
  by_cases hfunc : nextIs .keyword (some "func") (tokenAt? tokens s) = true
  · obtain ⟨t, ht, hk, htext⟩ := nextIs_iff.mp hfunc
    have hbracket : ¬ At tokens .leftBracket s := by simp [At, ht, nextIs, accepts, hk]
    refine meets_choice_last ?_ ?_ stable_begins hR
    · refine meets_rule_then ((sp.function s).before fun _ hb => hb.fresh hbracket)
        (Nat.le_refl s) ?_ fun _ _ hb => hb
      intro m ts ho _
      refine meets_done fun b hb => ⟨hb.1, ?_⟩
      intro us f hf
      rw [ho] at hf
      cases hf
      exact ⟨Nat.le_refl m, hb.2⟩
    · simp [ht, choiceStarts, partsStart, punct, name, Production.starts, Rule.starts, nextIs,
        accepts, hk, ← htext "func" rfl]
  have hopened : ∀ (b : Builder) (m : Nat), b.Opened tokens s m :=
    fun _ _ => Opened.of_not_starts (by simpa [Rule.starts] using hfunc)
  refine meets_choice_skip ?_ stable_begins hR ?_
  · simpa [partsStart, Production.starts, Rule.starts] using hfunc
  by_cases hclass : nextIs .keyword (some "class") (tokenAt? tokens s) = true
  · obtain ⟨t, ht, hk, htext⟩ := nextIs_iff.mp hclass
    have hbracket : ¬ At tokens .leftBracket s := by simp [At, ht, nextIs, accepts, hk]
    refine meets_choice_last ?_ ?_ stable_begins hR
    · refine meets_rule_then ((sp.classLiteral s).before fun _ hb => hb.fresh hbracket)
        (Nat.le_refl s) ?_ fun _ _ hb => hb
      exact fun m ts _ _ => meets_done fun b hb => ⟨hb, hopened b m⟩
    · simp [ht, choiceStarts, partsStart, punct, name, Production.starts, Rule.starts, nextIs,
        accepts, hk]
  refine meets_choice_skip ?_ stable_begins hR ?_
  · simpa [partsStart, Production.starts, Rule.starts] using hclass
  by_cases hbracket : At tokens .leftBracket s
  · obtain ⟨t, ht, hk, -⟩ := nextIs_iff.mp hbracket
    refine meets_choice_last ?_ ?_ stable_begins hR
    · refine meets_rule_then (sp.array s) (Nat.le_refl s) ?_ fun _ _ hb => hb
      exact fun m ts _ _ => meets_done fun b hb => ⟨hb, hopened b m⟩
    · simp [ht, choiceStarts, partsStart, punct, name, Production.starts, nextIs, accepts, hk]
  refine meets_choice_skip ?_ stable_begins hR ?_
  · simpa [partsStart, Production.starts, Rule.starts, At] using hbracket
  -- a literal or a name
  refine ((meets_tokens [(.number, none), (.string, none), (.boolean, none), (.null, none),
    (.identifier, none)] stable_begins).giving ?_).failing fun _ _ _ => trivial
  rintro b ts m - ⟨hb, rfl, -⟩
  exact ⟨(hb.fresh hbracket).after, hopened b _⟩

theorem expression_meets (sp : Specs tokens fuel) (s : Nat) :
    MeetsRule tokens (fuel + 1) .expression s s (fun b => b.Begins tokens s)
      (fun e b => b.Held tokens .expression s ∧ b.Ahead tokens e ∧ b.Opened tokens s e)
      fun _ => True := by
  have hR : ∀ e, Stable tokens fun b => b.Ahead tokens e ∧ b.Opened tokens s e :=
    stable_ahead_opened
  have hprod : MeetsPart tokens fuel (production .expression) s s (fun b => b.Begins tokens s)
      (fun e b => b.Ahead tokens e ∧ b.Opened tokens s e) fun _ => True := by
    refine meets_node ?_ stable_begins hR
    by_cases hnone : (reading tokens .suffixed s).outcome = .failed
    · -- without an operand both alternatives fail
      refine meets_of_failed (choice_agrees tokens fuel _).loosely ?_
      simp [choice_cons_failed_iff, parts_cons_failed_iff, hnone, comparison_failed_iff]
    refine meets_choice_cons (G := fun b => b.Poised tokens s) ?_ ?_ stable_begins hR
    · refine meets_rule_then ((sp.suffixed s).before fun _ hb => hb.poised) (Nat.le_refl s) ?_
        fun b hf _ => absurd hf hnone
      intro e ts ho hle
      have hlt := lt_after tokens e
      refine meets_token_then (stable_chain e) ?_ fun _ b hb => hb.1.poised hb.2
      intro _ hat
      have hkeeps : ∀ {target : Nat} {b b' : Builder} {reach : Nat},
          b.Ready tokens target (after tokens e) →
          Leaves tokens b b' target (after tokens e) reach → b.Seg tokens s e →
          b'.Seg tokens s e := fun hr hl h => h.leaves (Nat.le_of_lt hlt) hr hl
      -- an assignment without a right side leaves the operand and its table
      by_cases hm : Matches tokens .suffixed (after tokens e)
      · have hkeep := MeetsRule.keeping (K := fun b => b.Seg tokens s e)
          (sp.expression (after tokens e)) hkeeps
        refine meets_rule_then (hkeep.before ?_) (by omega) ?_ ?_
        · intro b hb
          exact ⟨Or.inl (hb.2.edge.assign hat hm).after, hb.1⟩
        · intro m us _ hle'
          exact meets_done fun b hb => ⟨hb.1.2.1, hb.2.opened.mono (by omega)⟩
        · intro b hf _
          exact absurd hm (not_matches_iff.mpr (expression_failed_iff.mp hf))
      · have hf := expression_failed_iff.mpr (not_matches_iff.mp hm)
        have hfail : MeetsRule tokens fuel .expression (after tokens e) (after tokens e)
            (fun _ => True) (fun _ _ => False) fun _ => True := meetsRule_of_failed hf
        have hkeep := MeetsRule.keeping (K := fun b => b.Seg tokens s e) hfail hkeeps
        refine meets_rule_then (hkeep.before fun _ hb => ⟨trivial, hb.1⟩) (by omega) ?_ ?_
        · intro m us ho' _
          rw [hf] at ho'
          cases ho'
        · intro b _ hb
          exact hb.2.poised (.of_assignment hat hm)
    · intro _
      refine meets_choice_last ?_ rfl stable_poised hR
      refine meets_rule_then (sp.comparison s) (Nat.le_refl s) ?_ fun _ _ hb => hb
      exact fun e ts _ _ => meets_done fun b hb => ⟨hb.2, hb.1.opened⟩
  refine meets_record rfl (fun _ hb => hb.vacant) hprod stable_begins ?_
  intro b b' ts e ho hb hk hheld
  have hlt := (reading_proper .expression s).moves ho rfl
  exact ⟨hheld, hb.1.keeps hk (Nat.zero_le e) hlt, hb.2.keeps hk (Nat.zero_le s)⟩

end Operands

end ScriptKit.Grammar
