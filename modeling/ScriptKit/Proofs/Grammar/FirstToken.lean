import ScriptKit.Proofs.Grammar.Meets

namespace ScriptKit.Grammar

open Builder

variable {tokens : Array Token}

/-- Whether the next token, if there is one, is of a kind and of a text if one is given. -/
def nextIs (kind : Token.Kind) (text : Option String) : Option Token → Bool
  | none => false
  | some t => accepts kind text t

/-- Whether an operand of an expression can begin with a token. -/
def startsOperand (t : Option Token) : Bool :=
  nextIs .leftParen none t || nextIs .keyword (some "func") t || nextIs .keyword (some "class") t ||
    nextIs .leftBracket none t || nextIs .number none t || nextIs .string none t ||
    nextIs .boolean none t || nextIs .null none t || nextIs .identifier none t

/-- Whether a rule can begin with a token. Rules that also match without a token always can. -/
def Rule.starts (t : Option Token) : Rule → Bool
  | block | expressionList | argumentList => true
  | statement =>
    nextIs .keyword (some "if") t || nextIs .keyword (some "while") t ||
      nextIs .keyword (some "let") t || startsOperand t
  | ifStatement => nextIs .keyword (some "if") t
  | function => nextIs .keyword (some "func") t
  | classLiteral => nextIs .keyword (some "class") t
  | array => nextIs .leftBracket none t
  | expression | comparison | additive | multiplicative | power | suffixed | primary =>
    startsOperand t

mutual

def Production.starts (t : Option Token) : Production → Bool
  | .token kind text => nextIs kind text t
  | .rule r => r.starts t
  | .node _ alternatives => choiceStarts t alternatives
  | .choice alternatives => choiceStarts t alternatives
  | .many _ => true
  | .optional _ => true
  | .chain head _ => head.starts t

def partsStart (t : Option Token) : List Production → Bool
  | [] => true
  | p :: _ => p.starts t

def choiceStarts (t : Option Token) : List (List Production) → Bool
  | [] => false
  | parts :: alternatives => partsStart t parts || choiceStarts t alternatives

end

theorem production_starts {t : Option Token} {r : Rule} (h : r.starts t = false) :
    (production r).starts t = false := by
  cases r <;> simp_all [production, Production.starts, choiceStarts, partsStart, Rule.starts,
    startsOperand, ifParts, whileParts, parenthesised, bracketed, kw, punct, name]

/-- A reading that does not match. It may run out of fuel only if `limited` says so. -/
def Attempt.Refused (limited : Prop) (a : Attempt) : Prop :=
  a.outcome = .failed ∨ (limited ∧ a.outcome = .exhausted)

theorem Attempt.Refused.andThen {limited : Prop} {a : Attempt} (h : a.Refused limited)
    (f : List Tree → Nat → Attempt) : (a.andThen f).Refused limited := by
  rcases h with h | h
  · rw [Attempt.andThen_failed h]
    exact Or.inl h
  · rw [Attempt.andThen_exhausted h.2]
    exact Or.inr h

mutual

/-- A production that cannot begin with the next token does not match. -/
theorem readProduction_refused {limited : Prop} {rule : Rule → Nat → Attempt} {pos : Nat}
    (hrule : ∀ r, r.starts (tokenAt? tokens pos) = false → (rule r pos).Refused limited) :
    ∀ p : Production, p.starts (tokenAt? tokens pos) = false →
      (readProduction tokens rule p pos).Refused limited
  | .token kind text, h => by
    simp only [Production.starts] at h
    simp only [readProduction, readToken]
    cases ht : tokenAt? tokens pos with
    | none => exact Or.inl rfl
    | some t =>
      rw [ht] at h
      simp only [show accepts kind text t = false from h, Bool.false_eq_true, if_false]
      exact Or.inl rfl
  | .rule r, h => by
    simp only [readProduction]
    exact hrule r (by simpa only [Production.starts] using h)
  | .node kind alternatives, h => by
    simp only [readProduction]
    exact (readChoice_refused hrule alternatives (by simpa only [Production.starts] using h)).andThen
      _
  | .choice alternatives, h => by
    simp only [readProduction]
    exact readChoice_refused hrule alternatives (by simpa only [Production.starts] using h)
  | .many _, h => by simp [Production.starts] at h
  | .optional _, h => by simp [Production.starts] at h
  | .chain head suffix, h => by
    simp only [readProduction]
    exact (readProduction_refused hrule head (by simpa only [Production.starts] using h)).andThen _

theorem readParts_refused {limited : Prop} {rule : Rule → Nat → Attempt} {pos : Nat}
    (hrule : ∀ r, r.starts (tokenAt? tokens pos) = false → (rule r pos).Refused limited) :
    ∀ parts : List Production, partsStart (tokenAt? tokens pos) parts = false →
      (readParts tokens rule parts pos).Refused limited
  | [], h => by simp [partsStart] at h
  | p :: parts, h => by
    simp only [readParts]
    exact (readProduction_refused hrule p (by simpa only [partsStart] using h)).andThen _

theorem readChoice_refused {limited : Prop} {rule : Rule → Nat → Attempt} {pos : Nat}
    (hrule : ∀ r, r.starts (tokenAt? tokens pos) = false → (rule r pos).Refused limited) :
    ∀ alternatives : List (List Production), choiceStarts (tokenAt? tokens pos) alternatives = false →
      (readChoice tokens rule alternatives pos).Refused limited
  | [], _ => Or.inl rfl
  | parts :: alternatives, h => by
    simp only [choiceStarts, Bool.or_eq_false_iff] at h
    have h₁ := readParts_refused hrule parts h.1
    have h₂ := readChoice_refused hrule alternatives h.2
    simp only [readChoice]
    rcases h₁ with h₁ | h₁
    · rw [Attempt.orElse_failed h₁]
      exact h₂
    · rw [Attempt.orElse_exhausted h₁.2]
      exact Or.inr h₁

end

theorem reading_failed {r : Rule} {pos : Nat} (h : r.starts (tokenAt? tokens pos) = false) :
    (reading tokens r pos).outcome = .failed := by
  have hrefused : ∀ fuel r, r.starts (tokenAt? tokens pos) = false →
      (readRule tokens fuel r pos).Refused True := by
    intro fuel
    induction fuel with
    | zero => intro r _; exact Or.inr ⟨trivial, rfl⟩
    | succ fuel ih =>
      intro r hr
      exact readProduction_refused ih (production r) (production_starts hr)
  rcases hrefused (enoughFuel tokens) r h with hf | hx
  · exact hf
  · exact absurd hx.2 (reading_proper r pos).decided

theorem reading_refused {r : Rule} {pos : Nat} (h : r.starts (tokenAt? tokens pos) = false) :
    (reading tokens r pos).Refused False :=
  Or.inl (reading_failed h)

theorem readProduction_failed {p : Production} {pos : Nat}
    (h : p.starts (tokenAt? tokens pos) = false) :
    (readProduction tokens (reading tokens) p pos).outcome = .failed :=
  (readProduction_refused (fun _ => reading_refused) p h).resolve_right fun hx => hx.1

theorem readParts_failed {parts : List Production} {pos : Nat}
    (h : partsStart (tokenAt? tokens pos) parts = false) :
    (readParts tokens (reading tokens) parts pos).outcome = .failed :=
  (readParts_refused (fun _ => reading_refused) parts h).resolve_right fun hx => hx.1

theorem readChoice_failed {alternatives : List (List Production)} {pos : Nat}
    (h : choiceStarts (tokenAt? tokens pos) alternatives = false) :
    (readChoice tokens (reading tokens) alternatives pos).outcome = .failed :=
  (readChoice_refused (fun _ => reading_refused) alternatives h).resolve_right fun hx => hx.1

section

variable {fuel pos lo : Nat} {P : Builder → Prop}

theorem Meets.of_false {run : Build} {plain : Nat → Attempt} {R : Nat → Builder → Prop}
    {F : Builder → Prop} : Meets tokens run plain pos lo (fun _ => False) R F := by
  intro target b b' res _ hb
  exact hb.elim

mutual

/-- A production that cannot begin with the next token fails, and leaves what was asserted. -/
theorem meets_refused
    (hrule : ∀ r, r.starts (tokenAt? tokens pos) = false →
      MeetsRule tokens fuel r pos lo P (fun _ _ => False) P) (hP : Stable tokens P) :
    ∀ p : Production, p.starts (tokenAt? tokens pos) = false →
      MeetsPart tokens fuel p pos lo P (fun _ _ => False) P
  | .token kind text, h => by
    refine ((meets_token kind text hP).giving ?_).failing fun _ _ hb => hb.1
    rintro b ts m - ⟨-, -, t, ht, hacc⟩
    simp only [Production.starts, ht, nextIs, hacc] at h
    cases h
  | .rule r, h => meets_part_rule (hrule r (by simpa only [Production.starts] using h))
  | .node kind alternatives, h =>
    meets_node (meets_refused_choice hrule hP alternatives (by simpa only [Production.starts] using h))
      hP fun _ => stable_const
  | .choice alternatives, h =>
    meets_choice (meets_refused_choice hrule hP alternatives
      (by simpa only [Production.starts] using h))
  | .many _, h => by simp [Production.starts] at h
  | .optional _, h => by simp [Production.starts] at h
  | .chain head suffix, h => by
    have hstart : head.starts (tokenAt? tokens pos) = false := by
      simpa only [Production.starts] using h
    -- the head is refused, so the chain never gets to its suffixes
    refine meets_chain (meets_refused hrule hP head hstart) (fun _ _ => Meets.of_false)
      (fun _ => stable_const) (fun _ => stable_const) hP fun ts m ho => ?_
    rw [readProduction_failed hstart] at ho
    cases ho

theorem meets_refused_parts
    (hrule : ∀ r, r.starts (tokenAt? tokens pos) = false →
      MeetsRule tokens fuel r pos lo P (fun _ _ => False) P) (hP : Stable tokens P) :
    ∀ parts : List Production, partsStart (tokenAt? tokens pos) parts = false →
      MeetsParts tokens fuel parts pos lo P (fun _ _ => False) P
  | [], h => by simp [partsStart] at h
  | p :: parts, h =>
    meets_parts_cons (meets_refused hrule hP p (by simpa only [partsStart] using h))
      fun _ _ _ _ => Meets.of_false

theorem meets_refused_choice
    (hrule : ∀ r, r.starts (tokenAt? tokens pos) = false →
      MeetsRule tokens fuel r pos lo P (fun _ _ => False) P) (hP : Stable tokens P) :
    ∀ alternatives : List (List Production), choiceStarts (tokenAt? tokens pos) alternatives = false →
      MeetsChoice tokens fuel alternatives pos lo P (fun _ _ => False) P
  | [], _ => meets_choice_nil
  | parts :: alternatives, h => by
    simp only [choiceStarts, Bool.or_eq_false_iff] at h
    exact meets_choice_cons (meets_refused_parts hrule hP parts h.1)
      (fun _ => meets_refused_choice hrule hP alternatives h.2) hP fun _ => stable_const

end

/-- A rule that cannot begin with the next token fails, and leaves what was asserted. -/
theorem meetsRule_refused (hP : Stable tokens P) (fuel : Nat) :
    ∀ r : Rule, r.starts (tokenAt? tokens pos) = false →
      MeetsRule tokens fuel r pos lo P (fun _ _ => False) P := by
  induction fuel with
  | zero =>
    intro r _ target b b' res _ _ hrun
    cases hrun
    trivial
  | succ fuel ih =>
    intro r hr target b b' res hready hb hrun
    have hm := meets_refused ih hP (production r) (production_starts hr)
    have hfail := reading_failed hr
    cases ht : r.isTabled with
    | false => exact meets_rule ht hm hready hb hrun
    | true =>
      simp only [buildRule, ht, if_true] at hrun
      have hstart := hready.sane.ready_next .temporary "" (lineAt tokens pos) pos
      -- a tree in the table would be a match
      have hnone : ∀ {d : Builder}, d.Sane tokens → ∀ e n, d.lookup? r pos ≠ some (.matched e n) := by
        intro d hd e n he
        obtain ⟨⟨t, ho⟩, -⟩ := hd.matched he
        rw [hfail] at ho
        cases ho
      cases he : b.lookup? r pos with
      | some entry =>
        cases entry with
        | failed =>
          simp only [he] at hrun
          cases hrun
          exact ⟨hfail, hb⟩
        | matched e n => exact absurd he (hnone hready.sane e n)
      | none =>
        simp only [he, buildRecorded] at hrun
        cases hrun₁ : buildProduction tokens (buildRule tokens fuel) (production r) b.next pos
            (b.add .temporary "" (lineAt tokens pos)) with
        | mk res₁ d =>
          have hd := hm hstart (hP ((quiet_add b _ _ _).keeps hready.sane) hb) hrun₁
          have ha := part_agrees tokens fuel (production r) hstart hrun₁
          simp only [hrun₁] at hrun
          cases res₁ with
          | exhausted => cases hrun; trivial
          | matched m => exact hd.2.elim
          | failed =>
            cases hrun
            exact ⟨hfail, hP ((quiet_record_failed (hnone ha.leaves.sane)).keeps ha.leaves.sane)
              hd.2⟩

theorem meets_parts_refused {parts : List Production} (hP : Stable tokens P)
    (h : partsStart (tokenAt? tokens pos) parts = false) :
    MeetsParts tokens fuel parts pos lo P (fun _ _ => False) P :=
  meets_refused_parts (meetsRule_refused hP fuel) hP parts h

theorem meets_choice_refused {alternatives : List (List Production)} (hP : Stable tokens P)
    (h : choiceStarts (tokenAt? tokens pos) alternatives = false) :
    MeetsChoice tokens fuel alternatives pos lo P (fun _ _ => False) P :=
  meets_refused_choice (meetsRule_refused hP fuel) hP alternatives h

end

end ScriptKit.Grammar
