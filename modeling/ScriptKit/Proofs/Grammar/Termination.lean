import ScriptKit.Grammar.Reading

namespace ScriptKit.Grammar

variable {tokens : Array Token}

theorem le_skip (tokens : Array Token) (pos : Nat) : pos ≤ skip tokens pos := by
  fun_induction skip tokens pos with
  | case1 pos h hb ih => omega
  | case2 pos h hb => exact Nat.le_refl pos
  | case3 pos h => exact Nat.le_refl pos

theorem skip_lt_of_tokenAt? {pos : Nat} {t : Token} (h : tokenAt? tokens pos = some t) :
    skip tokens pos < tokens.size := by
  unfold tokenAt? at h
  exact (Array.getElem?_eq_some_iff.mp h).1

namespace Attempt

@[simp] theorem outcome_reaching (a : Attempt) (n : Nat) : (a.reaching n).outcome = a.outcome :=
  rfl

@[simp] theorem reach_reaching (a : Attempt) (n : Nat) : (a.reaching n).reach = max n a.reach :=
  rfl

theorem reaching_reaching (a : Attempt) (m n : Nat) :
    (a.reaching m).reaching n = a.reaching (max n m) := by
  simp only [reaching, Nat.max_assoc]

theorem andThen_matched {a : Attempt} {trees : List Tree} {next : Nat}
    (h : a.outcome = .matched trees next) (f : List Tree → Nat → Attempt) :
    a.andThen f = (f trees next).reaching a.reach := by
  simp only [andThen, h]

theorem andThen_failed {a : Attempt} (h : a.outcome = .failed) (f : List Tree → Nat → Attempt) :
    a.andThen f = a := by
  simp only [andThen, h]

theorem andThen_exhausted {a : Attempt} (h : a.outcome = .exhausted)
    (f : List Tree → Nat → Attempt) : a.andThen f = a := by
  simp only [andThen, h]

theorem orElse_matched {a : Attempt} {trees : List Tree} {next : Nat}
    (h : a.outcome = .matched trees next) (f : Unit → Attempt) : a.orElse f = a := by
  simp only [orElse, h]

theorem orElse_failed {a : Attempt} (h : a.outcome = .failed) (f : Unit → Attempt) :
    a.orElse f = (f ()).reaching a.reach := by
  simp only [orElse, h]

theorem orElse_exhausted {a : Attempt} (h : a.outcome = .exhausted) (f : Unit → Attempt) :
    a.orElse f = a := by
  simp only [orElse, h]

theorem map_matched {a : Attempt} {trees : List Tree} {next : Nat}
    (h : a.outcome = .matched trees next) (f : List Tree → List Tree) :
    a.map f = ⟨.matched (f trees) next, a.reach⟩ := by
  simp only [map, andThen_matched h, reaching, Nat.max_zero]

theorem map_failed {a : Attempt} (h : a.outcome = .failed) (f : List Tree → List Tree) :
    a.map f = a := andThen_failed h _

theorem map_exhausted {a : Attempt} (h : a.outcome = .exhausted) (f : List Tree → List Tree) :
    a.map f = a := andThen_exhausted h _

@[simp] theorem reach_map (a : Attempt) (f : List Tree → List Tree) :
    (a.map f).reach = a.reach := by
  cases h : a.outcome with
  | matched trees next => rw [map_matched h]
  | failed => rw [map_failed h]
  | exhausted => rw [map_exhausted h]

theorem outcome_map_eq_failed {a : Attempt} {f : List Tree → List Tree} :
    (a.map f).outcome = .failed ↔ a.outcome = .failed := by
  cases h : a.outcome with
  | matched trees next => simp [map_matched h]
  | failed => simp [map_failed h, h]
  | exhausted => simp [map_exhausted h, h]

theorem outcome_map_eq_matched {a : Attempt} {f : List Tree → List Tree} {trees : List Tree}
    {next : Nat} : (a.map f).outcome = .matched trees next ↔
      ∃ ts, a.outcome = .matched ts next ∧ trees = f ts := by
  cases h : a.outcome with
  | matched ts n =>
    simp only [map_matched h, Outcome.matched.injEq]
    constructor
    · rintro ⟨rfl, rfl⟩
      exact ⟨ts, ⟨rfl, rfl⟩, rfl⟩
    · rintro ⟨_, ⟨rfl, rfl⟩, rfl⟩
      exact ⟨rfl, rfl⟩
  | failed => simp [map_failed h, h]
  | exhausted => simp [map_exhausted h, h]

/-- The bounds that every reading from a position keeps: it never goes back, and it never goes
past the end. A production that takes a token moves on. -/
structure Proper (a : Attempt) (tokens : Array Token) (pos : Nat) (takes : Bool) : Prop where
  decided : a.outcome ≠ .exhausted
  forward : ∀ {trees next}, a.outcome = .matched trees next → pos ≤ next
  inside : ∀ {trees next}, a.outcome = .matched trees next → next = pos ∨ next ≤ tokens.size
  moves : ∀ {trees next}, a.outcome = .matched trees next → takes = true → pos < next

namespace Proper

variable {a : Attempt} {pos : Nat} {takes : Bool}

theorem of_failed (h : a.outcome = .failed) : a.Proper tokens pos takes := by
  constructor <;> simp [h]

theorem of_matched {trees : List Tree} {next : Nat} (h : a.outcome = .matched trees next)
    (hle : pos ≤ next) (hin : next = pos ∨ next ≤ tokens.size)
    (hm : takes = true → pos < next) : a.Proper tokens pos takes := by
  refine ⟨by simp [h], ?_, ?_, ?_⟩ <;> intro _ _ h' <;> rw [h] at h' <;> cases h'
  · exact hle
  · exact hin
  · exact hm

theorem weaken (h : a.Proper tokens pos takes) : a.Proper tokens pos false :=
  ⟨h.decided, h.forward, h.inside, by simp⟩

theorem reaching {n : Nat} (h : a.Proper tokens pos takes) :
    (a.reaching n).Proper tokens pos takes :=
  ⟨h.decided, h.forward, h.inside, h.moves⟩

theorem map {f : List Tree → List Tree} (h : a.Proper tokens pos takes) :
    (a.map f).Proper tokens pos takes := by
  cases ho : a.outcome with
  | exhausted => exact absurd ho h.decided
  | failed => rw [map_failed ho]; exact h
  | matched trees next =>
    rw [map_matched ho]
    exact of_matched rfl (h.forward ho) (h.inside ho) (h.moves ho)

/-- What goes on after a match goes on from there. -/
theorem trans {b : Attempt} {trees : List Tree} {next : Nat} {takes' : Bool}
    (h : a.Proper tokens pos takes) (ha : a.outcome = .matched trees next)
    (hb : b.Proper tokens next takes') : b.Proper tokens pos (takes || takes') := by
  have h1 := h.forward ha
  have h2 := h.inside ha
  refine ⟨hb.decided, ?_, ?_, ?_⟩ <;> intro _ _ ho
  · have := hb.forward ho
    omega
  · have := hb.inside ho
    omega
  · intro ht
    have h3 := hb.forward ho
    rcases Bool.or_eq_true_iff.mp ht with ht | ht
    · have := h.moves ha ht
      omega
    · have := hb.moves ho ht
      omega

end Proper

end Attempt

/-- A chain is a head that reads a tree and the suffixes behind it. -/
theorem chain_matched_iff {rule : Rule → Nat → Attempt} {head suffix : Production} {pos next : Nat}
    {ts : List Tree} :
    (readProduction tokens rule (.chain head suffix) pos).outcome = .matched ts next ↔
      ∃ t us m, (readProduction tokens rule head pos).outcome = .matched (t :: us) m ∧
        (readSuffixes (readProduction tokens rule suffix) (tokens.size + 1) t m).outcome =
          .matched ts next := by
  rw [readProduction]
  cases h : (readProduction tokens rule head pos).outcome with
  | exhausted => simp [Attempt.andThen_exhausted h, h]
  | failed => simp [Attempt.andThen_failed h, h]
  | matched us m =>
    rw [Attempt.andThen_matched h]
    cases us with
    | nil => simp
    -- only the first tree has its suffixes read
    | cons t us =>
      simp only [Attempt.outcome_reaching, Outcome.matched.injEq, List.cons.injEq]
      constructor
      · intro ho
        exact ⟨t, us, m, ⟨⟨rfl, rfl⟩, rfl⟩, ho⟩
      · rintro ⟨_, _, _, ⟨⟨rfl, rfl⟩, rfl⟩, ho⟩
        exact ho

namespace Rule

/-- Rules that match only if they take a token. -/
def takes : Rule → Bool
  | block | expressionList | argumentList => false
  | _ => true

/-- A rule refers only to rules of a lower rank before it takes a token. -/
def rank : Rule → Nat
  | block => 9
  | statement | expressionList => 8
  | expression => 7
  | comparison => 6
  | additive => 5
  | multiplicative => 4
  | power => 3
  | suffixed => 2
  | primary => 1
  | _ => 0

end Rule

mutual

/-- Whether a production matches only if it takes a token. -/
def Production.takes : Production → Bool
  | .token _ _ => true
  | .rule r => r.takes
  | .node _ alternatives => choiceTakes alternatives
  | .choice alternatives => choiceTakes alternatives
  | .many _ => false
  | .optional _ => false
  | .chain head _ => head.takes

def partsTake : List Production → Bool
  | [] => false
  | p :: parts => p.takes || partsTake parts

def choiceTakes : List (List Production) → Bool
  | [] => true
  | parts :: alternatives => partsTake parts && choiceTakes alternatives

end

mutual

/-- Whether a production refers only to rules below a rank before it takes a token, and repeats
only what takes one. -/
def Production.descends (k : Nat) : Production → Bool
  | .token _ _ => true
  | .rule r => r.rank < k
  | .node _ alternatives => choiceDescends k alternatives
  | .choice alternatives => choiceDescends k alternatives
  | .many parts => partsDescend k parts && partsTake parts
  | .optional p => p.descends k
  | .chain head suffix => head.descends k && head.takes && suffix.descends 10 && suffix.takes

def partsDescend (k : Nat) : List Production → Bool
  | [] => true
  | p :: parts => p.descends k && (if p.takes then partsDescend 10 parts else partsDescend k parts)

def choiceDescends (k : Nat) : List (List Production) → Bool
  | [] => true
  | parts :: alternatives => partsDescend k parts && choiceDescends k alternatives

end

theorem Rule.rank_lt (r : Rule) : r.rank < 10 := by
  cases r <;> decide

theorem production_descends (r : Rule) : (production r).descends r.rank = true := by
  cases r <;> decide

theorem production_takes (r : Rule) (h : r.takes = true) : (production r).takes = true := by
  cases r <;> first | decide | simp [Rule.takes] at h

/-- The rule readings that a production of rank `k` at `pos` can ask for. -/
def Asks (tokens : Array Token) (k pos : Nat) (r : Rule) (q : Nat) : Prop :=
  (pos < q ∧ q ≤ tokens.size) ∨ (q = pos ∧ r.rank < k)

/-- Two ways to read rules that agree, and are proper, wherever a production can ask for them. -/
def Alike (tokens : Array Token) (k pos : Nat) (rule rule' : Rule → Nat → Attempt) : Prop :=
  ∀ r q, Asks tokens k pos r q → rule r q = rule' r q ∧ (rule r q).Proper tokens q r.takes

theorem Alike.later {k k' pos q : Nat} {rule rule' : Rule → Nat → Attempt}
    (h : Alike tokens k pos rule rule') (hlt : pos < q) (hq : q ≤ tokens.size) :
    Alike tokens k' q rule rule' := by
  intro r p hp
  apply h r p
  rcases hp with ⟨hlt', hle⟩ | ⟨rfl, _⟩
  · exact Or.inl ⟨by omega, hle⟩
  · exact Or.inl ⟨hlt, hq⟩

theorem Alike.after {k pos next : Nat} {rule rule' : Rule → Nat → Attempt}
    (h : Alike tokens k pos rule rule') (hle : pos ≤ next) (hin : next = pos ∨ next ≤ tokens.size) :
    Alike tokens k next rule rule' := by
  rcases Nat.eq_or_lt_of_le hle with rfl | hlt
  · exact h
  · exact h.later hlt (by omega)

theorem readToken_proper (kind : Token.Kind) (text : Option String) (pos : Nat) :
    (readToken tokens kind text pos).Proper tokens pos true := by
  unfold readToken
  have hle := le_skip tokens pos
  split
  · exact .of_failed rfl
  · rename_i t ht
    have hlt := skip_lt_of_tokenAt? ht
    split
    · exact .of_matched rfl (by omega) (by omega) (fun _ => by omega)
    · exact .of_failed rfl

/-- A loop over a step that takes a token ends within as many rounds as tokens are left. -/
theorem readMany_proper (start : Nat) {step step' : Nat → Attempt}
    (hstep : ∀ q, start ≤ q → (q = start ∨ q ≤ tokens.size) →
      step q = step' q ∧ (step q).Proper tokens q true) (fuel : Nat) :
    ∀ pos : Nat, start ≤ pos → (pos = start ∨ pos ≤ tokens.size) →
      tokens.size + 1 - pos ≤ fuel → 0 < fuel →
      readMany step fuel pos = readMany step' fuel pos ∧
        (readMany step fuel pos).Proper tokens pos false := by
  induction fuel with
  | zero => intro pos _ _ _ hf; omega
  | succ fuel ih =>
    intro pos hs hin hfuel _
    obtain ⟨he, hp⟩ := hstep pos hs hin
    cases ho : (step pos).outcome with
    | exhausted => exact absurd ho hp.decided
    | failed =>
      simp only [readMany, ← he, ho, true_and]
      exact .of_matched rfl (Nat.le_refl pos) (Or.inl rfl) (by simp)
    | matched trees next =>
      have hlt := hp.moves ho rfl
      have hnext := hp.inside ho
      obtain ⟨hr, hpr⟩ := ih next (by omega) (by omega) (by omega) (by omega)
      simp only [readMany, ← he, ho, ← hr, show next ≠ pos by omega, if_false, true_and]
      exact (hp.trans ho hpr.map).reaching.weaken

theorem readSuffixes_proper (start : Nat) {step step' : Nat → Attempt}
    (hstep : ∀ q, start ≤ q → (q = start ∨ q ≤ tokens.size) →
      step q = step' q ∧ (step q).Proper tokens q true) (fuel : Nat) :
    ∀ (target : Tree) (pos : Nat), start ≤ pos → (pos = start ∨ pos ≤ tokens.size) →
      tokens.size + 1 - pos ≤ fuel → 0 < fuel →
      readSuffixes step fuel target pos = readSuffixes step' fuel target pos ∧
        (readSuffixes step fuel target pos).Proper tokens pos false := by
  induction fuel with
  | zero => intro target pos _ _ _ hf; omega
  | succ fuel ih =>
    intro target pos hs hin hfuel _
    obtain ⟨he, hp⟩ := hstep pos hs hin
    cases ho : (step pos).outcome with
    | exhausted => exact absurd ho hp.decided
    | failed =>
      simp only [readSuffixes, ← he, ho, true_and]
      exact .of_matched rfl (Nat.le_refl pos) (Or.inl rfl) (by simp)
    | matched parts next =>
      have hlt := hp.moves ho rfl
      have hnext := hp.inside ho
      obtain ⟨hr, hpr⟩ := ih (.branch .expression target.line (target :: parts)) next
        (by omega) (by omega) (by omega) (by omega)
      simp only [readSuffixes, ← he, ho, ← hr, true_and]
      exact (hp.trans ho hpr).reaching.weaken

mutual

/-- A production reads the same, and properly, with two ways to read the rules it can ask for. -/
theorem readProduction_proper {rule rule' : Rule → Nat → Attempt} :
    ∀ (p : Production) (k pos : Nat), p.descends k = true → Alike tokens k pos rule rule' →
      readProduction tokens rule p pos = readProduction tokens rule' p pos ∧
        (readProduction tokens rule p pos).Proper tokens pos p.takes
  | .token kind text, k, pos, _, _ => by
    simp only [readProduction, Production.takes, true_and]
    exact readToken_proper kind text pos
  | .rule r, k, pos, hd, ha => by
    simp only [readProduction, Production.takes]
    exact ha r pos (Or.inr ⟨rfl, by simpa [Production.descends] using hd⟩)
  | .node kind alternatives, k, pos, hd, ha => by
    obtain ⟨he, hp⟩ := readChoice_proper alternatives k pos
      (by simpa only [Production.descends] using hd) ha
    simp only [readProduction, ← he, Production.takes, true_and]
    exact hp.map
  | .choice alternatives, k, pos, hd, ha => by
    simp only [readProduction, Production.takes]
    exact readChoice_proper alternatives k pos (by simpa only [Production.descends] using hd) ha
  | .many parts, k, pos, hd, ha => by
    simp only [Production.descends, Bool.and_eq_true] at hd
    simp only [readProduction, Production.takes]
    apply readMany_proper pos _ _ pos (Nat.le_refl pos) (Or.inl rfl) (by omega)
      (by omega)
    -- a round begins at or behind the loop, where the parts may descend as deep
    intro q hle hin
    have := readParts_proper parts k q hd.1 (ha.after hle hin)
    rwa [hd.2] at this
  | .optional p, k, pos, hd, ha => by
    obtain ⟨he, hp⟩ := readProduction_proper p k pos
      (by simpa only [Production.descends] using hd) ha
    simp only [readProduction, ← he, Production.takes, true_and]
    cases ho : (readProduction tokens rule p pos).outcome with
    | exhausted => exact absurd ho hp.decided
    | failed =>
      rw [Attempt.orElse_failed ho]
      -- nothing is taken, so that the position is the one before
      exact .of_matched rfl (Nat.le_refl pos) (Or.inl rfl) (by simp)
    | matched trees next =>
      rw [Attempt.orElse_matched ho]
      exact hp.weaken
  | .chain head suffix, k, pos, hd, ha => by
    simp only [Production.descends, Bool.and_eq_true] at hd
    obtain ⟨⟨⟨hdh, hth⟩, hds⟩, hts⟩ := hd
    obtain ⟨he, hp⟩ := readProduction_proper head k pos hdh ha
    simp only [readProduction, ← he, Production.takes]
    cases ho : (readProduction tokens rule head pos).outcome with
    | exhausted => exact absurd ho hp.decided
    | failed =>
      rw [Attempt.andThen_failed ho, Attempt.andThen_failed ho]
      exact ⟨rfl, hp⟩
    | matched trees next =>
      rw [Attempt.andThen_matched ho, Attempt.andThen_matched ho]
      have hlt := hp.moves ho hth
      have hin := hp.inside ho
      cases trees with
      | nil => exact ⟨rfl, .of_failed rfl⟩
      | cons target others =>
        -- the head takes a token, so the suffixes may descend as deep as any rule does
        have hstep : ∀ q, next ≤ q → (q = next ∨ q ≤ tokens.size) →
            readProduction tokens rule suffix q = readProduction tokens rule' suffix q ∧
              (readProduction tokens rule suffix q).Proper tokens q true := by
          intro q hle hin'
          have := readProduction_proper suffix 10 q hds (ha.later (by omega) (by omega))
          rwa [hts] at this
        have hs := readSuffixes_proper next hstep
          (tokens.size + 1) target next (Nat.le_refl next) (Or.inl rfl) (by omega) (by omega)
        refine ⟨by simp only [hs.1], ?_⟩
        have hp' := (hp.trans ho hs.2).reaching (n := (readProduction tokens rule head pos).reach)
        simpa using hp'

theorem readParts_proper {rule rule' : Rule → Nat → Attempt} :
    ∀ (parts : List Production) (k pos : Nat), partsDescend k parts = true →
      Alike tokens k pos rule rule' →
      readParts tokens rule parts pos = readParts tokens rule' parts pos ∧
        (readParts tokens rule parts pos).Proper tokens pos (partsTake parts)
  | [], k, pos, _, _ => by
    simp only [readParts, partsTake, true_and]
    exact .of_matched rfl (Nat.le_refl pos) (Or.inl rfl) (by simp)
  | p :: parts, k, pos, hd, ha => by
    simp only [partsDescend, Bool.and_eq_true] at hd
    obtain ⟨he, hp⟩ := readProduction_proper p k pos hd.1 ha
    simp only [readParts, ← he, partsTake]
    cases ho : (readProduction tokens rule p pos).outcome with
    | exhausted => exact absurd ho hp.decided
    | failed =>
      rw [Attempt.andThen_failed ho, Attempt.andThen_failed ho]
      exact ⟨rfl, .of_failed ho⟩
    | matched trees next =>
      rw [Attempt.andThen_matched ho, Attempt.andThen_matched ho]
      have hr : readParts tokens rule parts next = readParts tokens rule' parts next ∧
          (readParts tokens rule parts next).Proper tokens next (partsTake parts) := by
        -- behind a part that takes a token the depth is counted anew
        cases ht : p.takes with
        | true =>
          have hlt := hp.moves ho ht
          have hin := hp.inside ho
          exact readParts_proper parts 10 next (by simpa [ht] using hd.2)
            (ha.later hlt (by omega))
        | false =>
          exact readParts_proper parts k next (by simpa [ht] using hd.2)
            (ha.after (hp.forward ho) (hp.inside ho))
      rw [← hr.1]
      exact ⟨rfl, (hp.trans ho hr.2.map).reaching⟩

theorem readChoice_proper {rule rule' : Rule → Nat → Attempt} :
    ∀ (alternatives : List (List Production)) (k pos : Nat), choiceDescends k alternatives = true →
      Alike tokens k pos rule rule' →
      readChoice tokens rule alternatives pos = readChoice tokens rule' alternatives pos ∧
        (readChoice tokens rule alternatives pos).Proper tokens pos (choiceTakes alternatives)
  | [], k, pos, _, _ => by
    simp only [readChoice, true_and]
    exact .of_failed rfl
  | parts :: alternatives, k, pos, hd, ha => by
    simp only [choiceDescends, Bool.and_eq_true] at hd
    obtain ⟨he, hp⟩ := readParts_proper parts k pos hd.1 ha
    obtain ⟨hr, hpr⟩ := readChoice_proper alternatives k pos hd.2 ha
    simp only [readChoice, ← he, ← hr, choiceTakes, true_and]
    cases ho : (readParts tokens rule parts pos).outcome with
    | exhausted => exact absurd ho hp.decided
    | failed =>
      rw [Attempt.orElse_failed ho]
      refine ⟨hpr.decided, hpr.forward, hpr.inside, ?_⟩
      -- a choice takes a token only if each of its alternatives does
      intro _ _ h ht
      exact hpr.moves h (Bool.and_eq_true_iff.mp ht).2
    | matched trees next =>
      rw [Attempt.orElse_matched ho]
      refine ⟨hp.decided, hp.forward, hp.inside, ?_⟩
      intro _ _ h ht
      exact hp.moves h (Bool.and_eq_true_iff.mp ht).1

end

/-- Fuel for the reading of a rule at a position. -/
def fuelFor (tokens : Array Token) (r : Rule) (pos : Nat) : Nat :=
  16 * (tokens.size + 1 - pos) + r.rank + 1

theorem fuelFor_lt_of_asks {r r' : Rule} {pos q fuel : Nat} (h : Asks tokens r.rank pos r' q)
    (hf : fuelFor tokens r pos ≤ fuel + 1) : fuelFor tokens r' q ≤ fuel := by
  unfold fuelFor at *
  have := r'.rank_lt
  rcases h with ⟨hlt, hle⟩ | ⟨rfl, hk⟩ <;> omega

theorem fuelFor_le_enoughFuel (r : Rule) (pos : Nat) :
    fuelFor tokens r pos ≤ enoughFuel tokens := by
  unfold fuelFor enoughFuel
  have := r.rank_lt
  omega

/-- With fuel enough, the reading of a rule does not depend on it and is proper. -/
theorem readRule_proper : ∀ (fuel fuel' : Nat) (r : Rule) (pos : Nat),
    fuelFor tokens r pos ≤ fuel → fuelFor tokens r pos ≤ fuel' →
      readRule tokens fuel r pos = readRule tokens fuel' r pos ∧
        (readRule tokens fuel r pos).Proper tokens pos r.takes := by
  intro fuel
  induction fuel with
  | zero => intro fuel' r pos hf _; simp [fuelFor] at hf
  | succ fuel ih =>
    intro fuel' r pos hf hf'
    cases fuel' with
    | zero => simp [fuelFor] at hf'
    | succ fuel' =>
      have ha : Alike tokens r.rank pos (readRule tokens fuel) (readRule tokens fuel') := by
        intro r' q hq
        exact ih fuel' r' q (fuelFor_lt_of_asks hq hf) (fuelFor_lt_of_asks hq hf')
      obtain ⟨he, hp⟩ := readProduction_proper (production r) r.rank pos
        (production_descends r) ha
      refine ⟨he, hp.decided, hp.forward, hp.inside, ?_⟩
      intro _ _ h ht
      exact hp.moves h (production_takes r ht)

theorem reading_proper (r : Rule) (pos : Nat) :
    (reading tokens r pos).Proper tokens pos r.takes :=
  (readRule_proper _ _ r pos (fuelFor_le_enoughFuel r pos) (fuelFor_le_enoughFuel r pos)).2

/-- The plain reading is the recursive one: a rule reads as its production does. -/
theorem reading_eq (r : Rule) (pos : Nat) :
    reading tokens r pos = readProduction tokens (reading tokens) (production r) pos := by
  exact (readRule_proper (enoughFuel tokens) (enoughFuel tokens + 1) r pos
    (fuelFor_le_enoughFuel r pos) (Nat.le_succ_of_le (fuelFor_le_enoughFuel r pos))).1

/-- The second way to read agrees with the first wherever the first has an answer. -/
def Extends (rule rule' : Rule → Nat → Attempt) : Prop :=
  ∀ r q, (rule r q).outcome ≠ .exhausted → rule r q = rule' r q

theorem readMany_extend {step step' : Nat → Attempt}
    (hstep : ∀ q, (step q).outcome ≠ .exhausted → step q = step' q) (fuel : Nat) :
    ∀ pos, (readMany step fuel pos).outcome ≠ .exhausted →
      readMany step fuel pos = readMany step' fuel pos := by
  induction fuel with
  | zero => intro pos h; exact absurd rfl h
  | succ fuel ih =>
    intro pos h
    cases ho : (step pos).outcome with
    | exhausted => simp only [readMany, ho] at h; exact absurd rfl h
    | failed => simp only [readMany, ← hstep pos (by simp [ho]), ho]
    | matched trees next =>
      simp only [readMany, ← hstep pos (by simp [ho]), ho] at h ⊢
      split
      · rfl
      · rename_i hne
        simp only [hne, if_false] at h
        rw [ih next]
        intro hx
        exact h (by rw [Attempt.outcome_reaching, Attempt.map_exhausted hx, hx])

theorem readSuffixes_extend {step step' : Nat → Attempt}
    (hstep : ∀ q, (step q).outcome ≠ .exhausted → step q = step' q) (fuel : Nat) :
    ∀ target pos, (readSuffixes step fuel target pos).outcome ≠ .exhausted →
      readSuffixes step fuel target pos = readSuffixes step' fuel target pos := by
  induction fuel with
  | zero => intro target pos h; exact absurd rfl h
  | succ fuel ih =>
    intro target pos h
    cases ho : (step pos).outcome with
    | exhausted => simp only [readSuffixes, ho] at h; exact absurd rfl h
    | failed => simp only [readSuffixes, ← hstep pos (by simp [ho]), ho]
    | matched parts next =>
      simp only [readSuffixes, ← hstep pos (by simp [ho]), ho] at h ⊢
      rw [ih _ next h]

mutual

theorem readProduction_extend {rule rule' : Rule → Nat → Attempt} (hrule : Extends rule rule') :
    ∀ (p : Production) (pos : Nat), (readProduction tokens rule p pos).outcome ≠ .exhausted →
      readProduction tokens rule p pos = readProduction tokens rule' p pos
  | .token kind text, pos, _ => by simp only [readProduction]
  | .rule r, pos, h => by
    simp only [readProduction] at h ⊢
    exact hrule r pos h
  | .node kind alternatives, pos, h => by
    simp only [readProduction] at h ⊢
    rw [readChoice_extend hrule alternatives pos]
    intro hx
    exact h (by rw [Attempt.map_exhausted hx, hx])
  | .choice alternatives, pos, h => by
    simp only [readProduction] at h ⊢
    exact readChoice_extend hrule alternatives pos h
  | .many parts, pos, h => by
    simp only [readProduction] at h ⊢
    exact readMany_extend (fun q hq => readParts_extend hrule parts q hq) _ pos h
  | .optional p, pos, h => by
    simp only [readProduction] at h ⊢
    rw [readProduction_extend hrule p pos]
    intro hx
    exact h (by rw [Attempt.orElse_exhausted hx, hx])
  | .chain head suffix, pos, h => by
    simp only [readProduction] at h ⊢
    have hh : (readProduction tokens rule head pos).outcome ≠ .exhausted := by
      intro hx
      exact h (by rw [Attempt.andThen_exhausted hx, hx])
    rw [← readProduction_extend hrule head pos hh]
    cases ho : (readProduction tokens rule head pos).outcome with
    | exhausted => exact absurd ho hh
    | failed => rw [Attempt.andThen_failed ho, Attempt.andThen_failed ho]
    | matched trees next =>
      rw [Attempt.andThen_matched ho] at h ⊢
      rw [Attempt.andThen_matched ho]
      cases trees with
      | nil => rfl
      | cons target others =>
        simp only
        rw [readSuffixes_extend (fun q hq => readProduction_extend hrule suffix q hq) _ target
          next h]

theorem readParts_extend {rule rule' : Rule → Nat → Attempt} (hrule : Extends rule rule') :
    ∀ (parts : List Production) (pos : Nat), (readParts tokens rule parts pos).outcome ≠ .exhausted →
      readParts tokens rule parts pos = readParts tokens rule' parts pos
  | [], pos, _ => by simp only [readParts]
  | p :: parts, pos, h => by
    simp only [readParts] at h ⊢
    have hp : (readProduction tokens rule p pos).outcome ≠ .exhausted := by
      intro hx
      exact h (by rw [Attempt.andThen_exhausted hx, hx])
    rw [← readProduction_extend hrule p pos hp]
    cases ho : (readProduction tokens rule p pos).outcome with
    | exhausted => exact absurd ho hp
    | failed => rw [Attempt.andThen_failed ho, Attempt.andThen_failed ho]
    | matched trees next =>
      rw [Attempt.andThen_matched ho] at h ⊢
      rw [Attempt.andThen_matched ho, readParts_extend hrule parts next]
      intro hx
      exact h (by rw [Attempt.outcome_reaching, Attempt.map_exhausted hx, hx])

theorem readChoice_extend {rule rule' : Rule → Nat → Attempt} (hrule : Extends rule rule') :
    ∀ (alternatives : List (List Production)) (pos : Nat),
      (readChoice tokens rule alternatives pos).outcome ≠ .exhausted →
      readChoice tokens rule alternatives pos = readChoice tokens rule' alternatives pos
  | [], pos, _ => by simp only [readChoice]
  | parts :: alternatives, pos, h => by
    simp only [readChoice] at h ⊢
    have hp : (readParts tokens rule parts pos).outcome ≠ .exhausted := by
      intro hx
      exact h (by rw [Attempt.orElse_exhausted hx, hx])
    rw [← readParts_extend hrule parts pos hp]
    cases ho : (readParts tokens rule parts pos).outcome with
    | exhausted => exact absurd ho hp
    | failed =>
      rw [Attempt.orElse_failed ho] at h ⊢
      rw [Attempt.orElse_failed ho, readChoice_extend hrule alternatives pos h]
    | matched trees next => rw [Attempt.orElse_matched ho, Attempt.orElse_matched ho]

end

/-- Whatever the fuel, a reading that has an answer is the plain one. -/
theorem readRule_extends (fuel : Nat) : Extends (readRule tokens fuel) (reading tokens) := by
  induction fuel with
  | zero => intro r q h; exact absurd rfl h
  | succ fuel ih =>
    intro r q h
    rw [reading_eq]
    exact readProduction_extend ih (production r) q h

end ScriptKit.Grammar
