import ScriptKit.Proofs.Grammar.Agreement

namespace ScriptKit.Grammar

open Arena (Linked root)

open Builder

variable {tokens : Array Token}

theorem readSuffixes_single {step : Nat → Attempt} (fuel : Nat) :
    ∀ {t : Tree} {pos next : Nat} {trees : List Tree},
      (readSuffixes step fuel t pos).outcome = .matched trees next → ∃ u, trees = [u] := by
  induction fuel with
  | zero => intro t pos next trees h; cases h
  | succ fuel ih =>
    intro t pos next trees h
    simp only [readSuffixes] at h
    cases ho : (step pos).outcome with
    | exhausted => simp [ho] at h
    | failed =>
      simp only [ho] at h
      cases h
      exact ⟨t, rfl⟩
    | matched parts m =>
      simp only [ho] at h
      exact ih h

/-- A rule that the table holds reads one tree. -/
theorem reading_single {r : Rule} (ht : r.isTabled = true) {pos next : Nat} {trees : List Tree}
    (h : (reading tokens r pos).outcome = .matched trees next) : ∃ t, trees = [t] := by
  rw [reading_eq] at h
  cases r <;> first | exact absurd ht (by decide) | rw [production] at h
  case suffixed =>
    obtain ⟨t, ts, m, -, h⟩ := chain_matched_iff.mp h
    exact readSuffixes_single _ h
  all_goals
    rw [readProduction] at h
    obtain ⟨ts, -, rfl⟩ := Attempt.outcome_map_eq_matched.mp h
    exact ⟨_, rfl⟩

theorem Rule.takes_of_isTabled {r : Rule} (h : r.isTabled = true) : r.takes = true := by
  cases r <;> first | rfl | exact absurd h (by decide)

/-- A node that the table holds is taken from wherever it is. -/
theorem inHand_hit {b : Builder} {target pos next node : Nat} {r : Rule}
    (hs : b.Sane tokens) (he : b.lookup? r pos = some (.matched next node)) :
    InHand tokens b b target pos next (reading tokens r pos).reach node := by
  obtain ⟨-, hreach, hlt, hsize, hroot⟩ := hs.matched he
  have hc : b.Claims node pos := ⟨r, next, he⟩
  refine ⟨.refl hs hreach, rfl, Nat.le_of_lt hlt, hsize, hroot, Or.inr ⟨pos, hc⟩, ?_⟩
  intro q hq
  rw [hs.one hq hc]
  exact ⟨rfl, hlt⟩

namespace Builder

variable {b d : Builder} {r : Rule} {pos : Nat} {e : Entry}

theorem claims_record {n q : Nat} (h : (d.record r pos e).Claims n q) :
    d.Claims n q ∨ (q = pos ∧ ∃ next, e = .matched next n) := by
  obtain ⟨r', m, he⟩ := h
  rw [lookup?_record] at he
  split at he
  · rename_i heq
    exact Or.inr ⟨heq.2, m, Option.some.inj he⟩
  · exact Or.inl ⟨r', m, he⟩

theorem Leaves.since_record {target reach : Nat} (h : Leaves tokens b d target pos reach)
    {r' : Rule} {q m n : Nat} (he : (d.record r pos e).lookup? r' q = some (.matched m n)) :
    b.lookup? r' q = some (.matched m n) ∨ pos ≤ q := by
  rw [lookup?_record] at he
  split at he
  · rename_i heq
    exact Or.inr (Nat.le_of_eq heq.2.symm)
  · exact h.since he

/-- What may be recorded for a rule at a position. -/
structure Records (tokens : Array Token) (d : Builder) (r : Rule) (pos : Nat) (e : Entry) : Prop where
  reach : (reading tokens r pos).reach ≤ d.furthest
  failed : e = .failed → (reading tokens r pos).outcome = .failed
  matched : ∀ {next n : Nat}, e = .matched next n →
    (∃ t, (reading tokens r pos).outcome = .matched [t] next) ∧ pos < next ∧ n < d.arena.size ∧
      n ≠ root ∧ ∀ q, d.Claims n q → q = pos

theorem Sane.record (h : d.Sane tokens) (hrec : Records tokens d r pos e) :
    (d.record r pos e).Sane tokens where
  linked := h.linked
  failed := by
    intro r' q he
    rw [lookup?_record] at he
    -- the entry asked for is the new one, or it is one that was there
    split at he
    · rename_i heq
      rw [heq.1, heq.2]
      exact ⟨hrec.failed (Option.some.inj he), hrec.reach⟩
    · exact h.failed he
  matched := by
    intro r' q m n he
    rw [lookup?_record] at he
    split at he
    · rename_i heq
      obtain ⟨ho, hlt, hsize, hroot, -⟩ := hrec.matched (Option.some.inj he)
      rw [heq.1, heq.2]
      exact ⟨ho, hrec.reach, hlt, hsize, hroot⟩
    · exact h.matched he
  -- a claim is the new one or an old one, and the new entry respects the old claims
  one := by
    intro n q q' hq hq'
    rcases claims_record hq with hc | ⟨hpos, next, he⟩ <;>
      rcases claims_record hq' with hc' | ⟨hpos', next', he'⟩
    · exact h.one hc hc'
    · rw [hpos', (hrec.matched he').2.2.2.2 q hc]
    · rw [hpos, (hrec.matched he).2.2.2.2 q' hc']
    · rw [hpos, hpos']

theorem Frame.record {Q : Nat → Prop} {target : Nat} (h : Frame b d Q target)
    (hnone : b.lookup? r pos = none)
    (hnew : ∀ {next n : Nat}, e = .matched next n → b.arena.size ≤ n ∨ b.Claims n pos) :
    Frame b (d.record r pos e) Q target where
  size_le := h.size_le
  info := h.info
  children := h.children
  table := by
    -- the key of the new entry had none, so that no entry is replaced
    intro r' q v he
    rw [lookup?_record, if_neg]
    · exact h.table he
    · rintro ⟨rfl, rfl⟩
      rw [hnone] at he
      cases he
  old := by
    -- a node that the new entry claims is new, or was claimed at this position already
    intro n q hc hn
    rcases claims_record hc with hc | ⟨rfl, next, he⟩
    · exact h.old hc hn
    · rcases hnew he with hge | hc
      · omega
      · exact hc
  free := by
    intro x hx hf
    have hx' := h.free x hx hf
    refine ⟨?_, hx'.alone⟩
    rintro ⟨q, hq⟩
    rcases claims_record hq with hc | ⟨rfl, next, he⟩
    · exact hx'.unclaimed ⟨q, hc⟩
    · rcases hnew he with hge | hc
      · omega
      · exact hf.unclaimed ⟨q, hc⟩

theorem Leaves.record {target reach : Nat} (h : Leaves tokens b d target pos reach)
    (hnone : b.lookup? r pos = none) (hrec : Records tokens d r pos e)
    (hnew : ∀ {next n : Nat}, e = .matched next n → b.arena.size ≤ n ∨ b.Claims n pos) :
    Leaves tokens b (d.record r pos e) target pos reach :=
  ⟨h.sane.record hrec, h.frame.record hnone hnew, h.furthest, h.since_record⟩

theorem Leaves.reach_le {target reach : Nat} (h : Leaves tokens b d target pos reach) :
    reach ≤ d.furthest := by
  rw [h.furthest]
  exact Nat.le_max_right _ _

/-- The node in hand is recorded as the one that the rule made. -/
theorem InHand.record {target next node : Nat} {t : Tree}
    (h : InHand tokens b d target pos next (reading tokens r pos).reach node)
    (hnone : b.lookup? r pos = none) (ho : (reading tokens r pos).outcome = .matched [t] next)
    (hlt : pos < next) :
    InHand tokens b (d.record r pos (.matched next node)) target pos next
      (reading tokens r pos).reach node := by
  have hrec : Records tokens d r pos (.matched next node) := by
    refine ⟨h.leaves.reach_le, by simp, ?_⟩
    intro next' n he
    cases he
    exact ⟨⟨t, ho⟩, hlt, h.lt, h.ne_root, fun q hq => (h.claims q hq).1⟩
  -- the entry is for the node in hand, which is new or was claimed at this position already
  have hleaves : Leaves tokens b (d.record r pos (.matched next node)) target pos
      (reading tokens r pos).reach := by
    refine h.leaves.record hnone hrec ?_
    intro next' n he
    cases he
    exact h.new_or_here
  refine ⟨hleaves, h.children, h.le, h.lt, h.ne_root, h.new, ?_⟩
  intro q hq
  rcases claims_record hq with hq | ⟨rfl, -⟩
  · exact h.claims q hq
  · exact ⟨rfl, hlt⟩

end Builder

/-- A rule that is built for the first time at a position. -/
theorem agrees_recorded {r : Rule} (ht : r.isTabled = true) {run : Build}
    {limited : Nat → Attempt} (h : Agrees tokens run limited (reading tokens r))
    {target pos : Nat} {b b' : Builder} {res : Result} (hr : b.Ready tokens target pos)
    (hnone : b.lookup? r pos = none) : buildRecorded tokens r run target pos b = (res, b') →
    match res with
    | .exhausted => (limited pos).outcome = .exhausted
    | .failed => Abandoned tokens b b' target pos (reading tokens r pos)
    | .matched next => Finished tokens b b' target pos next (reading tokens r pos) := by
  intro hrun
  unfold buildRecorded at hrun
  cases hrun₁ : run b.next pos (b.add .temporary "" (lineAt tokens pos)) with
  | mk res₁ d =>
    have h₁ := h (hr.sane.ready_next .temporary "" (lineAt tokens pos) pos) hrun₁
    rw [hrun₁] at hrun
    cases res₁ with
    | exhausted => cases hrun; exact h₁
    | failed =>
      cases hrun
      have hleaves := h₁.leaves.since_add hr.sane target
      have hrec : Records tokens d r pos .failed :=
        ⟨hleaves.reach_le, fun _ => h₁.outcome, by simp⟩
      exact ⟨h₁.outcome, hleaves.record hnone hrec (by simp), h₁.leaves.children_apart hr⟩
    | matched next =>
      -- a tabled rule reads one tree, so the node in hand is all that was built
      obtain ⟨trees, ho, hlen, -⟩ := h₁.since_add
      obtain ⟨t, rfl⟩ := reading_single ht ho
      obtain ⟨node, hc⟩ : ∃ node, d.arena.children b.next = [node] := List.length_eq_one_iff.mp hlen
      simp only [Arena.child?, hc, List.getElem?_cons_zero] at hrun
      cases hrun
      have hlt : pos < next := (reading_proper r pos).moves ho (Rule.takes_of_isTabled ht)
      have hin := h₁.inHand hr (by rw [hc]; rfl)
      exact (hin.record hnone ho hlt).finished hr ho

/-- With every amount of fuel, a rule is built as it is read. -/
theorem agrees_rule (fuel : Nat) (r : Rule) :
    Agrees tokens (buildRule tokens fuel r) (readRule tokens fuel r) (reading tokens r) := by
  -- the induction is on the fuel: a rule is built from its production with one unit less
  induction fuel generalizing r with
  | zero =>
    intro target pos b b' res _ hrun
    cases hrun
    rfl
  | succ fuel ih =>
    have hprod : Agrees tokens
        (buildProduction tokens (buildRule tokens fuel) (production r))
        (readRule tokens (fuel + 1) r) (reading tokens r) := by
      intro target pos b b' res hr hrun
      have := agrees_production ih (readRule_extends fuel) (production r) hr hrun
      rwa [← reading_eq] at this
    intro target pos b b' res hr hrun
    unfold buildRule at hrun
    split at hrun
    · rename_i ht
      split at hrun
      · rename_i he
        cases hrun
        obtain ⟨ho, hreach⟩ := hr.sane.failed he
        exact ⟨ho, .refl hr.sane hreach, rfl⟩
      · rename_i next node he
        cases hrun
        obtain ⟨⟨t, ho⟩, -⟩ := hr.sane.matched he
        exact (inHand_hit hr.sane he).finished hr ho
      · rename_i he
        exact agrees_recorded ht hprod hr he hrun
    · exact hprod hr hrun

end ScriptKit.Grammar
