import ScriptKit.Proofs.Token.Viable

namespace ScriptKit.Token

variable {minusIsOperator : Bool}

/-- A rule that takes part accepts a text in full. -/
def Rule.Accepts (r : Rule) (minusIsOperator : Bool) (s : List Char) : Prop :=
  r.applies minusIsOperator s = true ∧ r.full s = true

/-- Some rule of the table accepts a text. -/
def Accepted (minusIsOperator : Bool) (s : List Char) : Prop :=
  ∃ r ∈ rules, r.Accepts minusIsOperator s

theorem accepted_iff {s : List Char} :
    Accepted minusIsOperator s ↔ (fullKind minusIsOperator s).isSome = true := by
  simp [Accepted, Rule.Accepts, fullKind]

/-- The kind of a text is that of the earliest rule that accepts it. -/
theorem fullKind_eq_some_iff {s : List Char} {k : Kind} : fullKind minusIsOperator s = some k ↔
    ∃ earlier r later, rules = earlier ++ r :: later ∧ r.Accepts minusIsOperator s ∧ r.kind = k ∧
      ∀ r' ∈ earlier, ¬ r'.Accepts minusIsOperator s := by
  constructor
  · intro h
    obtain ⟨r, hr, rfl⟩ := Option.map_eq_some_iff.mp h
    obtain ⟨hacc, earlier, later, hsplit, hno⟩ := List.find?_eq_some_iff_append.mp hr
    refine ⟨earlier, r, later, hsplit, by simpa [Rule.Accepts] using hacc, rfl, ?_⟩
    intro r' hr' hacc'
    have := hno r' hr'
    simp [hacc'.1, hacc'.2] at this
  · rintro ⟨earlier, r, later, hsplit, hacc, rfl, hno⟩
    refine Option.map_eq_some_iff.mpr ⟨r, List.find?_eq_some_iff_append.mpr ?_, rfl⟩
    refine ⟨by simpa [Rule.Accepts] using hacc, earlier, later, hsplit, ?_⟩
    intro r' hr'
    simpa [Rule.Accepts, imp_iff_not_or] using hno r' hr'

/-- The candidate that was seen and the longest accepted text that goes on from it. -/
structure Grown (minusIsOperator : Bool) (seen s p : List Char) (k : Kind) : Prop where
  nonempty : p ≠ []
  isPrefix : p <+: s
  kind : fullKind minusIsOperator (seen ++ p) = some k
  longest : ∀ q, q <+: s → fullKind minusIsOperator (seen ++ q) ≠ none → q.length ≤ p.length

theorem prefix_cons_iff {c : Char} {p s : List Char} :
    p <+: c :: s ↔ p = [] ∨ ∃ q, p = c :: q ∧ q <+: s := by
  cases p with
  | nil => simp
  | cons d q =>
    simp only [List.cons_prefix_cons, List.cons.injEq, reduceCtorEq, false_or]
    constructor
    · rintro ⟨rfl, h⟩
      exact ⟨q, ⟨rfl, rfl⟩, h⟩
    · rintro ⟨q', ⟨rfl, rfl⟩, h⟩
      exact ⟨rfl, h⟩

/-- No text that goes on from the candidate is accepted. -/
def Barren (minusIsOperator : Bool) (seen s : List Char) : Prop :=
  ∀ p, p ≠ [] → p <+: s → fullKind minusIsOperator (seen ++ p) = none

section Growth

variable {seen s p : List Char} {c : Char} {k : Kind}

theorem barren_nil : Barren minusIsOperator seen [] := by
  intro p hne hp
  exact absurd (List.prefix_nil.mp hp) hne

/-- What goes on by a character is the candidate with that character, or goes on from there. -/
theorem barren_cons_iff : Barren minusIsOperator seen (c :: s) ↔
    fullKind minusIsOperator (seen ++ [c]) = none ∧ Barren minusIsOperator (seen ++ [c]) s := by
  constructor
  · intro h
    refine ⟨h [c] (by simp) ⟨s, rfl⟩, fun p _ hp => ?_⟩
    rw [List.append_assoc]
    exact h (c :: p) (by simp) (List.cons_prefix_cons.mpr ⟨rfl, hp⟩)
  · rintro ⟨hc, h⟩ p hne hp
    rcases prefix_cons_iff.mp hp with rfl | ⟨q, rfl, hq⟩
    · exact absurd rfl hne
    · by_cases hqe : q = []
      · rw [hqe, hc]
      · have hrest := h q hqe hq
        rwa [List.append_assoc] at hrest

/-- Nothing that begins with a candidate that is not viable is accepted. -/
theorem barren_of_not_viable (h : isViable minusIsOperator (seen ++ [c]) ≠ true) :
    Barren minusIsOperator seen (c :: s) := by
  intro p hne hp
  rcases prefix_cons_iff.mp hp with rfl | ⟨q, rfl, -⟩
  · exact absurd rfl hne
  · cases hk : fullKind minusIsOperator (seen ++ c :: q) with
    | none => rfl
    | some k =>
      refine absurd (isViable_of_begins (by simp) ⟨q, ?_⟩ (isViable_of_fullKind hk)) h
      rw [List.append_assoc]
      rfl

theorem Grown.here (hc : fullKind minusIsOperator (seen ++ [c]) = some k)
    (h : Barren minusIsOperator (seen ++ [c]) s) : Grown minusIsOperator seen (c :: s) [c] k where
  nonempty := by simp
  isPrefix := ⟨s, rfl⟩
  kind := hc
  longest q hq hsome := by
    rcases prefix_cons_iff.mp hq with rfl | ⟨r, rfl, hr⟩
    · simp
    · by_cases hre : r = []
      · simp [hre]
      · have hrest := h r hre hr
        rw [List.append_assoc] at hrest
        exact absurd hrest hsome

theorem Grown.cons (h : Grown minusIsOperator (seen ++ [c]) s p k) :
    Grown minusIsOperator seen (c :: s) (c :: p) k where
  nonempty := by simp
  isPrefix := List.cons_prefix_cons.mpr ⟨rfl, h.isPrefix⟩
  kind := by
    have hkind := h.kind
    rwa [List.append_assoc] at hkind
  longest q hq hsome := by
    rcases prefix_cons_iff.mp hq with rfl | ⟨r, rfl, hr⟩
    · simp
    · have hle := h.longest r hr (by rwa [List.append_assoc])
      simpa using hle

end Growth

/-- The longest token found so far, after one more candidate. -/
def improve (best : Option (Kind × Nat)) (n : Nat) : Option Kind → Option (Kind × Nat)
  | some kind => some (kind, n)
  | none => best

theorem munch_cons (best : Option (Kind × Nat)) (seen : List Char) (c : Char) (s : List Char) :
    munch minusIsOperator best seen (c :: s) =
      if isViable minusIsOperator (seen ++ [c]) then
        munch minusIsOperator
          (improve best seen.length (fullKind minusIsOperator (seen ++ [c]))) (seen ++ [c]) s
      else ⟨improve best seen.length (fullKind minusIsOperator (seen ++ [c])), seen ++ [c]⟩ := by
  rw [munch]
  cases fullKind minusIsOperator (seen ++ [c]) <;> rfl

/-- Growing the candidate finds the longest accepted text that goes on from it, if there is one,
although it stops at the first candidate that is not viable. -/
theorem munch_best (s : List Char) : ∀ (best : Option (Kind × Nat)) (seen : List Char),
    (Barren minusIsOperator seen s ∧ (munch minusIsOperator best seen s).best = best) ∨
    ∃ p k, Grown minusIsOperator seen s p k ∧
      (munch minusIsOperator best seen s).best = some (k, (seen ++ p).length - 1) := by
  induction s with
  | nil => exact fun best seen => Or.inl ⟨barren_nil, rfl⟩
  | cons c s ih =>
    intro best seen
    rw [munch_cons]
    by_cases hv : isViable minusIsOperator (seen ++ [c]) = true
    · rw [if_pos hv]
      rcases ih (improve best seen.length (fullKind minusIsOperator (seen ++ [c]))) (seen ++ [c])
        with ⟨hbarren, hbest⟩ | ⟨p, k, hgrown, hbest⟩
      · -- the candidate itself is the last that may be accepted
        rw [hbest]
        cases hk : fullKind minusIsOperator (seen ++ [c]) with
        | none => exact Or.inl ⟨barren_cons_iff.mpr ⟨hk, hbarren⟩, rfl⟩
        | some k => exact Or.inr ⟨[c], k, .here hk hbarren, by simp [improve]⟩
      · refine Or.inr ⟨c :: p, k, hgrown.cons, ?_⟩
        rw [hbest, List.append_assoc]
        rfl
    · have hbarren : Barren minusIsOperator seen (c :: s) := barren_of_not_viable hv
      rw [if_neg hv, (barren_cons_iff.mp hbarren).1]
      exact Or.inl ⟨hbarren, rfl⟩

theorem munch_window (s : List Char) : ∀ (best : Option (Kind × Nat)) (seen : List Char),
    ∃ w, w <+: s ∧ (s ≠ [] → w ≠ []) ∧ (munch minusIsOperator best seen s).window = seen ++ w := by
  induction s with
  | nil =>
    intro best seen
    exact ⟨[], List.prefix_refl _, by simp, by simp [munch]⟩
  | cons c s ih =>
    intro best seen
    rw [munch_cons]
    split
    · obtain ⟨w, hw, -, he⟩ :=
        ih (improve best seen.length (fullKind minusIsOperator (seen ++ [c]))) (seen ++ [c])
      exact ⟨c :: w, List.cons_prefix_cons.mpr ⟨rfl, hw⟩, by simp, by rw [he, List.append_assoc]; rfl⟩
    · exact ⟨[c], ⟨s, rfl⟩, by simp, rfl⟩

/-- The longest text that a rule accepts at the beginning of another, with the kind that the
earliest such rule gives it. -/
def IsLongest (minusIsOperator : Bool) (s text : List Char) (k : Kind) : Prop :=
  text ≠ [] ∧ text <+: s ∧
    (∃ earlier r later, rules = earlier ++ r :: later ∧ r.Accepts minusIsOperator text ∧
      r.kind = k ∧ ∀ r' ∈ earlier, ¬ r'.Accepts minusIsOperator text) ∧
    ∀ p, p <+: s → Accepted minusIsOperator p → p.length ≤ text.length

/-- No rule accepts a non-empty beginning of a text. -/
def Unreadable (minusIsOperator : Bool) (s : List Char) : Prop :=
  ∀ p, p ≠ [] → p <+: s → ¬ Accepted minusIsOperator p

theorem unreadable_nil : Unreadable minusIsOperator [] := by
  intro p hne hp
  exact absurd (List.prefix_nil.mp hp) hne

theorem IsLongest.not_unreadable {s text : List Char} {k : Kind}
    (h : IsLongest minusIsOperator s text k) : ¬ Unreadable minusIsOperator s := by
  obtain ⟨hne, hp, ⟨earlier, r, later, hsplit, hacc, -, -⟩, -⟩ := h
  intro hno
  exact hno text hne hp ⟨r, by simp [hsplit], hacc⟩

theorem IsLongest.unique {s text text' : List Char} {k k' : Kind}
    (h : IsLongest minusIsOperator s text k) (h' : IsLongest minusIsOperator s text' k') :
    text = text' ∧ k = k' := by
  obtain ⟨-, hp, hk, hmax⟩ := h
  obtain ⟨-, hp', hk', hmax'⟩ := h'
  have hacc : ∀ {t k}, fullKind minusIsOperator t = some k → Accepted minusIsOperator t := by
    intro t k h
    rw [accepted_iff, h]
    rfl
  rw [← fullKind_eq_some_iff] at hk hk'
  have hlen : text.length = text'.length :=
    Nat.le_antisymm (hmax' text hp (hacc hk)) (hmax text' hp' (hacc hk'))
  have htext : text = text' := (List.prefix_of_prefix_length_le hp hp' hlen.le).eq_of_length hlen
  subst htext
  exact ⟨rfl, Option.some.inj (hk.symm.trans hk')⟩

/-- From an empty candidate on: the longest accepted text, or none at all. -/
theorem munch_spec (minusIsOperator : Bool) (s : List Char) :
    (Unreadable minusIsOperator s ∧ (munch minusIsOperator none [] s).best = none) ∨
    ∃ text k, IsLongest minusIsOperator s text k ∧
      (munch minusIsOperator none [] s).best = some (k, text.length - 1) := by
  have hbest : _ ∨ ∃ p k, Grown minusIsOperator [] s p k ∧ _ := munch_best s none []
  rcases hbest with ⟨hnone, hbest⟩ | ⟨p, k, hp, hbest⟩
  · left
    refine ⟨?_, hbest⟩
    intro p hne hp hacc
    have := hnone p hne hp
    rw [List.nil_append] at this
    rw [accepted_iff, this] at hacc
    cases hacc
  · right
    refine ⟨p, k, ⟨hp.nonempty, hp.isPrefix, fullKind_eq_some_iff.mp hp.kind, ?_⟩, hbest⟩
    intro q hq hacc
    refine hp.longest q hq ?_
    rw [accepted_iff] at hacc
    exact Option.isSome_iff_ne_none.mp hacc

/-- A line break is white space, so what no rule accepts does not begin with one. -/
theorem Unreadable.head_ne {c : Char} {s : List Char} (h : Unreadable minusIsOperator (c :: s)) :
    c ≠ '\n' := by
  rintro rfl
  refine h ['\n'] (by simp) ⟨s, rfl⟩ ⟨{ kind := .whitespace, full := isWhitespace }, ?_, ?_, ?_⟩
  · simp [rules]
  · exact applies_of_kind (by decide)
  · decide

end ScriptKit.Token
