import ScriptKit.Proofs.Grammar.Lexemes

namespace ScriptKit.Grammar

open Arena (root)

variable {tokens : Array Token}

/-- The tokens that matter to the grammar. -/
def significant (tokens : Array Token) : Array Token :=
  tokens.filter fun t => !t.isBlank

/-- The place of a position among the significant tokens. -/
def place (tokens : Array Token) (pos : Nat) : Nat :=
  (lexemesBelow tokens pos).length

section Places

variable {pos next : Nat}

theorem place_zero : place tokens 0 = 0 := by
  rw [place, lexemesBelow_zero]
  rfl

theorem place_skip : place tokens (skip tokens pos) = place tokens pos := by
  rw [place, lexemesBelow_skip, place]

theorem place_mono (h : pos ≤ next) : place tokens pos ≤ place tokens next :=
  List.IsPrefix.length_le <| lexemesBelow_prefix h

theorem place_max (pos next : Nat) :
    place tokens (max pos next) = max (place tokens pos) (place tokens next) := by
  rcases Nat.le_total pos next with h | h
  · rw [Nat.max_eq_right h, Nat.max_eq_right (place_mono h)]
  · rw [Nat.max_eq_left h, Nat.max_eq_left (place_mono h)]

theorem place_after {t : Token} (h : tokenAt? tokens pos = some t) :
    place tokens (skip tokens pos + 1) = place tokens pos + 1 := by
  rw [place, lexemesBelow_succ (show tokens[skip tokens pos]? = some t from h),
    not_isBlank_of_tokenAt? h, lexemesBelow_skip]
  simp [place]

theorem toList_significant :
    (significant tokens).toList = tokens.toList.filter fun t => !t.isBlank := by
  rw [significant, Array.toList_filter]

/-- The significant tokens from a position on are those from its place on. -/
theorem drop_place (tokens : Array Token) (pos : Nat) :
    (significant tokens).toList.drop (place tokens pos) =
      (tokens.toList.drop pos).filter fun t => !t.isBlank := by
  have hsplit : (significant tokens).toList =
      ((tokens.toList.take pos).filter fun t => !t.isBlank) ++
        (tokens.toList.drop pos).filter fun t => !t.isBlank := by
    rw [← List.filter_append, List.take_append_drop, toList_significant]
  have hlength : place tokens pos = ((tokens.toList.take pos).filter fun t => !t.isBlank).length := by
    rw [place, lexemesBelow, List.length_map]
  rw [hsplit, hlength, List.drop_left]

theorem place_le_size (pos : Nat) : place tokens pos ≤ (significant tokens).size := by
  rw [place, lexemesBelow, List.length_map, ← Array.length_toList, toList_significant]
  exact ((List.take_prefix pos tokens.toList).filter _).length_le

/-- No token is skipped where all are significant. -/
theorem skip_significant (q : Nat) : skip (significant tokens) q = q := by
  rw [skip]
  split
  · rename_i h
    have hmem : ∀ t ∈ significant tokens, ¬ t.isBlank = true := by
      intro t ht
      simpa using (Array.mem_filter.mp ht).2
    rw [if_neg (hmem _ (Array.getElem_mem h))]
  · rfl

theorem tokenAt?_eq_find? :
    tokenAt? tokens pos = (tokens.toList.drop pos).find? fun t => !t.isBlank := by
  unfold tokenAt?
  fun_induction skip tokens pos with
  | case1 pos h hb ih =>
    rw [ih, List.drop_eq_getElem_cons (show pos < tokens.toList.length from h), List.find?_cons]
    simp [hb]
  | case2 pos h hb =>
    rw [Array.getElem?_eq_getElem h,
      List.drop_eq_getElem_cons (show pos < tokens.toList.length from h), List.find?_cons]
    simp [hb]
  | case3 pos h =>
    rw [Array.getElem?_eq_none (Nat.le_of_not_lt h), List.drop_of_length_le (by simpa using h)]
    rfl

theorem tokenAt?_place : tokenAt? (significant tokens) (place tokens pos) = tokenAt? tokens pos := by
  rw [tokenAt?_eq_find?, drop_place, List.find?_filter, tokenAt?_eq_find?]
  simp

/-- A significant token follows a position exactly if one is left at its place. -/
theorem tokenAt?_ne_none_iff :
    tokenAt? tokens pos ≠ none ↔ place tokens pos < (significant tokens).size := by
  rw [← tokenAt?_place, tokenAt?, skip_significant, ne_eq, Array.getElem?_eq_none_iff, Nat.not_le]

theorem lineAt_place (h : place tokens pos < (significant tokens).size) :
    lineAt (significant tokens) (place tokens pos) = lineAt tokens pos := by
  obtain ⟨t, ht⟩ := Option.ne_none_iff_exists'.mp (tokenAt?_ne_none_iff.mpr h)
  rw [lineAt, lineAt, tokenAt?_place, ht]

theorem skip_lt_size_iff :
    skip tokens pos < tokens.size ↔ place tokens pos < (significant tokens).size := by
  rw [← tokenAt?_ne_none_iff, tokenAt?, ne_eq, Array.getElem?_eq_none_iff, Nat.not_le]

end Places

/-- The attempt `a'` among the significant tokens mirrors the attempt `a` at a position: it ends
alike, at the same place, after a look at the same token. The trees are the same if `exact` says so
or if more significant tokens follow: only a node that begins behind all of them has the line of
a blank one. With `takes`, a match takes a significant token. -/
inductive Mirrors (tokens : Array Token) (exact takes : Prop) (pos : Nat) : Attempt → Attempt → Prop
  | exhausted {reach : Nat} {a' : Attempt} : Mirrors tokens exact takes pos ⟨.exhausted, reach⟩ a'
  | failed {reach : Nat} (seen : reach = 0 ∨ place tokens reach < (significant tokens).size) :
    Mirrors tokens exact takes pos ⟨.failed, reach⟩ ⟨.failed, place tokens reach⟩
  | matched {ts us : List Tree} {next reach : Nat}
    (seen : reach = 0 ∨ place tokens reach < (significant tokens).size)
    (forward : next = pos ∨ place tokens pos < place tokens next)
    (moves : takes → place tokens pos < place tokens next)
    (length : ts.length = us.length)
    (trees : exact ∨ place tokens next < (significant tokens).size → ts = us) :
    Mirrors tokens exact takes pos ⟨.matched ts next, reach⟩
      ⟨.matched us (place tokens next), place tokens reach⟩

namespace Mirrors

variable {exact takes exact' takes' : Prop} {pos : Nat} {a a' b b' : Attempt}

theorem moved {ts : List Tree} {next : Nat} (h : Mirrors tokens exact takes pos a a')
    (ha : a.outcome = .matched ts next) (ht : takes) : place tokens pos < place tokens next := by
  cases h with
  | exhausted => cases ha
  | failed _ => cases ha
  | matched _ _ moves _ _ =>
    cases ha
    exact moves ht

theorem weaken (h : Mirrors tokens exact takes pos a a') (he : exact' → exact)
    (ht : takes' → takes) : Mirrors tokens exact' takes' pos a a' := by
  cases h with
  | exhausted => exact .exhausted
  | failed seen => exact .failed seen
  | matched seen forward moves length trees =>
    exact .matched seen forward (fun h => moves (ht h)) length fun h => trees (h.imp_left he)

theorem seen_max {reach reach' : Nat}
    (h : reach = 0 ∨ place tokens reach < (significant tokens).size)
    (h' : reach' = 0 ∨ place tokens reach' < (significant tokens).size) :
    max reach reach' = 0 ∨ place tokens (max reach reach') < (significant tokens).size := by
  rcases Nat.le_total reach reach' with hle | hle
  · rwa [Nat.max_eq_right hle]
  · rwa [Nat.max_eq_left hle]

theorem reaching {reach : Nat} (h : Mirrors tokens exact takes pos a a')
    (hr : reach = 0 ∨ place tokens reach < (significant tokens).size) :
    Mirrors tokens exact takes pos (a.reaching reach) (a'.reaching (place tokens reach)) := by
  cases h with
  | exhausted => exact .exhausted
  | failed seen =>
    rw [Attempt.reaching, Attempt.reaching, ← place_max]
    exact .failed (seen_max hr seen)
  | matched seen forward moves length trees =>
    rw [Attempt.reaching, Attempt.reaching, ← place_max]
    exact .matched (seen_max hr seen) forward moves length trees

/-- What is mirrored behind a match is mirrored from where that begins. -/
theorem later {next : Nat} (h : Mirrors tokens exact False next a a')
    (forward : next = pos ∨ place tokens pos < place tokens next)
    (moves : takes → place tokens pos < place tokens next) :
    Mirrors tokens exact takes pos a a' := by
  cases h with
  | exhausted => exact .exhausted
  | failed seen => exact .failed seen
  | @matched ts us n reach seen forward' _ length trees =>
    have hle : place tokens next ≤ place tokens n := by
      rcases forward' with rfl | hlt
      · exact Nat.le_refl _
      · exact Nat.le_of_lt hlt
    refine .matched seen ?_ (fun ht => Nat.lt_of_lt_of_le (moves ht) hle) length trees
    rcases forward with rfl | hlt
    · exact forward'
    · exact Or.inr (Nat.lt_of_lt_of_le hlt hle)

/-- What is read after a match is mirrored behind it. -/
theorem append (f g : Nat → Attempt) (h : Mirrors tokens exact takes pos a a')
    (hf : ∀ ts n, a.outcome = .matched ts n →
      Mirrors tokens exact' takes' n (f n) (g (place tokens n))) :
    Mirrors tokens (exact' ∧ (takes' ∨ exact)) (takes ∨ takes') pos
      (a.andThen fun ts n => (f n).map (ts ++ ·)) (a'.andThen fun ts n => (g n).map (ts ++ ·)) := by
  cases h with
  | exhausted => exact .exhausted
  | failed seen => exact .failed seen
  | @matched ts us m reach seen forward moves length trees =>
    have hm := hf ts m rfl
    change Mirrors tokens _ _ pos (((f m).map (ts ++ ·)).reaching reach)
      (((g (place tokens m)).map (us ++ ·)).reaching (place tokens reach))
    refine Mirrors.reaching ?_ seen
    generalize f m = b, g (place tokens m) = b' at hm ⊢
    cases hm with
    | exhausted => exact .exhausted
    | @failed reach' seen' =>
      exact .failed seen'
    | @matched vs ws next reach' seen' forward' moves' length' trees' =>
      have hle : place tokens m ≤ place tokens next := by
        rcases forward' with rfl | hlt
        · exact Nat.le_refl _
        · exact Nat.le_of_lt hlt
      have hsize : place tokens next ≤ (significant tokens).size := place_le_size next
      simp only [Attempt.map, Attempt.andThen, Attempt.reaching, Nat.max_zero]
      refine .matched seen' ?_ ?_ (by simp [length, length']) ?_
      · rcases forward with rfl | hlt
        · exact forward'
        · exact Or.inr (Nat.lt_of_lt_of_le hlt hle)
      · rintro (ht | ht)
        · exact Nat.lt_of_lt_of_le (moves ht) hle
        · have := moves' ht
          rcases forward with rfl | hlt <;> omega
      -- the trees of the first part agree if they do so anyway, or if a token follows them
      · rintro (⟨he', ht | he⟩ | hlt)
        · rw [trees (Or.inr (Nat.lt_of_lt_of_le (moves' ht) hsize)), trees' (Or.inl he')]
        · rw [trees (Or.inl he), trees' (Or.inl he')]
        · rw [trees (Or.inr (Nat.lt_of_le_of_lt hle hlt)), trees' (Or.inr hlt)]

theorem orElse {f g : Unit → Attempt} (h : Mirrors tokens exact takes pos a a')
    (hf : Mirrors tokens exact takes pos (f ()) (g ())) :
    Mirrors tokens exact takes pos (a.orElse f) (a'.orElse g) := by
  cases h with
  | exhausted => exact .exhausted
  | failed seen => exact hf.reaching seen
  | matched seen forward moves length trees => exact .matched seen forward moves length trees

/-- A node has the line of the token that it begins with, if there is one. -/
theorem node (kind : Tree.Kind) (h : Mirrors tokens exact takes pos a a') :
    Mirrors tokens (exact ∧ (takes ∨ place tokens pos < (significant tokens).size)) takes pos
      (a.map fun ts => [.branch kind (lineAt tokens pos) ts])
      (a'.map fun ts => [.branch kind (lineAt (significant tokens) (place tokens pos)) ts]) := by
  cases h with
  | exhausted => exact .exhausted
  | failed seen => exact .failed seen
  | @matched ts us next reach seen forward moves length trees =>
    have hsize : place tokens next ≤ (significant tokens).size := place_le_size next
    simp only [Attempt.map, Attempt.andThen, Attempt.reaching, Nat.max_zero]
    refine .matched seen forward moves rfl ?_
    rintro (⟨he, ht | hlt⟩ | hlt)
    · rw [lineAt_place (Nat.lt_of_lt_of_le (moves ht) hsize), trees (Or.inl he)]
    · rw [lineAt_place hlt, trees (Or.inl he)]
    · have hpos : place tokens pos < (significant tokens).size := by
        rcases forward with rfl | hlt'
        · exact hlt
        · omega
      rw [lineAt_place hpos, trees (Or.inr hlt)]

theorem token (kind : Token.Kind) (text : Option String) (pos : Nat) :
    Mirrors tokens True True pos (readToken tokens kind text pos)
      (readToken (significant tokens) kind text (place tokens pos)) := by
  rw [readToken, readToken, tokenAt?_place, skip_significant]
  cases ht : tokenAt? tokens pos with
  | none =>
    have h : Mirrors tokens True True pos ⟨.failed, 0⟩ ⟨.failed, place tokens 0⟩ :=
      .failed (Or.inl rfl)
    rwa [place_zero] at h
  -- the same token is next in both, and the places before and behind it agree
  | some t =>
    have hlt : place tokens pos < (significant tokens).size :=
      tokenAt?_ne_none_iff.mp (by simp [ht])
    have hafter := place_after ht
    have hskip : place tokens (skip tokens pos) = place tokens pos := place_skip
    dsimp only
    split
    · have h : Mirrors tokens True True pos
          ⟨.matched [terminal t] (skip tokens pos + 1), skip tokens pos⟩
          ⟨.matched [terminal t] (place tokens (skip tokens pos + 1)),
            place tokens (skip tokens pos)⟩ :=
        .matched (Or.inr (by omega)) (Or.inr (by omega)) (fun _ => by omega) rfl fun _ => rfl
      rwa [hafter, hskip] at h
    · have h : Mirrors tokens True True pos ⟨.failed, skip tokens pos⟩
          ⟨.failed, place tokens (skip tokens pos)⟩ := .failed (Or.inr (by omega))
      rwa [hskip] at h

/-- Nothing is taken. -/
theorem nothing {reach : Nat} (seen : reach = 0 ∨ place tokens reach < (significant tokens).size) :
    Mirrors tokens exact False pos ⟨.matched [] pos, reach⟩
      ⟨.matched [] (place tokens pos), place tokens reach⟩ :=
  .matched seen (Or.inl rfl) False.elim rfl fun _ => rfl

theorem nothing_zero : Mirrors tokens exact False pos ⟨.matched [] pos, 0⟩
    ⟨.matched [] (place tokens pos), 0⟩ := by
  have h : Mirrors tokens exact False pos ⟨.matched [] pos, 0⟩
      ⟨.matched [] (place tokens pos), place tokens 0⟩ := nothing (Or.inl rfl)
  rwa [place_zero] at h

/-- A loop is mirrored by one with rounds enough. -/
theorem many {step step' : Nat → Attempt}
    (hstep : ∀ q, Mirrors tokens exact takes q (step q) (step' (place tokens q))) (rounds : Nat) :
    ∀ (pos rounds' : Nat), (significant tokens).size - place tokens pos < rounds' →
      Mirrors tokens exact False pos (readMany step rounds pos)
        (readMany step' rounds' (place tokens pos)) := by
  induction rounds with
  | zero => intro pos rounds' _; exact .exhausted
  | succ rounds ih =>
    -- the induction is on the rounds with blanks; without them any number that suffices will do
    intro pos rounds' hrounds
    obtain ⟨rounds', rfl⟩ : ∃ n, rounds' = n + 1 := ⟨rounds' - 1, by omega⟩
    have hs := hstep pos
    rw [readMany, readMany]
    generalize step pos = a, step' (place tokens pos) = a' at hs ⊢
    cases hs with
    | exhausted => exact .exhausted
    | failed seen => exact nothing seen
    | @matched ts us next reach seen forward moves length trees =>
      have hmatched : Mirrors tokens exact takes pos ⟨.matched ts next, reach⟩
          ⟨.matched us (place tokens next), place tokens reach⟩ :=
        .matched seen forward moves length trees
      have hsize : place tokens next ≤ (significant tokens).size := place_le_size next
      dsimp only
      by_cases heq : next = pos
      · rw [if_pos heq, if_pos (congrArg _ heq)]
        exact hmatched.weaken id False.elim
      -- the round has passed a token, so fewer of those without blanks are left
      · have hlt := forward.resolve_left heq
        rw [if_neg heq, if_neg (by omega)]
        have hrest := hmatched.append (readMany step rounds) (readMany step' rounds')
          fun ts' n hn => by
            cases hn
            exact ih next rounds' (by omega)
        exact hrest.weaken (fun h => ⟨h, Or.inr h⟩) False.elim

/-- Suffixes are mirrored if what they are suffixes of is. -/
theorem suffixes {step step' : Nat → Attempt}
    (hstep : ∀ q, Mirrors tokens exact True q (step q) (step' (place tokens q))) (rounds : Nat) :
    ∀ (pos rounds' : Nat) (t u : Tree), (significant tokens).size - place tokens pos < rounds' →
      ((exact ∧ exact') ∨ place tokens pos < (significant tokens).size → t = u) →
      Mirrors tokens (exact ∧ exact') False pos (readSuffixes step rounds t pos)
        (readSuffixes step' rounds' u (place tokens pos)) := by
  induction rounds with
  | zero => intro pos rounds' t u _ _; exact .exhausted
  | succ rounds ih =>
    intro pos rounds' t u hrounds htarget
    obtain ⟨rounds', rfl⟩ : ∃ n, rounds' = n + 1 := ⟨rounds' - 1, by omega⟩
    have hs := hstep pos
    rw [readSuffixes, readSuffixes]
    generalize step pos = a, step' (place tokens pos) = a' at hs ⊢
    cases hs with
    | exhausted => exact .exhausted
    | failed seen =>
      exact .matched seen (Or.inl rfl) False.elim rfl fun h => by rw [htarget h]
    | @matched ts us next reach seen forward moves length trees =>
      have hlt := moves trivial
      have hsize : place tokens next ≤ (significant tokens).size := place_le_size next
      -- a suffix takes a token, so that the trees before it are the same
      obtain rfl := htarget (Or.inr (by omega))
      refine Mirrors.reaching ?_ seen
      have hrest := ih next rounds' (.branch .expression t.line (t :: ts))
        (.branch .expression t.line (t :: us)) (by omega)
        fun h => by rw [trees (h.imp_left And.left)]
      exact hrest.later (Or.inr hlt) False.elim

end Mirrors

mutual

/-- Whether no node begins behind the last token that a production takes. -/
def Production.closes : Production → Bool
  | .token _ _ => true
  | .rule r => r.takes
  | .node _ alternatives => choiceTakes alternatives && choiceCloses alternatives
  | .choice alternatives => choiceCloses alternatives
  | .many parts => partsClose parts
  | .optional p => p.closes
  | .chain head suffix => suffix.closes && head.closes

def partsClose : List Production → Bool
  | [] => true
  | p :: parts => partsClose parts && (partsTake parts || p.closes)

def choiceCloses : List (List Production) → Bool
  | [] => true
  | parts :: alternatives => partsClose parts && choiceCloses alternatives

end

theorem production_closes (r : Rule) (h : r.takes = true) : (production r).closes = true := by
  cases r <;> first | decide | simp [Rule.takes] at h

section Production

variable {rule rule' : Rule → Nat → Attempt}

mutual

/-- What a production reads is mirrored if what the rules read is. -/
theorem readProduction_mirrors
    (hrule : ∀ r q, Mirrors tokens (r.takes = true) (r.takes = true) q (rule r q)
      (rule' r (place tokens q))) :
    ∀ (p : Production) (k pos : Nat), p.descends k = true →
      Mirrors tokens (p.closes = true) (p.takes = true) pos (readProduction tokens rule p pos)
        (readProduction (significant tokens) rule' p (place tokens pos))
  | .token kind text, k, pos, _ => by
    simp only [readProduction]
    exact (Mirrors.token kind text pos).weaken (fun _ => trivial) fun _ => trivial
  | .rule r, k, pos, _ => by
    simp only [readProduction, Production.closes, Production.takes]
    exact hrule r pos
  | .node kind alternatives, k, pos, hd => by
    have h := readChoice_mirrors hrule alternatives k pos
      (by simpa only [Production.descends] using hd)
    simp only [readProduction, Production.closes, Production.takes, Bool.and_eq_true]
    exact (h.node kind).weaken (fun ⟨ht, hc⟩ => ⟨hc, Or.inl ht⟩) id
  | .choice alternatives, k, pos, hd => by
    simp only [readProduction, Production.closes, Production.takes]
    exact readChoice_mirrors hrule alternatives k pos (by simpa only [Production.descends] using hd)
  | .many parts, k, pos, hd => by
    simp only [Production.descends, Bool.and_eq_true] at hd
    simp only [readProduction, Production.closes, Production.takes]
    exact (Mirrors.many (fun q => readParts_mirrors hrule parts k q hd.1) _ pos _
      (by omega)).weaken id (by simp)
  | .optional p, k, pos, hd => by
    have h := readProduction_mirrors hrule p k pos (by simpa only [Production.descends] using hd)
    simp only [readProduction, Production.closes, Production.takes]
    exact (h.weaken id (by simp)).orElse (Mirrors.nothing_zero.weaken id (by simp))
  | .chain head suffix, k, pos, hd => by
    simp only [Production.descends, Bool.and_eq_true] at hd
    obtain ⟨⟨⟨hdh, -⟩, hds⟩, hts⟩ := hd
    have hh := readProduction_mirrors hrule head k pos hdh
    simp only [readProduction, Production.closes, Production.takes, Bool.and_eq_true]
    generalize readProduction tokens rule head pos = a,
      readProduction (significant tokens) rule' head (place tokens pos) = a' at hh ⊢
    cases hh with
    | exhausted => exact .exhausted
    | failed seen => exact .failed seen
    | @matched ts us next reach seen forward moves length trees =>
      refine Mirrors.reaching ?_ seen
      -- without a first tree no suffix is read, with or without blanks
      match ts, us, length with
      | [], [], _ => exact .failed (Or.inl rfl)
      | t :: _, u :: _, _ =>
        have hs : ∀ q, Mirrors tokens (suffix.closes = true) True q
            (readProduction tokens rule suffix q)
            (readProduction (significant tokens) rule' suffix (place tokens q)) :=
          fun q => (readProduction_mirrors hrule suffix 10 q hds).weaken id fun _ => hts
        have htarget : (suffix.closes = true ∧ head.closes = true) ∨
            place tokens next < (significant tokens).size → t = u :=
          fun h => (List.cons.inj (trees (h.imp_left And.right))).1
        exact (Mirrors.suffixes hs _ next _ t u (by omega) htarget).later forward moves

theorem readParts_mirrors
    (hrule : ∀ r q, Mirrors tokens (r.takes = true) (r.takes = true) q (rule r q)
      (rule' r (place tokens q))) :
    ∀ (parts : List Production) (k pos : Nat), partsDescend k parts = true →
      Mirrors tokens (partsClose parts = true) (partsTake parts = true) pos
        (readParts tokens rule parts pos)
        (readParts (significant tokens) rule' parts (place tokens pos))
  | [], k, pos, _ => by
    simp only [readParts]
    exact Mirrors.nothing_zero.weaken id (by simp [partsTake])
  | p :: parts, k, pos, hd => by
    simp only [partsDescend, Bool.and_eq_true] at hd
    have hp := readProduction_mirrors hrule p k pos hd.1
    simp only [readParts]
    have hrest : ∀ q, Mirrors tokens (partsClose parts = true) (partsTake parts = true) q
        (readParts tokens rule parts q)
        (readParts (significant tokens) rule' parts (place tokens q)) := by
      intro q
      -- behind a part that takes a token the depth is counted anew
      cases ht : p.takes with
      | true => exact readParts_mirrors hrule parts 10 q (by simpa [ht] using hd.2)
      | false => exact readParts_mirrors hrule parts k q (by simpa [ht] using hd.2)
    refine (hp.append _ _ fun ts n _ => hrest n).weaken ?_ ?_
    · simp only [partsClose, Bool.and_eq_true, Bool.or_eq_true]
      exact id
    · simp only [partsTake, Bool.or_eq_true]
      exact id

theorem readChoice_mirrors
    (hrule : ∀ r q, Mirrors tokens (r.takes = true) (r.takes = true) q (rule r q)
      (rule' r (place tokens q))) :
    ∀ (alternatives : List (List Production)) (k pos : Nat), choiceDescends k alternatives = true →
      Mirrors tokens (choiceCloses alternatives = true) (choiceTakes alternatives = true) pos
        (readChoice tokens rule alternatives pos)
        (readChoice (significant tokens) rule' alternatives (place tokens pos))
  | [], k, pos, _ => by
    have h : Mirrors tokens (choiceCloses [] = true) (choiceTakes [] = true) pos ⟨.failed, 0⟩
        ⟨.failed, place tokens 0⟩ := .failed (Or.inl rfl)
    rwa [place_zero] at h
  | parts :: alternatives, k, pos, hd => by
    simp only [choiceDescends, Bool.and_eq_true] at hd
    have hp := readParts_mirrors hrule parts k pos hd.1
    have ha := readChoice_mirrors hrule alternatives k pos hd.2
    simp only [readChoice, choiceCloses, choiceTakes, Bool.and_eq_true]
    exact (hp.weaken And.left And.left).orElse (ha.weaken And.right And.right)

end

end Production

theorem readRule_mirrors (fuel : Nat) :
    ∀ (r : Rule) (pos : Nat), Mirrors tokens (r.takes = true) (r.takes = true) pos
      (readRule tokens fuel r pos) (reading (significant tokens) r (place tokens pos)) := by
  induction fuel with
  | zero => intro r pos; exact .exhausted
  | succ fuel ih =>
    intro r pos
    rw [readRule, reading_eq]
    exact (readProduction_mirrors ih (production r) r.rank pos (production_descends r)).weaken
      (production_closes r) (production_takes r)

theorem reading_mirrors (r : Rule) (pos : Nat) :
    Mirrors tokens (r.takes = true) (r.takes = true) pos (reading tokens r pos)
      (reading (significant tokens) r (place tokens pos)) :=
  readRule_mirrors _ r pos

/-- A block with a significant token in it has the same trees. -/
theorem block_mirrors (h : place tokens 0 < (significant tokens).size) :
    Mirrors tokens True False 0 (reading tokens .block 0) (reading (significant tokens) .block 0) := by
  have hparts : Mirrors tokens True False 0
      (readChoice tokens (reading tokens) [[.many [.rule .statement]]] 0)
      (readChoice (significant tokens) (reading (significant tokens)) [[.many [.rule .statement]]]
        (place tokens 0)) :=
    (readChoice_mirrors reading_mirrors [[.many [.rule .statement]]] 9 0 rfl).weaken (fun _ => rfl)
      False.elim
  have hblock := hparts.node .block
  rw [place_zero] at hblock h
  rw [reading_eq, reading_eq .block 0, production, readProduction, readProduction]
  refine hblock.weaken ?_ ?_
  · intro _
    exact ⟨trivial, Or.inr h⟩
  · exact id

/-- The unread text is the same, and reading got stuck at the same token. -/
theorem remainder_significant {pos furthest : Nat}
    (h : place tokens pos < (significant tokens).size)
    (seen : furthest = 0 ∨ place tokens furthest < (significant tokens).size) :
    remainder (significant tokens) (place tokens pos) (place tokens furthest) =
      remainder tokens (skip tokens pos) furthest := by
  have hmax : place tokens (max (skip tokens pos) furthest) < (significant tokens).size := by
    rw [place_max, place_skip]
    rcases seen with rfl | hlt
    · rw [place_zero]
      omega
    · omega
  have hline : lineAt (significant tokens) (max (place tokens pos) (place tokens furthest)) =
      lineAt tokens (max (skip tokens pos) furthest) := by
    rw [← lineAt_place hmax, place_max, place_skip]
  have hunread : ((significant tokens).toList.drop (place tokens pos)).filter (fun t => !t.isBlank) =
      (tokens.toList.drop (skip tokens pos)).filter fun t => !t.isBlank := by
    rw [← place_skip, drop_place, List.filter_filter]
    simp only [Bool.and_self]
  unfold remainder
  rw [hline, hunread]

theorem leftOver_significant {pos furthest : Nat}
    (seen : furthest = 0 ∨ place tokens furthest < (significant tokens).size) :
    leftOver (significant tokens) (place tokens pos) (place tokens furthest) =
      leftOver tokens pos furthest := by
  rw [leftOver, leftOver, skip_significant]
  by_cases h : place tokens pos < (significant tokens).size
  · rw [if_pos h, if_pos (skip_lt_size_iff.mpr h), remainder_significant h seen]
  · rw [if_neg h, if_neg (mt skip_lt_size_iff.mp h)]

/-- The plain program of the significant tokens is that of all. -/
theorem readProgram_significant (tokens : Array Token) :
    readProgram (significant tokens) = readProgram tokens := by
  have hblank : tokens.size ≤ skip tokens 0 ↔ (significant tokens).size ≤ 0 := by
    rw [← Nat.not_lt, skip_lt_size_iff, place_zero, Nat.not_lt]
  simp only [readProgram, hblank, skip_significant]
  split
  · rfl
  · rename_i hne
    have hm : Mirrors tokens True False 0 (reading tokens .block 0)
        (reading (significant tokens) .block 0) := block_mirrors (by rw [place_zero]; omega)
    obtain ⟨ts, next, ho⟩ := block_matches tokens 0
    generalize reading tokens .block 0 = a, reading (significant tokens) .block 0 = a' at hm ho ⊢
    cases hm with
    | exhausted => cases ho
    | failed _ => cases ho
    | matched seen _ _ _ trees =>
      dsimp only
      rw [trees (Or.inl trivial), leftOver_significant seen]

/-- White space and comments make no difference: a program without them is executed or not as
before, and has the same tree, lines included, and the same diagnostic. -/
theorem parseTokens_blanks (tokens : List Token) (file : String) :
    (parseTokens tokens file).executable =
      (parseTokens (tokens.filter fun t => !t.isBlank) file).executable ∧
    (parseTokens tokens file).arena.toTree root =
      (parseTokens (tokens.filter fun t => !t.isBlank) file).arena.toTree root ∧
    (parseTokens tokens file).diagnostic =
      (parseTokens (tokens.filter fun t => !t.isBlank) file).diagnostic := by
  have hsame : readProgram (tokens.filter fun t => !t.isBlank).toArray =
      readProgram tokens.toArray := by
    rw [← readProgram_significant tokens.toArray, significant, List.filter_toArray]
  obtain ⟨hexec, hdiag⟩ := parseTokens_plain tokens file
  obtain ⟨hexec', hdiag'⟩ := parseTokens_plain (tokens.filter fun t => !t.isBlank) file
  refine ⟨?_, ?_, ?_⟩
  · rw [hexec, hexec', hsame]
  · rw [(parseTokens_holds tokens file).2.toTree_eq, (parseTokens_holds _ file).2.toTree_eq, hsame]
  · rw [hdiag, hdiag', hsame]

end ScriptKit.Grammar
