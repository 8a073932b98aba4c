import ScriptKit.Proofs.Grammar.Blanks
import ScriptKit.Proofs.Grammar.Reads

namespace ScriptKit.Grammar

/-- Two texts that begin with the same tokens. -/
def Shares (X Y : Array Token) (r : Nat) : Prop :=
  ∀ i < r, X[i]? = Y[i]?

variable {X Y : Array Token} {r pos m : Nat} {ts : List Tree}

theorem Shares.symm (h : Shares X Y r) : Shares Y X r := fun i hi => (h i hi).symm

theorem Shares.skip (h : Shares X Y r) (hlt : skip X pos < r) : skip Y pos = skip X pos := by
  fun_induction Grammar.skip X pos with
  | case1 pos hpos hb ih =>
    have hle := le_skip X (pos + 1)
    have hget := h pos (by omega)
    rw [Array.getElem?_eq_getElem hpos] at hget
    obtain ⟨hpos', hsame⟩ := Array.getElem?_eq_some_iff.mp hget.symm
    rw [Grammar.skip, dif_pos hpos', if_pos (by rw [hsame]; exact hb)]
    exact ih hlt
  | case2 pos hpos hb =>
    have hget := h pos hlt
    rw [Array.getElem?_eq_getElem hpos] at hget
    obtain ⟨hpos', hsame⟩ := Array.getElem?_eq_some_iff.mp hget.symm
    rw [Grammar.skip, dif_pos hpos', if_neg (by rw [hsame]; exact hb)]
  | case3 pos hpos =>
    have hget := h pos hlt
    rw [Array.getElem?_eq_none (Nat.le_of_not_lt hpos)] at hget
    have hpos' := Array.getElem?_eq_none_iff.mp hget.symm
    rw [Grammar.skip, dif_neg (by omega)]

theorem Shares.tokenAt? (h : Shares X Y r) (hlt : Grammar.skip X pos < r) :
    tokenAt? Y pos = tokenAt? X pos := by
  rw [Grammar.tokenAt?, Grammar.tokenAt?, h.skip hlt, h _ hlt]

theorem Shares.after (h : Shares X Y r) (hlt : Grammar.skip X pos < r) :
    after Y pos = after X pos := by
  rw [Grammar.after, Grammar.after, h.skip hlt]

theorem Shares.lineAt {t : Token} (h : Shares X Y r) (hlt : Grammar.skip X pos < r)
    (ht : Grammar.tokenAt? X pos = some t) : lineAt Y pos = lineAt X pos := by
  rw [Grammar.lineAt, Grammar.lineAt, h.tokenAt? hlt, ht]

theorem shares_take (tokens : List Token) (r : Nat) :
    Shares tokens.toArray (tokens.take r).toArray r := by
  intro i hi
  simp [hi]

/-- Behind its last token a text has none. -/
theorem tokenAt?_take {tokens : List Token} (h : r ≤ skip tokens.toArray pos) :
    tokenAt? (tokens.take r).toArray pos = none := by
  by_contra hne
  obtain ⟨t, ht⟩ := Option.ne_none_iff_exists'.mp hne
  have hlt : skip (tokens.take r).toArray pos < r := by
    have hsize := skip_lt_of_tokenAt? ht
    rw [List.size_toArray, List.length_take] at hsize
    omega
  have := (shares_take tokens r).symm.skip hlt
  omega

theorem skip_mono (h : pos ≤ m) : skip X pos ≤ skip X m := by
  by_contra hlt
  rw [Nat.not_le] at hlt
  have hle := le_skip X m
  fun_induction skip X pos with
  | case1 pos hpos hb ih =>
    rcases Nat.eq_or_lt_of_le h with rfl | hnext
    · rw [skip.eq_def X pos, dif_pos hpos, if_pos hb] at hlt
      omega
    · exact ih hnext hlt
  | case2 pos hpos hb => omega
  | case3 pos hpos => omega

/-- What takes a token takes the next significant one. -/
theorem begins_of_place (h : place X pos < place X m) :
    skip X pos < m ∧ ∃ t, tokenAt? X pos = some t := by
  refine ⟨?_, Option.ne_none_iff_exists'.mp (tokenAt?_ne_none_iff.mpr ?_)⟩
  · by_contra hle
    have : place X m ≤ place X (skip X pos) := place_mono (Nat.le_of_not_lt hle)
    rw [place_skip] at this
    omega
  · have : place X m ≤ (significant X).size := place_le_size m
    omega

theorem begins_of_reading {R : Rule} (hR : R.takes = true)
    (h : (reading X R pos).outcome = .matched ts m) :
    skip X pos < m ∧ ∃ t, tokenAt? X pos = some t :=
  begins_of_place ((reading_mirrors R pos).moved h hR)

theorem begins_of_parts {parts : List Production} (hd : partsDescend 10 parts = true)
    (ht : partsTake parts = true)
    (h : (readParts X (reading X) parts pos).outcome = .matched ts m) :
    skip X pos < m ∧ ∃ t, tokenAt? X pos = some t :=
  begins_of_place ((readParts_mirrors reading_mirrors parts 10 pos hd).moved h ht)

def beginsSuffix (t : Option Token) : Bool :=
  nextIs .leftParen none t || nextIs .leftBracket none t || nextIs .dot none t

/-- Whether what a rule has read could go on with a token. -/
def Rule.goesOn (t : Option Token) : Rule → Bool
  | suffixed => beginsSuffix t
  | power => beginsSuffix t || nextIs .operator (some "**") t
  | multiplicative =>
    beginsSuffix t || ["**", "*", "/", "%"].any fun s => nextIs .operator (some s) t
  | additive => beginsSuffix t || nextIs .operator none t
  | comparison => beginsSuffix t || nextIs .operator none t || nextIs .comparator none t
  | expression =>
    beginsSuffix t || nextIs .operator none t || nextIs .comparator none t ||
      nextIs .assignment none t
  | ifStatement => nextIs .keyword (some "else") t
  | _ => false

/-- Where `Y` may end what a rule has read in `X`: at a token that cannot go on with it. After
a statement there is no token, a closing brace, or the next statement. -/
def Ends (X Y : Array Token) (r : Nat) : Rule → Nat → Prop
  | .block, m => At Y .rightCurly m ∧ skip Y m < r
  | .expressionList, m => (At Y .rightParen m ∨ At Y .rightBracket m) ∧ skip Y m < r
  | .argumentList, m => At Y .rightParen m ∧ skip Y m < r
  | .statement, m =>
    tokenAt? Y m = none ∨ At Y .rightCurly m ∨
      ∃ us k, (reading X .statement m).outcome = .matched us k ∧ k ≤ r
  | R, m => R.goesOn (tokenAt? Y m) = false

theorem ends_operand {R : Rule} (hR : R.isOperand = true) :
    Ends X Y r R m ↔ R.goesOn (tokenAt? Y m) = false := by
  cases R <;> first | exact Iff.rfl | cases hR

theorem goesOn_of_at {R : Rule} {k : Token.Kind} (h : At Y k m)
    (hk : ∀ t : Token, t.kind = k → R.goesOn (some t) = false) :
    R.goesOn (tokenAt? Y m) = false := by
  obtain ⟨t, ht, hkind, -⟩ := nextIs_iff.mp h
  rw [ht]
  exact hk t hkind

/-- What a rule reads in `X` from a position on, up to `r`, it reads in `Y` as well. -/
def Carries (X Y : Array Token) (r : Nat) (R : Rule) (pos : Nat) : Prop :=
  ∀ ⦃ts m⦄, (reading X R pos).outcome = .matched ts m → m ≤ r → Ends X Y r R m →
    (reading Y R pos).outcome = .matched ts m

/-- Two texts that share their tokens up to `r`, where the rules read alike behind a position. -/
structure Further (X Y : Array Token) (r pos : Nat) : Prop where
  shares : Shares X Y r
  forth : ∀ {q}, pos < q → ∀ R, Carries X Y r R q
  back : ∀ {q}, pos < q → ∀ R, Carries Y X r R q

/-- A rule that reads alike at the position does so from there on. -/
theorem Further.onward (hf : Further X Y r pos) {R : Rule} (h : Carries X Y r R pos) {q : Nat}
    (hq : pos ≤ q) : Carries X Y r R q := by
  rcases Nat.eq_or_lt_of_le hq with rfl | hlt
  · exact h
  · exact hf.forth hlt R

section Parts

variable {parts : List Production}

theorem token_carries (hs : Shares X Y r) {kind : Token.Kind} {text : Option String}
    (h : (readProduction X (reading X) (.token kind text) pos).outcome = .matched ts m)
    (hm : m ≤ r) :
    (readProduction Y (reading Y) (.token kind text) pos).outcome = .matched ts m := by
  obtain ⟨t, ht, hacc, rfl, rfl⟩ := token_matched_iff.mp h
  rw [token_matched_iff, hs.tokenAt? hm, hs.skip hm]
  exact ⟨t, ht, hacc, rfl, rfl⟩

/-- A token and what is after it. -/
theorem token_then (hs : Shares X Y r) {kind : Token.Kind} {text : Option String}
    (hd : partsDescend 10 parts = true)
    (h : (readParts X (reading X) (.token kind text :: parts) pos).outcome = .matched ts m)
    (hm : m ≤ r)
    (hrest : ∀ {vs q}, pos < q → (readParts X (reading X) parts q).outcome = .matched vs m →
      (readParts Y (reading Y) parts q).outcome = .matched vs m) :
    (readParts Y (reading Y) (.token kind text :: parts) pos).outcome = .matched ts m := by
  obtain ⟨us, j, vs, htoken, hparts, rfl⟩ := parts_cons_matched_iff.mp h
  have hle := (parts_proper hd j).forward hparts
  refine parts_cons_matched_iff.mpr ⟨us, j, vs, token_carries hs htoken (by omega), ?_, rfl⟩
  obtain ⟨t, -, -, -, rfl⟩ := token_matched_iff.mp htoken
  exact hrest (lt_after X pos) hparts

/-- The last part. -/
theorem then_nothing
    (h : (readParts X (reading X) [] pos).outcome = .matched ts m) :
    (readParts Y (reading Y) [] pos).outcome = .matched ts m := by
  rw [parts_nil_matched_iff] at h ⊢
  exact h

theorem rule_last {R : Rule} (hR : Carries X Y r R pos) (hm : m ≤ r) (hends : Ends X Y r R m)
    (h : (readParts X (reading X) [.rule R] pos).outcome = .matched ts m) :
    (readParts Y (reading Y) [.rule R] pos).outcome = .matched ts m := by
  rw [parts_one_iff, rule_matched_iff] at h ⊢
  exact hR h hm hends

/-- A rule and the token behind it. -/
theorem rule_then (hs : Shares X Y r) {R : Rule} {kind : Token.Kind} {text : Option String}
    (hR : Carries X Y r R pos)
    (hends : ∀ {j}, nextIs kind text (tokenAt? Y j) = true → skip Y j < r → Ends X Y r R j)
    (hd : partsDescend 10 parts = true)
    (h : (readParts X (reading X) (.rule R :: .token kind text :: parts) pos).outcome =
      .matched ts m)
    (hm : m ≤ r)
    (hrest : ∀ {vs q}, pos < q → (readParts X (reading X) parts q).outcome = .matched vs m →
      (readParts Y (reading Y) parts q).outcome = .matched vs m) :
    (readParts Y (reading Y) (.rule R :: .token kind text :: parts) pos).outcome =
      .matched ts m := by
  obtain ⟨us, j, vs, hrule, hclose, rfl⟩ := parts_cons_matched_iff.mp h
  rw [rule_matched_iff] at hrule
  have hj := (reading_proper R pos).forward hrule
  refine parts_cons_matched_iff.mpr ⟨us, j, vs, rule_matched_iff.mpr (hR hrule ?_ ?_), ?_, rfl⟩
  · have := (parts_proper (by simpa [partsDescend, Production.descends] using hd) j).forward hclose
    omega
  · -- the token behind the rule is the same in both texts
    obtain ⟨_, _, _, htoken, hafter, -⟩ := parts_cons_matched_iff.mp hclose
    have hle := (parts_proper hd _).forward hafter
    obtain ⟨t, ht, hacc, -, rfl⟩ := token_matched_iff.mp htoken
    have hlt : skip X j < r := by omega
    refine hends ?_ (by rwa [hs.skip hlt])
    rw [hs.tokenAt? hlt, ht]
    exact hacc
  · exact token_then hs hd hclose hm fun hlt hparts => hrest (by omega) hparts

/-- A rule between two tokens, and what is after it. -/
theorem enclosed_then (hf : Further X Y r pos) {q : Nat} (hq : pos ≤ q) {R : Rule}
    {k k' : Token.Kind} (hends : ∀ {j}, At Y k' j → skip Y j < r → Ends X Y r R j)
    (hd : partsDescend 10 parts = true)
    (h : (readParts X (reading X) (punct k :: .rule R :: punct k' :: parts) q).outcome =
      .matched ts m)
    (hm : m ≤ r)
    (hrest : ∀ {vs j}, q < j → (readParts X (reading X) parts j).outcome = .matched vs m →
      (readParts Y (reading Y) parts j).outcome = .matched vs m) :
    (readParts Y (reading Y) (punct k :: .rule R :: punct k' :: parts) q).outcome =
      .matched ts m := by
  have hd' : partsDescend 10 (.rule R :: punct k' :: parts) = true := by
    simpa [partsDescend, Production.descends, punct, R.rank_lt, Production.takes] using hd
  refine token_then hf.shares hd' h hm fun hlt hinner => ?_
  exact rule_then hf.shares (hf.forth (by omega) R) hends hd hinner hm
    fun hlt' hparts => hrest (by omega) hparts

/-- A token that may be left out, before one that may not. -/
theorem optional_then (hs : Shares X Y r) {kind k : Token.Kind} {text : Option String}
    (hd : partsDescend 10 (punct k :: parts) = true)
    (h : (readParts X (reading X) (.optional (.token kind text) :: punct k :: parts) pos).outcome =
      .matched ts m)
    (hm : m ≤ r)
    (hrest : ∀ {vs q}, pos ≤ q →
      (readParts X (reading X) (punct k :: parts) q).outcome = .matched vs m →
      (readParts Y (reading Y) (punct k :: parts) q).outcome = .matched vs m) :
    (readParts Y (reading Y) (.optional (.token kind text) :: punct k :: parts) pos).outcome =
      .matched ts m := by
  obtain ⟨us, j, vs, hopt, hparts, rfl⟩ := parts_cons_matched_iff.mp h
  have hle := (parts_proper hd j).forward hparts
  refine parts_cons_matched_iff.mpr ⟨us, j, vs, optional_matched_iff.mpr ?_, ?_, rfl⟩
  -- an optional token that is missing is missing in `Y`, since the parts behind it take one
  · rcases optional_matched_iff.mp hopt with htoken | ⟨hfail, rfl, rfl⟩
    · exact Or.inl (token_carries hs htoken (by omega))
    · refine Or.inr ⟨?_, rfl, rfl⟩
      have hlt := (begins_of_parts hd rfl hparts).1
      rw [token_failed_iff] at hfail ⊢
      rwa [hs.tokenAt? (by omega)]
  · refine hrest ?_ hparts
    rcases optional_matched_iff.mp hopt with htoken | ⟨-, -, rfl⟩
    · exact (readToken_proper kind text pos).forward htoken
    · exact Nat.le_refl _

theorem node_carries {kind : Tree.Kind} {alternatives : List (List Production)}
    (hline : lineAt Y pos = lineAt X pos)
    (h : (readProduction X (reading X) (.node kind alternatives) pos).outcome = .matched ts m)
    (hchoice : ∀ {us}, (readChoice X (reading X) alternatives pos).outcome = .matched us m →
      (readChoice Y (reading Y) alternatives pos).outcome = .matched us m) :
    (readProduction Y (reading Y) (.node kind alternatives) pos).outcome = .matched ts m := by
  obtain ⟨us, hus, rfl⟩ := node_matched_iff.mp h
  rw [node_matched_iff, hline]
  exact ⟨us, hchoice hus, rfl⟩

/-- A node with one alternative. -/
theorem node_one {kind : Tree.Kind} (hline : lineAt Y pos = lineAt X pos)
    (h : (readProduction X (reading X) (.node kind [parts]) pos).outcome = .matched ts m)
    (hparts : ∀ {us}, (readParts X (reading X) parts pos).outcome = .matched us m →
      (readParts Y (reading Y) parts pos).outcome = .matched us m) :
    (readProduction Y (reading Y) (.node kind [parts]) pos).outcome = .matched ts m := by
  refine node_carries hline h fun hchoice => ?_
  rcases choice_cons_matched_iff.mp hchoice with hchoice | ⟨-, hchoice⟩
  · exact choice_here (hparts hchoice)
  · exact absurd hchoice not_choice_nil_matched

end Parts

section Repetitions

/-- A part is one token, of those that a test admits. -/
def ReadsToken (p : Production) (f : Token → Bool) : Prop :=
  ∀ {tokens : Array Token} {pos m : Nat} {ts : List Tree},
    (readProduction tokens (reading tokens) p pos).outcome = .matched ts m ↔
      ∃ t, tokenAt? tokens pos = some t ∧ f t = true ∧ ts = [terminal t] ∧ m = skip tokens pos + 1

theorem readsToken_operator (symbols : List String) :
    ReadsToken (.choice (symbols.map fun s => [op s]))
      fun t => symbols.any fun s => accepts .operator (some s) t := by
  intro tokens pos m ts
  rw [choice_matched_iff]
  induction symbols with
  | nil => simp
  | cons s symbols ih =>
    rw [List.map_cons, choice_cons_matched_iff, ih, parts_one_iff, parts_cons_failed_iff]
    simp only [op, token_matched_iff, token_failed_iff, List.any_cons, Bool.or_eq_true,
      not_parts_nil_failed, and_false, exists_false, or_false]
    constructor
    · rintro (⟨t, ht, hacc, rest⟩ | ⟨-, t, ht, hacc, rest⟩)
      · exact ⟨t, ht, Or.inl hacc, rest⟩
      · exact ⟨t, ht, Or.inr hacc, rest⟩
    · rintro ⟨t, ht, hacc, rest⟩
      by_cases hfirst : accepts .operator (some s) t = true
      · exact Or.inl ⟨t, ht, hfirst, rest⟩
      · refine Or.inr ⟨?_, t, ht, hacc.resolve_left hfirst, rest⟩
        rw [ht]
        exact Bool.eq_false_iff.mpr hfirst

variable {sep item : Production} {f : Token → Bool} {stop : Option Token → Prop}

/-- Items with separators before them. Each item but the last stops at a separator. -/
theorem many_carries (hs : Shares X Y r) (hd : (Production.many [sep, item]).descends 10 = true)
    (hsep : ReadsToken sep f) (hgo : ∀ t, f t = true → stop (some t))
    (hitem : ∀ {q us j}, pos ≤ q →
      (readProduction X (reading X) item q).outcome = .matched us j → j ≤ r →
      stop (tokenAt? Y j) → (readProduction Y (reading Y) item q).outcome = .matched us j)
    (hm : m ≤ r) (hstop : stop (tokenAt? Y m)) (hend : ∀ t, tokenAt? Y m = some t → f t = false)
    {q : Nat} (hq : pos ≤ q)
    (h : (readProduction X (reading X) (.many [sep, item]) q).outcome = .matched ts m) :
    (readProduction Y (reading Y) (.many [sep, item]) q).outcome = .matched ts m ∧
      stop (tokenAt? Y q) := by
  obtain ⟨hsepd, hitemd⟩ : sep.descends 10 = true ∧ item.descends 10 = true := by
    simp only [Production.descends, partsDescend, Bool.and_eq_true, ite_self] at hd
    exact ⟨hd.1.1, hd.1.2.1⟩
  -- the induction is on what is left up to the end of the loop
  induction hk : m - q using Nat.strongRecOn generalizing q ts with
  | ind k ih =>
  have hle : q ≤ m := (part_proper hd q).forward h
  rcases (many_matched_iff hd).mp h with ⟨-, rfl, rfl⟩ | ⟨us, j, vs, hparts, hlt, hmany, rfl⟩
  -- the loop ends where no separator stands, in `Y` as well
  · refine ⟨many_of_failed (parts_failed_here ?_), hstop⟩
    cases ho : (readProduction Y (reading Y) sep m).outcome with
    | exhausted => exact absurd ho (part_proper hsepd m).decided
    | failed => rfl
    | matched us j =>
      obtain ⟨t, ht, hacc, -⟩ := hsep.mp ho
      rw [hend t ht] at hacc
      cases hacc
  · have hjm := (part_proper hd j).forward hmany
    obtain ⟨ihmany, ihstop⟩ := ih (m - j) (by omega) (by omega) hmany rfl
    obtain ⟨xs, i, ys, htoken, hlast, rfl⟩ := parts_cons_matched_iff.mp hparts
    rw [parts_one_iff] at hlast
    obtain ⟨t, ht, hacc, rfl, rfl⟩ := hsep.mp htoken
    have hforward := (part_proper hitemd _).forward hlast
    have hbefore : skip X q < r := by omega
    -- the separator is the same in `Y`, and the item before it has been read there
    have hsame := hs.tokenAt? hbefore
    refine ⟨many_more hd (parts_cons_matched_iff.mpr ⟨_, _, ys, hsep.mpr ⟨t, by rw [hsame, ht], hacc,
      rfl, rfl⟩, parts_one_iff.mpr ?_, rfl⟩) ihmany, ?_⟩
    · rw [hs.skip hbefore]
      have := le_skip X q
      exact hitem (by omega) hlast (by omega) ihstop
    · rw [hsame, ht]
      exact hgo t hacc

/-- Items with separators between them. -/
theorem items_carry (stop : Option Token → Prop) (hs : Shares X Y r)
    (hd : (Production.many [sep, item]).descends 10 = true)
    (hsep : ReadsToken sep f) (hgo : ∀ t, f t = true → stop (some t))
    (hitem : ∀ {q us j}, pos ≤ q →
      (readProduction X (reading X) item q).outcome = .matched us j → j ≤ r →
      stop (tokenAt? Y j) → (readProduction Y (reading Y) item q).outcome = .matched us j)
    (hm : m ≤ r) (hstop : stop (tokenAt? Y m)) (hend : ∀ t, tokenAt? Y m = some t → f t = false)
    (h : (readParts X (reading X) [item, .many [sep, item]] pos).outcome = .matched ts m) :
    (readParts Y (reading Y) [item, .many [sep, item]] pos).outcome = .matched ts m := by
  obtain ⟨us, j, vs, hfirst, hmany, rfl⟩ := parts_cons_matched_iff.mp h
  rw [parts_one_iff] at hmany
  have hjm := (part_proper hd j).forward hmany
  have hitemd : item.descends 10 = true := by
    simp only [Production.descends, partsDescend, Bool.and_eq_true, ite_self] at hd
    exact hd.1.2.1
  have hj := (part_proper hitemd pos).forward hfirst
  obtain ⟨hmany', hstop'⟩ := many_carries hs hd hsep hgo hitem hm hstop hend hj hmany
  exact parts_cons_matched_iff.mpr ⟨us, j, vs, hitem (Nat.le_refl pos) hfirst (by omega) hstop',
    parts_one_iff.mpr hmany', rfl⟩

end Repetitions

section Operands

theorem Shares.opening (hs : Shares X Y r) (hle : pos ≤ m) {k : Token.Kind} (hat : At Y k m)
    (hlt : Grammar.skip Y m < r) :
    Grammar.tokenAt? Y pos = Grammar.tokenAt? X pos ∧ Grammar.lineAt Y pos = Grammar.lineAt X pos := by
  obtain ⟨t, ht, -⟩ := nextIs_iff.mp hat
  have hmono := skip_mono (X := Y) hle
  have hsize := skip_lt_of_tokenAt? ht
  have hbefore : Grammar.skip Y pos < r := by omega
  obtain ⟨u, hsome⟩ : ∃ u, Grammar.tokenAt? Y pos = some u :=
    ⟨_, Array.getElem?_eq_getElem (by omega)⟩
  exact ⟨(hs.symm.tokenAt? hbefore).symm, (hs.symm.lineAt hbefore hsome).symm⟩

/-- The first token that a rule takes is the same in both texts. -/
theorem carries_of_production (hs : Shares X Y r) {R : Rule} (hR : R.takes = true)
    (h : ∀ {ts m}, tokenAt? Y pos = tokenAt? X pos → lineAt Y pos = lineAt X pos →
      (readProduction X (reading X) (production R) pos).outcome = .matched ts m → m ≤ r →
      Ends X Y r R m → (readProduction Y (reading Y) (production R) pos).outcome = .matched ts m) :
    Carries X Y r R pos := by
  intro ts m hread hm hends
  obtain ⟨hlt, t, ht⟩ := begins_of_reading hR hread
  have hbefore : skip X pos < r := by omega
  rw [reading_eq] at hread ⊢
  exact h (hs.tokenAt? hbefore) (hs.lineAt hbefore ht) hread hm hends

theorem nextIs_other {k k' : Token.Kind} {text text' : Option String} {t : Option Token}
    (h : nextIs k text t = true) (hne : k ≠ k') : nextIs k' text' t = false := by
  obtain ⟨u, rfl, rfl, -⟩ := nextIs_iff.mp h
  simp [nextIs, accepts, hne]

theorem exists_start {t : Option Token} {alternatives : List (List Production)}
    (h : choiceStarts t alternatives = true) : ∃ p ∈ alternatives, partsStart t p = true := by
  induction alternatives with
  | nil => cases h
  | cons p ps ih =>
    rcases Bool.or_eq_true_iff.mp h with h | h
    · exact ⟨p, by simp, h⟩
    · obtain ⟨p', hp', h'⟩ := ih h
      exact ⟨p', List.mem_cons_of_mem p hp', h'⟩

theorem nextIs_other_text {k : Token.Kind} {w w' : String} {t : Option Token}
    (h : nextIs k (some w) t = true) (hne : w ≠ w') : nextIs k (some w') t = false := by
  obtain ⟨u, rfl, rfl, hw⟩ := nextIs_iff.mp h
  obtain rfl := hw w rfl
  simp [nextIs, accepts, hne.symm]

theorem nextIs_text_of_none {k : Token.Kind} {t : Option Token} (h : nextIs k none t = false)
    (w : String) : nextIs k (some w) t = false := by
  by_contra hne
  obtain ⟨u, rfl, hk, -⟩ := nextIs_iff.mp (Bool.of_not_eq_false hne)
  simp [nextIs, accepts, hk] at h

theorem starts_of_matched {parts : List Production}
    (h : (readParts X (reading X) parts pos).outcome = .matched ts m) :
    partsStart (tokenAt? X pos) parts = true := by
  by_contra hne
  rw [readParts_failed (Bool.eq_false_iff.mpr hne)] at h
  cases h

/-- Alternatives that begin with different tokens. -/
theorem choice_carries {alternatives : List (List Production)}
    (hsame : tokenAt? Y pos = tokenAt? X pos)
    (hdisjoint : alternatives.Pairwise fun a b =>
      partsStart (tokenAt? X pos) b = true → partsStart (tokenAt? X pos) a = false)
    (hall : ∀ parts ∈ alternatives,
      (readParts X (reading X) parts pos).outcome = .matched ts m →
      (readParts Y (reading Y) parts pos).outcome = .matched ts m)
    (h : (readChoice X (reading X) alternatives pos).outcome = .matched ts m) :
    (readChoice Y (reading Y) alternatives pos).outcome = .matched ts m := by
  induction alternatives with
  | nil => exact absurd h not_choice_nil_matched
  | cons parts alternatives ih =>
    rw [List.pairwise_cons] at hdisjoint
    rcases choice_cons_matched_iff.mp h with h | ⟨-, h⟩
    · exact choice_here (hall parts (by simp) h)
    -- the first alternative that can begin here is the only one, in `Y` as in `X`
    · have hlater := ih hdisjoint.2 (fun p hp => hall p (List.mem_cons_of_mem parts hp)) h
      have hstart : choiceStarts (tokenAt? X pos) alternatives = true := by
        by_contra hne
        rw [readChoice_failed (Bool.eq_false_iff.mpr hne)] at h
        cases h
      have hfirst : partsStart (tokenAt? Y pos) parts = false := by
        rw [hsame]
        obtain ⟨p, hp, hpstart⟩ := exists_start hstart
        exact hdisjoint.1 p hp hpstart
      exact (choice_skip_iff hfirst).mpr hlater

theorem suffix_carries (hf : Further X Y r pos) {q : Nat} (hq : pos ≤ q)
    (h : (readProduction X (reading X) suffix q).outcome = .matched ts m) (hm : m ≤ r) :
    (readProduction Y (reading Y) suffix q).outcome = .matched ts m := by
  have hplace := (readProduction_mirrors reading_mirrors suffix 10 q rfl).moved h rfl
  have hlt := (begins_of_place hplace).1
  rw [suffix, choice_matched_iff] at h ⊢
  refine choice_carries (hf.shares.tokenAt? (by omega)) ?_ ?_ h
  · simp only [List.pairwise_cons, List.mem_cons, List.not_mem_nil, or_false, forall_eq_or_imp,
      forall_eq, partsStart, parenthesised, bracketed, punct, Production.starts]
    refine ⟨⟨?_, ?_⟩, ?_, by simp⟩ <;> exact fun h => nextIs_other h (by decide)
  · intro parts hparts h
    simp only [List.mem_cons, List.not_mem_nil, or_false] at hparts
    rcases hparts with rfl | rfl | rfl
    · exact enclosed_then hf hq (fun hat hlt => ⟨Or.inl hat, hlt⟩) rfl h hm fun _ => then_nothing
    · refine enclosed_then hf hq (fun hat _ => ?_) rfl h hm fun _ => then_nothing
      exact goesOn_of_at hat fun t ht => by simp [Rule.goesOn, beginsSuffix, nextIs, accepts, ht]
    · exact token_then hf.shares rfl h hm fun _ h =>
        token_then hf.shares rfl h hm fun _ => then_nothing

theorem suffixes_carry (hf : Further X Y r pos) (hm : m ≤ r)
    (hend : beginsSuffix (tokenAt? Y m) = false) (rounds : Nat) :
    ∀ {q t ts}, pos ≤ q →
      (readSuffixes (readProduction X (reading X) suffix) rounds t q).outcome = .matched ts m →
      (readSuffixes (readProduction Y (reading Y) suffix) (Y.size + 1) t q).outcome =
        .matched ts m := by
  -- the induction is on the rounds in `X`; in `Y` there are always enough
  induction rounds with
  | zero =>
    intro q t ts _ h
    cases h
  | succ rounds ih =>
    intro q t ts hq h
    rw [readSuffixes] at h
    cases hs : (readProduction X (reading X) suffix q).outcome with
    | exhausted => exact absurd hs (suffix_proper q).decided
    -- no suffix begins at the end, so the chain ends there in `Y` as well
    | failed =>
      simp only [hs] at h
      cases h
      have hno : (readProduction Y (reading Y) suffix m).outcome = .failed := by
        simp only [beginsSuffix, Bool.or_eq_false_iff] at hend
        refine suffix_failed ⟨?_, ?_, ?_⟩ <;> simp [At, hend]
      rw [readSuffixes]
      simp only [hno]
    | matched parts j =>
      simp only [hs, Attempt.outcome_reaching] at h
      have hle := readSuffixes_forward rounds h
      have hlt := (suffix_proper q).moves hs rfl
      rw [readSuffixes_more (suffix_carries hf hq hs (by omega))]
      exact ih (by omega) h

theorem suffixed_carries (hf : Further X Y r pos) (hp : Carries X Y r .primary pos) :
    Carries X Y r .suffixed pos := by
  intro ts m h hm hends
  obtain ⟨t, us, j, hprimary, hsuffixes⟩ := suffixed_matched_iff.mp h
  have hle := readSuffixes_forward _ hsuffixes
  have hj := (reading_proper .primary pos).forward hprimary
  refine suffixed_matched_iff.mpr ⟨t, us, j, hp hprimary (by omega) rfl, ?_⟩
  exact suffixes_carry hf hm hends _ hj hsuffixes

/-- Two operands with a token between them, or only the first. -/
theorem pair_carries (hf : Further X Y r pos) {R : Rule} (first second : Rule)
    {kind : Token.Kind} {text : Option String}
    (hp : production R = .node .expression [[.rule first, .token kind text, .rule second],
      [.rule first]])
    (hR : R.takes = true ∧ R.isOperand = true) (hfirst : first.isOperand = true)
    (hsecond : second.isOperand = true)
    (hgo : ∀ t, nextIs kind text t = true → first.goesOn t = false)
    (hends : ∀ t, R.goesOn t = false →
      first.goesOn t = false ∧ second.goesOn t = false ∧ nextIs kind text t = false)
    (h : Carries X Y r first pos) : Carries X Y r R pos := by
  refine carries_of_production hf.shares hR.1 fun {ts m} _ hline hread hm hend => ?_
  obtain ⟨hend₁, hend₂, hno⟩ := hends _ ((ends_operand hR.2).mp hend)
  rw [hp] at hread ⊢
  refine node_carries hline hread fun {us} hchoice => ?_
  -- the operator is there in both, or the first operand ends where none can follow
  rcases choice_cons_matched_iff.mp hchoice with hparts | ⟨-, hchoice⟩
  · have hd : partsDescend 10 [.rule second] = true := by
      simp [partsDescend, Production.descends, second.rank_lt]
    refine choice_here (rule_then hf.shares h ?_ hd hparts hm ?_)
    · exact fun hnext _ => (ends_operand hfirst).mpr (hgo _ hnext)
    · exact fun hq => rule_last (hf.forth hq second) hm ((ends_operand hsecond).mpr hend₂)
  · rcases choice_cons_matched_iff.mp hchoice with hparts | ⟨-, hchoice⟩
    · rw [parts_one_iff, rule_matched_iff] at hparts
      have hY := h hparts hm ((ends_operand hfirst).mpr hend₁)
      refine choice_next ?_ (choice_here (parts_one_iff.mpr (rule_matched_iff.mpr hY)))
      exact parts_failed_after_rule hY (parts_failed_of_token hno)
    · exact absurd hchoice not_choice_nil_matched

/-- Operands with operators of one level between them. -/
theorem loop_carries (hf : Further X Y r pos) (symbols : List String) {R : Rule} (operand : Rule)
    (hp : production R = .node .expression [[.rule operand,
      .many [.choice (symbols.map fun s => [op s]), .rule operand]]])
    (hd : (Production.many [.choice (symbols.map fun s => [op s]), .rule operand]).descends 10 = true)
    (hR : R.takes = true ∧ R.isOperand = true) (ho : operand.isOperand = true)
    (hgo : ∀ t, symbols.any (fun s => nextIs .operator (some s) t) = true →
      operand.goesOn t = false)
    (hends : ∀ t, R.goesOn t = false →
      operand.goesOn t = false ∧ symbols.any (fun s => nextIs .operator (some s) t) = false)
    (h : Carries X Y r operand pos) : Carries X Y r R pos := by
  refine carries_of_production hf.shares hR.1 fun {ts m} _ hline hread hm hend => ?_
  obtain ⟨hstop, hno⟩ := hends _ ((ends_operand hR.2).mp hend)
  rw [hp] at hread ⊢
  refine node_one hline hread fun {us} hparts => ?_
  refine items_carry (fun t => operand.goesOn t = false) hf.shares hd
    (readsToken_operator symbols) (fun t ht => hgo (some t) ht) ?_ hm hstop ?_ hparts
  · intro q us j hq hitem hj hs
    rw [rule_matched_iff] at hitem ⊢
    exact hf.onward h hq hitem hj ((ends_operand ho).mpr hs)
  · intro t ht
    rw [ht] at hno
    exact hno

/-- A list with commas, up to the token that closes it. -/
theorem commaList_carries (stop : Option Token → Prop) (hf : Further X Y r pos) {kind : Tree.Kind}
    {item : Production} {k : Token.Kind}
    (hd : (Production.many [punct .comma, item]).descends 10 = true)
    (hgo : ∀ t : Token, t.kind = .comma → stop (some t))
    (hitem : ∀ {q us j}, pos ≤ q →
      (readProduction X (reading X) item q).outcome = .matched us j → j ≤ r →
      stop (tokenAt? Y j) → (readProduction Y (reading Y) item q).outcome = .matched us j)
    (hle : pos ≤ m) (hat : At Y k m) (hlt : skip Y m < r) (hk : k ≠ .comma)
    (hstop : stop (tokenAt? Y m)) (hstart : item.starts (tokenAt? Y m) = false)
    (h : (readProduction X (reading X) (commaList kind item) pos).outcome = .matched ts m) :
    (readProduction Y (reading Y) (commaList kind item) pos).outcome = .matched ts m := by
  obtain ⟨-, hline⟩ := hf.shares.opening hle hat hlt
  refine node_carries hline h fun {us} hchoice => ?_
  rcases choice_cons_matched_iff.mp hchoice with hparts | ⟨-, hchoice⟩
  · have hm : m ≤ r := by
      have := le_skip Y m
      omega
    refine choice_here (items_carry stop hf.shares hd (f := accepts .comma none) token_matched_iff
      ?_ hitem hm hstop ?_ hparts)
    · intro t ht
      exact hgo t (by simpa [accepts] using ht)
    · intro t ht
      by_contra hne
      exact hk (hat.eq (at_of_accepts ht (Bool.of_not_eq_false hne)))
  · rcases choice_cons_matched_iff.mp hchoice with hparts | ⟨-, hchoice⟩
    · obtain ⟨rfl, rfl⟩ := parts_nil_matched_iff.mp hparts
      refine choice_next (readParts_failed hstart) ?_
      exact choice_here (parts_nil_matched_iff.mpr ⟨rfl, rfl⟩)
    · exact absurd hchoice not_choice_nil_matched

theorem argumentList_carries (hf : Further X Y r pos) : Carries X Y r .argumentList pos := by
  intro ts m h hm hends
  have hle := (reading_proper .argumentList pos).forward h
  rw [reading_eq, production] at h ⊢
  refine commaList_carries (fun _ => True) hf rfl (fun _ _ => trivial) ?_ hle hends.1 hends.2
    (by decide) trivial ?_ h
  · exact fun _ hitem hj _ => token_carries hf.shares hitem hj
  · exact nextIs_other hends.1 (by decide)

theorem expressionList_carries (hf : Further X Y r pos) (hx : Carries X Y r .expression pos) :
    Carries X Y r .expressionList pos := by
  intro ts m h hm hends
  have hle := (reading_proper .expressionList pos).forward h
  rw [reading_eq, production] at h ⊢
  have hitem : ∀ {q us j}, pos ≤ q →
      (readProduction X (reading X) (.rule .expression) q).outcome = .matched us j → j ≤ r →
      Rule.goesOn (tokenAt? Y j) .expression = false →
      (readProduction Y (reading Y) (.rule .expression) q).outcome = .matched us j := by
    intro q us j hq hread hj hs
    rw [rule_matched_iff] at hread ⊢
    exact hf.onward hx hq hread hj hs
  have hgo : ∀ t : Token, t.kind = .comma → Rule.goesOn (some t) .expression = false := by
    intro t ht
    simp [Rule.goesOn, beginsSuffix, nextIs, accepts, ht]
  obtain ⟨k, hk, hat⟩ : ∃ k, (k = .rightParen ∨ k = .rightBracket) ∧ At Y k m :=
    hends.1.elim (fun h => ⟨_, Or.inl rfl, h⟩) fun h => ⟨_, Or.inr rfl, h⟩
  refine commaList_carries (fun t => Rule.goesOn t .expression = false) hf rfl hgo hitem hle hat
    hends.2 ?_ ?_ ?_ h
  · rcases hk with rfl | rfl <;> decide
  · refine goesOn_of_at hat fun t ht => ?_
    rcases hk with rfl | rfl <;> simp [Rule.goesOn, beginsSuffix, nextIs, accepts, ht]
  · rw [Production.starts]
    refine hat.starts fun t ht => ?_
    rcases hk with rfl | rfl <;> simp [Rule.starts, startsOperand, nextIs, accepts, ht]

theorem array_carries (hf : Further X Y r pos) : Carries X Y r .array pos := by
  refine carries_of_production hf.shares rfl fun {ts m} _ hline hread hm _ => ?_
  rw [production] at hread ⊢
  refine node_one hline hread fun h => ?_
  exact enclosed_then hf (Nat.le_refl pos) (fun hat hlt => ⟨Or.inr hat, hlt⟩) rfl h hm
    fun _ => then_nothing

/-- A block in braces. -/
theorem braced_carries (parts : List Production) (hf : Further X Y r pos) {q : Nat} (hq : pos ≤ q)
    (hd : partsDescend 10 parts = true)
    (h : (readParts X (reading X) (braced ++ parts) q).outcome = .matched ts m) (hm : m ≤ r)
    (hrest : ∀ {vs j}, q < j → (readParts X (reading X) parts j).outcome = .matched vs m →
      (readParts Y (reading Y) parts j).outcome = .matched vs m) :
    (readParts Y (reading Y) (braced ++ parts) q).outcome = .matched ts m :=
  enclosed_then hf hq (fun hat hlt => ⟨hat, hlt⟩) hd h hm hrest

theorem signature_carries (hf : Further X Y r pos) {q : Nat} (hq : pos ≤ q)
    (h : (readParts X (reading X) (parenthesised (.rule .argumentList) ++ braced) q).outcome =
      .matched ts m) (hm : m ≤ r) :
    (readParts Y (reading Y) (parenthesised (.rule .argumentList) ++ braced) q).outcome =
      .matched ts m :=
  enclosed_then hf hq (fun hat hlt => ⟨hat, hlt⟩) rfl h hm fun hlt h =>
    braced_carries [] hf (by omega) rfl h hm fun _ => then_nothing

theorem function_carries (hf : Further X Y r pos) : Carries X Y r .function pos := by
  refine carries_of_production hf.shares rfl fun {ts m} _ hline hread hm _ => ?_
  rw [production] at hread ⊢
  refine node_one hline hread fun h => token_then hf.shares rfl h hm fun hlt h => ?_
  exact optional_then hf.shares rfl h hm fun hle h => signature_carries hf (by omega) h hm

theorem classLiteral_carries (hf : Further X Y r pos) : Carries X Y r .classLiteral pos := by
  refine carries_of_production hf.shares rfl fun {ts m} _ hline hread hm _ => ?_
  rw [production] at hread ⊢
  refine node_one hline hread fun h => token_then hf.shares rfl h hm fun hlt h => ?_
  refine token_then hf.shares rfl h hm fun hlt' h => ?_
  exact braced_carries [] hf (by omega) rfl h hm fun _ => then_nothing

theorem primary_carries (hf : Further X Y r pos) : Carries X Y r .primary pos := by
  refine carries_of_production hf.shares rfl fun {ts m} hsame hline hread hm _ => ?_
  rw [production, choice_matched_iff] at hread ⊢
  refine choice_carries hsame ?_ ?_ hread
  · -- the alternatives begin with different kinds of tokens, or with different words
    rcases tokenAt? X pos with _ | ⟨kind, text, line⟩
    · simp [partsStart, Production.starts, choiceStarts, parenthesised, punct, name, Rule.starts,
        nextIs]
    · cases kind <;>
        simp +contextual [partsStart, Production.starts, choiceStarts, parenthesised, punct, name,
          Rule.starts, nextIs, accepts]
      rintro rfl
      decide
  · intro parts hparts h
    have htoken : ∀ {kind : Token.Kind},
        (readParts X (reading X) [punct kind] pos).outcome = .matched ts m →
        (readParts Y (reading Y) [punct kind] pos).outcome = .matched ts m :=
      fun h => token_then hf.shares rfl h hm fun _ => then_nothing
    simp only [List.mem_cons, List.not_mem_nil, or_false] at hparts
    rcases hparts with rfl | rfl | rfl | rfl | rfl | rfl | rfl | rfl | rfl
    · rw [parts_one_iff] at h ⊢
      refine node_one hline h fun h => ?_
      refine enclosed_then hf (Nat.le_refl pos) (fun hat _ => ?_) rfl h hm fun _ => then_nothing
      exact goesOn_of_at hat fun t ht => by simp [Rule.goesOn, beginsSuffix, nextIs, accepts, ht]
    · exact rule_last (function_carries hf) hm rfl h
    · exact rule_last (classLiteral_carries hf) hm rfl h
    · exact rule_last (array_carries hf) hm rfl h
    all_goals exact htoken h

theorem power_carries (hf : Further X Y r pos) (h : Carries X Y r .suffixed pos) :
    Carries X Y r .power pos := by
  refine pair_carries hf .suffixed .power rfl ⟨rfl, rfl⟩ rfl rfl ?_ ?_ h
  · intro t ht
    simp [Rule.goesOn, beginsSuffix, nextIs_other ht]
  · intro t ht
    simpa [Rule.goesOn] using ht

theorem multiplicative_carries (hf : Further X Y r pos) (h : Carries X Y r .suffixed pos) :
    Carries X Y r .multiplicative pos := by
  refine loop_carries hf ["*", "/", "%"] .power rfl rfl ⟨rfl, rfl⟩ rfl ?_ ?_ (power_carries hf h)
  · intro t ht
    obtain ⟨s, hs, hnext⟩ := List.any_eq_true.mp ht
    have hraise : nextIs .operator (some "**") t = false :=
      nextIs_other_text hnext (by rintro rfl; revert hs; decide)
    simp [Rule.goesOn, beginsSuffix, nextIs_other hnext, hraise]
  · intro t ht
    simpa [Rule.goesOn, and_assoc] using ht

theorem additive_carries (hf : Further X Y r pos) (h : Carries X Y r .suffixed pos) :
    Carries X Y r .additive pos := by
  refine loop_carries hf ["+", "-"] .multiplicative rfl rfl ⟨rfl, rfl⟩ rfl ?_ ?_
    (multiplicative_carries hf h)
  · intro t ht
    obtain ⟨s, hs, hnext⟩ := List.any_eq_true.mp ht
    have hother : ∀ s' ∈ ["**", "*", "/", "%"], nextIs .operator (some s') t = false := by
      intro s' hs'
      refine nextIs_other_text hnext ?_
      rintro rfl
      simp only [List.mem_cons, List.not_mem_nil, or_false] at hs
      rcases hs with rfl | rfl <;> exact absurd hs' (by decide)
    simpa [Rule.goesOn, beginsSuffix, nextIs_other hnext] using hother
  · intro t ht
    simp only [Rule.goesOn, Bool.or_eq_false_iff] at ht
    have hnone : ∀ s, nextIs .operator (some s) t = false := fun s => nextIs_text_of_none ht.2 s
    simp [Rule.goesOn, ht.1, hnone]

theorem comparison_carries (hf : Further X Y r pos) (h : Carries X Y r .suffixed pos) :
    Carries X Y r .comparison pos := by
  refine pair_carries hf .additive .additive rfl ⟨rfl, rfl⟩ rfl rfl ?_ ?_ (additive_carries hf h)
  · intro t ht
    simp [Rule.goesOn, beginsSuffix, nextIs_other ht]
  · intro t ht
    simp only [Rule.goesOn, Bool.or_eq_false_iff] at ht ⊢
    exact ⟨ht.1, ht.1, ht.2⟩

theorem expression_carries (hf : Further X Y r pos) (hs : Carries X Y r .suffixed pos)
    (hc : Carries X Y r .comparison pos) : Carries X Y r .expression pos := by
  refine carries_of_production hf.shares rfl fun {ts m} _ hline hread hm hend => ?_
  have hgo := (ends_operand (R := .expression) rfl).mp hend
  rw [production] at hread ⊢
  refine node_carries hline hread fun {us} hchoice => ?_
  rcases choice_cons_matched_iff.mp hchoice with hparts | ⟨-, hchoice⟩
  · refine choice_here (rule_then hf.shares hs ?_ rfl hparts hm ?_)
    · intro j hnext _
      refine (ends_operand (R := .suffixed) rfl).mpr ?_
      simp [Rule.goesOn, beginsSuffix, nextIs_other hnext]
    · exact fun hq => rule_last (hf.forth hq .expression) hm hend
  · rcases choice_cons_matched_iff.mp hchoice with hparts | ⟨-, hchoice⟩
    · have hends : Ends X Y r .comparison m := by
        refine (ends_operand (R := .comparison) rfl).mpr ?_
        simp only [Rule.goesOn, Bool.or_eq_false_iff] at hgo ⊢
        exact hgo.1
      have hlast := rule_last hc hm hends hparts
      refine choice_next ?_ (choice_here hlast)
      rw [parts_one_iff, rule_matched_iff] at hlast
      cases ho : (reading Y .suffixed pos).outcome with
      | exhausted => exact absurd ho (reading_proper .suffixed pos).decided
      | failed => exact parts_failed_of_rule ho
      | matched vs j =>
        refine parts_failed_after_rule ho (parts_failed_of_token ?_)
        -- an operand with an assignment behind it would be all of the comparison
        by_contra hne
        have hat : At Y .assignment j := Bool.of_not_eq_false hne
        have hsep : ¬ Separated Y j := by
          rintro (h | h) <;> exact absurd (hat.eq h) (by decide)
        obtain ⟨ws, hcomparison⟩ := chain_end hsep ho
        rw [hlast] at hcomparison
        cases hcomparison
        simp only [Rule.goesOn, Bool.or_eq_false_iff] at hgo
        rw [hgo.2] at hne
        exact hne rfl
    · exact absurd hchoice not_choice_nil_matched

end Operands

end ScriptKit.Grammar
