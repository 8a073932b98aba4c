import ScriptKit.Proofs.Grammar.Intact

namespace ScriptKit.Grammar

open Arena (Linked root)

open Builder

variable {tokens : Array Token}

/-- An assertion that steps keep which move no node of a tree and record no match. -/
def Stable (tokens : Array Token) (P : Builder → Prop) : Prop :=
  ∀ ⦃b b' : Builder⦄, Keeps tokens 0 0 b b' → P b → P b'

theorem stable_true : Stable tokens fun _ => True := fun _ _ _ _ => trivial

theorem Stable.and {P Q : Builder → Prop} (hP : Stable tokens P) (hQ : Stable tokens Q) :
    Stable tokens fun b => P b ∧ Q b :=
  fun _ _ hk h => ⟨hP hk h.1, hQ hk h.2⟩

theorem Stable.or {P Q : Builder → Prop} (hP : Stable tokens P) (hQ : Stable tokens Q) :
    Stable tokens fun b => P b ∨ Q b :=
  fun _ _ hk h => h.imp (hP hk) (hQ hk)

theorem Stable.imp {P : Builder → Prop} {p : Prop} (hP : Stable tokens P) :
    Stable tokens fun b => p → P b :=
  fun _ _ hk h hp => hP hk (h hp)

theorem stable_const {p : Prop} : Stable tokens fun _ => p := fun _ _ _ h => h

theorem stable_fresh {s : Nat} : Stable tokens fun b => b.Fresh s :=
  fun _ _ hk h => hk.fresh (Nat.zero_le s) h

theorem stable_vacant {q : Nat} : Stable tokens fun b => b.Vacant q :=
  fun _ _ hk h => hk.vacant q (Nat.zero_le q) h

theorem stable_held {r : Rule} {q : Nat} : Stable tokens fun b => b.Held tokens r q :=
  fun _ _ hk h => hk.held r q (Nat.zero_le q) h

/-- What a match builds: the trees of the plain reading, whole, below the target. The table holds
their nodes for positions from `lo` to the end of the match. -/
def Whole (b b' : Builder) (target lo next : Nat) (a : Attempt) : Prop :=
  ∃ trees built, a.outcome = .matched trees next ∧
    b'.arena.children target = b.arena.children target ++ built ∧
    b'.arena.HoldsAll (b'.Within lo next) built trees

namespace Whole

variable {b d b' : Builder} {target pos lo m next reach : Nat} {a a₁ a₂ : Attempt}

theorem nothing (hch : d.arena.children target = b.arena.children target)
    (ho : a.outcome = .matched [] next) : Whole b d target lo next a :=
  ⟨[], [], ho, by rw [hch, List.append_nil], by simp [Arena.HoldsAll]⟩

/-- Parts that follow each other: what the first one built stays whole below the second. -/
theorem trans {ts : List Tree} (hr : d.Ready tokens target m) (h₁ : Whole b d target lo m a₁)
    (hleaves : Leaves tokens d b' target m reach) (hle : m ≤ next)
    (h₂ : Whole d b' target lo next a₂) (ho₁ : a₁.outcome = .matched ts m)
    (ho : ∀ us, a₂.outcome = .matched us next → a.outcome = .matched (ts ++ us) next) :
    Whole b b' target lo next a := by
  obtain ⟨ts', built, ht, hch, hh⟩ := h₁
  obtain ⟨us, built', hu, hch', hh'⟩ := h₂
  rw [ho₁] at ht
  cases ht
  refine ⟨ts ++ us, built ++ built', ho us hu, ?_, Arena.holdsAll_append ?_ hh'⟩
  · rw [hch', hch, List.append_assoc]
  · refine hleaves.holdsAll hr.sane hr.free hle ?_ hh
    intro c hc
    have hmem : c ∈ d.arena.children target := by
      rw [hch]
      exact List.mem_append_right _ hc
    refine ⟨hr.sane.linked.lt_size hmem, ?_⟩
    rintro rfl
    exact hr.free.alone _ hmem

section Added

variable {kind : Tree.Kind} {text : String} {line : Nat} {trees : List Tree}

theorem quiet_added (hr : b.Ready tokens target pos)
    (h : Leaves tokens (b.add kind text line) d b.next pos reach) :
    Quiet d (d.append target b.next) := by
  have hnode := h.free (hr.sane.ready_next kind text line pos)
  have hleaves := h.since_add hr.sane target
  exact quiet_append hleaves.sane.linked (hleaves.lt hr) (hleaves.free hr) hnode.loose

/-- A new node is appended to the target with what was built below it. -/
theorem added (hr : b.Ready tokens target pos)
    (h : Leaves tokens (b.add kind text line) d b.next pos reach)
    (hh : d.arena.HoldsAll (d.Within lo next) (d.arena.children b.next) trees)
    (ho : a.outcome = .matched [.node kind text false line trees] next) :
    Whole b (d.append target b.next) target lo next a := by
  have hstart := hr.sane.ready_next kind text line pos
  have hleaves := h.since_add hr.sane target
  have hnode := h.free hstart
  have htlt := hleaves.lt hr
  have hne : b.next ≠ target := Nat.ne_of_gt hr.lt
  refine ⟨_, [b.next], ho, ?_, ?_, ?_, trivial⟩
  · rw [children_append_free hleaves.sane.linked htlt hnode, h.children_apart hr]
  · intro q hq
    exact absurd ⟨q, hq⟩ hnode.unclaimed
  · rw [Arena.Holds, arena_append, Arena.info?_append, h.frame.info b.next hstart.lt,
      Arena.children_append hleaves.sane.linked htlt, if_neg hne, List.append_nil,
      List.erase_of_not_mem (hnode.alone b.next)]
    refine ⟨?_, (quiet_added hr h).holdsAll_children hleaves.sane.linked hh⟩
    rw [next_eq, arena_add, Arena.info?_add, if_pos rfl]

end Added

end Whole

/-- From a state with `P`, a way to build at a position either matches, builds the trees of the
plain reading whole and ends with `R`, or fails and ends with `F`. -/
def Meets (tokens : Array Token) (run : Build) (plain : Nat → Attempt) (pos lo : Nat)
    (P : Builder → Prop) (R : Nat → Builder → Prop) (F : Builder → Prop) : Prop :=
  ∀ ⦃target : Nat⦄ ⦃b b' : Builder⦄ ⦃res : Result⦄, b.Ready tokens target pos → P b →
    run target pos b = (res, b') →
    match res with
    | .exhausted => True
    | .failed => (plain pos).outcome = .failed ∧ F b'
    | .matched next => Whole b b' target lo next (plain pos) ∧ R next b'

abbrev MeetsPart (tokens : Array Token) (fuel : Nat) (p : Production) :=
  Meets tokens (buildProduction tokens (buildRule tokens fuel) p)
    (readProduction tokens (reading tokens) p)

abbrev MeetsParts (tokens : Array Token) (fuel : Nat) (parts : List Production) :=
  Meets tokens (buildParts tokens (buildRule tokens fuel) parts)
    (readParts tokens (reading tokens) parts)

abbrev MeetsChoice (tokens : Array Token) (fuel : Nat) (alternatives : List (List Production)) :=
  Meets tokens (buildChoice tokens (buildRule tokens fuel) alternatives)
    (readChoice tokens (reading tokens) alternatives)

abbrev MeetsRule (tokens : Array Token) (fuel : Nat) (r : Rule) :=
  Meets tokens (buildRule tokens fuel r) (reading tokens r)

section

variable {fuel pos lo : Nat} {P : Builder → Prop} {R : Nat → Builder → Prop} {F : Builder → Prop}

theorem part_agrees (tokens : Array Token) (fuel : Nat) (p : Production) :
    Agrees tokens (buildProduction tokens (buildRule tokens fuel) p)
      (readProduction tokens (readRule tokens fuel) p) (readProduction tokens (reading tokens) p) :=
  agrees_production (agrees_rule fuel) (readRule_extends fuel) p

theorem parts_agree (tokens : Array Token) (fuel : Nat) (parts : List Production) :
    AgreesLoosely tokens (buildParts tokens (buildRule tokens fuel) parts)
      (readParts tokens (readRule tokens fuel) parts) (readParts tokens (reading tokens) parts) :=
  agrees_parts (agrees_rule fuel) (readRule_extends fuel) parts

theorem choice_agrees (tokens : Array Token) (fuel : Nat) (alternatives : List (List Production)) :
    Agrees tokens (buildChoice tokens (buildRule tokens fuel) alternatives)
      (readChoice tokens (readRule tokens fuel) alternatives)
      (readChoice tokens (reading tokens) alternatives) :=
  agrees_choice (agrees_rule fuel) (readRule_extends fuel) alternatives

/-- Weaker bounds and assertions. What the plain reading says is known on both ways out. -/
theorem Meets.weaken {run : Build} {plain : Nat → Attempt} {lo' : Nat} {P' F' : Builder → Prop}
    {R' : Nat → Builder → Prop} (h : Meets tokens run plain pos lo P R F) (hlo : lo' ≤ lo)
    (hP : ∀ b, P' b → P b)
    (hR : ∀ b ts m, (plain pos).outcome = .matched ts m → R m b → R' m b)
    (hF : ∀ b, (plain pos).outcome = .failed → F b → F' b) :
    Meets tokens run plain pos lo' P' R' F' := by
  intro target b b' res hr hb hrun
  have hm := h hr (hP b hb) hrun
  cases res with
  | exhausted => trivial
  | failed => exact ⟨hm.1, hF b' hm.1 hm.2⟩
  | matched next =>
    obtain ⟨⟨trees, built, ho, hch, hh⟩, hr'⟩ := hm
    refine ⟨⟨trees, built, ho, hch, hh.mono ?_⟩, hR b' trees next ho hr'⟩
    intro x hx q hq
    have := hx q hq
    omega

theorem Meets.before {run : Build} {plain : Nat → Attempt} {P' : Builder → Prop}
    (h : Meets tokens run plain pos lo P R F) (hP : ∀ b, P' b → P b) :
    Meets tokens run plain pos lo P' R F :=
  h.weaken (Nat.le_refl lo) hP (fun _ _ _ _ hb => hb) fun _ _ hb => hb

theorem Meets.giving {run : Build} {plain : Nat → Attempt} {R' : Nat → Builder → Prop}
    (h : Meets tokens run plain pos lo P R F)
    (hR : ∀ b ts m, (plain pos).outcome = .matched ts m → R m b → R' m b) :
    Meets tokens run plain pos lo P R' F :=
  h.weaken (Nat.le_refl lo) (fun _ hb => hb) hR fun _ _ hb => hb

theorem Meets.failing {run : Build} {plain : Nat → Attempt} {F' : Builder → Prop}
    (h : Meets tokens run plain pos lo P R F)
    (hF : ∀ b, (plain pos).outcome = .failed → F b → F' b) :
    Meets tokens run plain pos lo P R F' :=
  h.weaken (Nat.le_refl lo) (fun _ hb => hb) (fun _ _ _ _ hb => hb) hF

/-- Where the plain reading fails there is nothing to build. -/
theorem meets_of_failed {run : Build} {limited plain : Nat → Attempt}
    (ha : AgreesLoosely tokens run limited plain) (hfail : (plain pos).outcome = .failed) :
    Meets tokens run plain pos lo P R fun _ => True := by
  intro target b b' res hr _ hrun
  have h := ha hr hrun
  cases res with
  | exhausted => trivial
  | failed => exact ⟨hfail, trivial⟩
  | matched next =>
    obtain ⟨trees, -, ho, -⟩ := h.grown
    rw [hfail] at ho
    cases ho

theorem Agrees.loosely {run : Build} {limited plain : Nat → Attempt}
    (h : Agrees tokens run limited plain) : AgreesLoosely tokens run limited plain := by
  intro target pos b b' res hr hrun
  have ha := h hr hrun
  cases res with
  | exhausted => exact ha
  | failed => exact ⟨ha.outcome, ha.leaves⟩
  | matched next => exact ha

/-- What is settled before a position stays while more is built from there on. -/
theorem Meets.frame {run : Build} {limited plain : Nat → Attempt} {K : Builder → Prop}
    (h : Meets tokens run plain pos lo P R F) (ha : AgreesLoosely tokens run limited plain)
    (hK : ∀ {target : Nat} {b b' : Builder} {reach : Nat}, b.Ready tokens target pos →
      Leaves tokens b b' target pos reach → K b → K b') :
    Meets tokens run plain pos lo (fun b => P b ∧ K b) (fun m b => R m b ∧ K b)
      fun b => F b ∧ K b := by
  intro target b b' res hr hb hrun
  have hm := h hr hb.1 hrun
  have hag := ha hr hrun
  cases res with
  | exhausted => trivial
  | failed => exact ⟨hm.1, hm.2, hK hr hag.2 hb.2⟩
  | matched next => exact ⟨hm.1, hm.2, hK hr hag.leaves hb.2⟩

theorem meets_token (kind : Token.Kind) (text : Option String) (hP : Stable tokens P) :
    MeetsPart tokens fuel (.token kind text) pos lo P
      (fun next b => P b ∧ next = skip tokens pos + 1 ∧
        ∃ t, tokenAt? tokens pos = some t ∧ accepts kind text t = true)
      (fun b => P b ∧ ∀ t, tokenAt? tokens pos = some t → accepts kind text t = false) := by
  intro target b b' res hr hb hrun
  simp only [buildProduction, buildToken] at hrun
  simp only [readProduction, readToken]
  cases ht : tokenAt? tokens pos with
  | none =>
    simp only [ht] at hrun
    cases hrun
    exact ⟨rfl, hb, by simp⟩
  | some t =>
    simp only [ht] at hrun
    let looked := b.lookAt (skip tokens pos)
    have hlooked : looked.Ready tokens target pos := hr.lookAt _
    have hlook : P looked := hP ((quiet_lookAt b _).keeps hr.sane) hb
    by_cases hacc : accepts kind text t = true
    · simp only [hacc, if_true] at hrun ⊢
      cases hrun
      have hadd := hP ((quiet_add looked (terminalKind t.kind) (terminalText t) t.line).keeps
        hlooked.sane) hlook
      have hsane := hlooked.sane.add (terminalKind t.kind) (terminalText t) t.line
      have hnone : Leaves tokens _ _ looked.next pos 0 := .refl hsane (Nat.zero_le _)
      show Whole looked (Builder.append _ target looked.next) target lo _ _ ∧ _
      refine ⟨Whole.added hlooked hnone ?_ rfl,
        hP ((Whole.quiet_added hlooked hnone).keeps hsane) hadd, rfl, t, rfl, hacc⟩
      rw [children_next]
      trivial
    · simp only [hacc] at hrun ⊢
      simp only [Bool.false_eq_true, if_false] at hrun ⊢
      cases hrun
      exact ⟨trivial, hlook, by simpa using hacc⟩

theorem meets_parts_nil :
    MeetsParts tokens fuel [] pos lo P (fun next b => next = pos ∧ P b) fun _ => False := by
  intro target b b' res hr hb hrun
  simp only [buildParts] at hrun
  cases hrun
  exact ⟨.nothing rfl rfl, rfl, hb⟩

theorem meets_parts_cons {p : Production} {parts : List Production} {S : Nat → Builder → Prop}
    (h₁ : MeetsPart tokens fuel p pos lo P S F)
    (h₂ : ∀ m ts, (readProduction tokens (reading tokens) p pos).outcome = .matched ts m →
      pos ≤ m → MeetsParts tokens fuel parts m lo (S m) R F) :
    MeetsParts tokens fuel (p :: parts) pos lo P R F := by
  intro target b b' res hr hb hrun
  have hag := parts_agree tokens fuel (p :: parts) hr hrun
  simp only [buildParts] at hrun
  cases hrun₁ : buildProduction tokens (buildRule tokens fuel) p target pos b with
  | mk res₁ d =>
    have ha₁ := part_agrees tokens fuel p hr hrun₁
    have hm₁ := h₁ hr hb hrun₁
    simp only [hrun₁] at hrun
    cases res₁ with
    | exhausted => cases hrun; trivial
    | failed => cases hrun; exact ⟨hag.1, hm₁.2⟩
    -- the first part is done, so the rest begins in the state that it has left
    | matched m =>
      obtain ⟨ts, -, ho, -⟩ := ha₁.grown
      have hr' := ha₁.ready hr
      have ha₂ := parts_agree tokens fuel parts hr' hrun
      have hm₂ := h₂ m ts ho ha₁.le hr' hm₁.2 hrun
      cases res with
      | exhausted => trivial
      | failed => exact ⟨hag.1, hm₂.2⟩
      | matched next =>
        refine ⟨hm₁.1.trans hr' ha₂.leaves ha₂.le hm₂.1 ho ?_, hm₂.2⟩
        intro us ho'
        simp only [readParts, Attempt.andThen_matched ho, Attempt.outcome_reaching,
          Attempt.map_matched ho']

theorem meets_apart {parts : List Production} (h : MeetsParts tokens fuel parts pos lo P R F)
    (hP : Stable tokens P) (hR : ∀ m, Stable tokens (R m)) :
    Meets tokens (buildApart tokens (buildParts tokens (buildRule tokens fuel) parts))
      (readParts tokens (reading tokens) parts) pos lo P R F := by
  intro target b b' res hr hb hrun
  have hstart := hr.sane.ready_next .temporary "" (lineAt tokens pos) pos
  unfold buildApart at hrun
  cases hrun₁ : buildParts tokens (buildRule tokens fuel) parts b.next pos
      (b.add .temporary "" (lineAt tokens pos)) with
  | mk res₁ d =>
    have ha := parts_agree tokens fuel parts hstart hrun₁
    have hm := h hstart (hP ((quiet_add b _ _ _).keeps hr.sane) hb) hrun₁
    rw [hrun₁] at hrun
    cases res₁ with
    | exhausted => cases hrun; trivial
    | failed => cases hrun; exact hm
    -- the children built apart are moved under the target, which loses none of its own
    | matched next =>
      cases hrun
      obtain ⟨⟨trees, built, ho, hch, hh⟩, hR'⟩ := hm
      have hleaves := ha.leaves.since_add hr.sane target
      have hsource := ha.leaves.free hstart
      have htarget := hleaves.free hr
      have hslt := ha.leaves.lt hstart
      have htlt := hleaves.lt hr
      have hne : b.next ≠ target := Nat.ne_of_gt hr.lt
      have hq := quiet_move hleaves.sane.linked hslt htlt hne hsource htarget
      rw [children_next, List.nil_append] at hch
      rw [← hch] at hh
      obtain ⟨-, -, -, hmoved⟩ := Arena.moveChildren_spec hleaves.sane.linked hslt htlt hne
        (htarget.alone b.next)
      refine ⟨⟨trees, d.arena.children b.next, ho, ?_, hq.holdsAll_children hleaves.sane.linked hh⟩,
        hR next (hq.keeps hleaves.sane) hR'⟩
      rw [arena_moveChildren, hmoved, if_pos rfl, ha.leaves.children_apart hr]

theorem meets_choice_nil :
    MeetsChoice tokens fuel [] pos lo P (fun _ _ => False) P := by
  intro target b b' res hr hb hrun
  simp only [buildChoice] at hrun
  cases hrun
  exact ⟨rfl, hb⟩

theorem meets_choice_cons {parts : List Production} {alternatives : List (List Production)}
    {G : Builder → Prop} (h₁ : MeetsParts tokens fuel parts pos lo P R G)
    (h₂ : (readParts tokens (reading tokens) parts pos).outcome = .failed →
      MeetsChoice tokens fuel alternatives pos lo G R F)
    (hP : Stable tokens P) (hR : ∀ m, Stable tokens (R m)) :
    MeetsChoice tokens fuel (parts :: alternatives) pos lo P R F := by
  intro target b b' res hr hb hrun
  simp only [buildChoice] at hrun
  simp only [readChoice]
  cases hrun₁ : buildApart tokens (buildParts tokens (buildRule tokens fuel) parts) target pos b with
  | mk res₁ d =>
    have ha₁ := agrees_apart (parts_agree tokens fuel parts) hr hrun₁
    have hm₁ := meets_apart h₁ hP hR hr hb hrun₁
    rw [show buildApart tokens
      (fun target pos b => buildParts tokens (buildRule tokens fuel) parts target pos b) target pos
        b = (res₁, d) from hrun₁] at hrun
    cases res₁ with
    | exhausted => cases hrun; trivial
    | matched next =>
      cases hrun
      obtain ⟨⟨trees, built, ho, hrest⟩, hR'⟩ := hm₁
      rw [Attempt.orElse_matched ho]
      exact ⟨⟨trees, built, ho, hrest⟩, hR'⟩
    -- what the failed alternative built is dropped; what it leaves behind holds for the next
    | failed =>
      have hm₂ := h₂ hm₁.1 (ha₁.ready hr) hm₁.2 hrun
      rw [Attempt.orElse_failed hm₁.1, Attempt.outcome_reaching]
      cases res with
      | exhausted => trivial
      | failed => exact hm₂
      | matched next =>
        obtain ⟨⟨trees, built, ho, hch, hh⟩, hR'⟩ := hm₂
        exact ⟨⟨trees, built, ho, by rw [hch, ha₁.children], hh⟩, hR'⟩

theorem meets_choice {alternatives : List (List Production)}
    (h : MeetsChoice tokens fuel alternatives pos lo P R F) :
    MeetsPart tokens fuel (.choice alternatives) pos lo P R F := by
  intro target b b' res hr hb hrun
  simp only [buildProduction] at hrun
  simp only [readProduction]
  exact h hr hb hrun

theorem meets_node {kind : Tree.Kind} {alternatives : List (List Production)}
    (h : MeetsChoice tokens fuel alternatives pos lo P R F) (hP : Stable tokens P)
    (hR : ∀ m, Stable tokens (R m)) :
    MeetsPart tokens fuel (.node kind alternatives) pos lo P R F := by
  intro target b b' res hr hb hrun
  have hstart := hr.sane.ready_next kind "" (lineAt tokens pos) pos
  simp only [buildProduction] at hrun
  simp only [readProduction]
  cases hrun₁ : buildChoice tokens (buildRule tokens fuel) alternatives b.next pos
      (b.add kind "" (lineAt tokens pos)) with
  | mk res₁ d =>
    have ha := choice_agrees tokens fuel alternatives hstart hrun₁
    have hm := h hstart (hP ((quiet_add b _ _ _).keeps hr.sane) hb) hrun₁
    simp only [hrun₁] at hrun
    cases res₁ with
    | exhausted => cases hrun; trivial
    | failed => cases hrun; exact ⟨Attempt.outcome_map_eq_failed.mpr hm.1, hm.2⟩
    | matched next =>
      cases hrun
      obtain ⟨⟨trees, built, ho, hch, hh⟩, hR'⟩ := hm
      rw [children_next, List.nil_append] at hch
      rw [← hch] at hh
      rw [Attempt.map_matched ho]
      exact ⟨Whole.added hr ha.leaves hh rfl,
        hR next ((Whole.quiet_added hr ha.leaves).keeps ha.leaves.sane) hR'⟩

theorem meets_optional {p : Production} (h : MeetsPart tokens fuel p pos lo P R F)
    (hF : ∀ b, (readProduction tokens (reading tokens) p pos).outcome = .failed → F b → R pos b) :
    MeetsPart tokens fuel (.optional p) pos lo P R fun _ => False := by
  intro target b b' res hr hb hrun
  simp only [buildProduction] at hrun
  simp only [readProduction]
  cases hrun₁ : buildProduction tokens (buildRule tokens fuel) p target pos b with
  | mk res₁ d =>
    have ha := part_agrees tokens fuel p hr hrun₁
    have hm := h hr hb hrun₁
    simp only [hrun₁] at hrun
    cases res₁ with
    | exhausted => cases hrun; trivial
    | failed =>
      cases hrun
      rw [Attempt.orElse_failed hm.1]
      exact ⟨.nothing ha.children rfl, hF _ hm.1 hm.2⟩
    | matched next =>
      cases hrun
      obtain ⟨⟨trees, built, ho, hrest⟩, hR'⟩ := hm
      rw [Attempt.orElse_matched ho]
      exact ⟨⟨trees, built, ho, hrest⟩, hR'⟩

/-- A loop keeps an assertion about the position it has reached. -/
theorem meets_repeat {parts : List Production} {J : Nat → Builder → Prop} {start : Nat}
    (hstep : ∀ q, start ≤ q →
      MeetsParts tokens fuel parts q lo (J q) (fun m b => q < m ∧ J m b) (R q))
    (hJ : ∀ q, Stable tokens (J q)) (rounds : Nat) :
    ∀ pos, start ≤ pos →
      Meets tokens (buildMany (buildApart tokens (buildParts tokens (buildRule tokens fuel) parts))
          rounds)
        (readMany (readParts tokens (reading tokens) parts) rounds) pos lo (J pos) R
        fun _ => False := by
  -- the induction is on the rounds; the condition for a round moves along with the position
  induction rounds with
  | zero =>
    intro pos _ target b b' res _ _ hrun
    cases hrun
    trivial
  | succ rounds ih =>
    intro pos hle target b b' res hr hb hrun
    have hstable : ∀ m, Stable tokens fun b => pos < m ∧ J m b := fun m => stable_const.and (hJ m)
    simp only [buildMany] at hrun
    simp only [readMany]
    cases hrun₁ : buildApart tokens (buildParts tokens (buildRule tokens fuel) parts) target pos b
      with
    | mk res₁ d =>
      have ha₁ := agrees_apart (parts_agree tokens fuel parts) hr hrun₁
      have hm₁ := meets_apart (hstep pos hle) (hJ pos) hstable hr hb hrun₁
      simp only [hrun₁] at hrun
      cases res₁ with
      | exhausted => cases hrun; trivial
      -- the round that fails is the last one, and adds nothing
      | failed =>
        cases hrun
        simp only [hm₁.1]
        exact ⟨.nothing ha₁.children rfl, hm₁.2⟩
      | matched m =>
        obtain ⟨hwhole, hlt, hJm⟩ := hm₁
        obtain ⟨ts, -, ho, -⟩ := ha₁.grown
        have hne : m ≠ pos := by omega
        have hr' := ha₁.ready hr
        simp only [hne, if_false] at hrun
        simp only [ho, hne, if_false, Attempt.outcome_reaching]
        have ha₂ := agrees_many (agrees_apart (parts_agree tokens fuel parts))
          (limits_parts (readRule_extends fuel) parts) rounds hr' hrun
        have hm₂ := ih m (by omega) hr' hJm hrun
        cases res with
        | exhausted => trivial
        | failed => exact hm₂.2.elim
        | matched next =>
          refine ⟨hwhole.trans hr' ha₂.leaves ha₂.le hm₂.1 ho ?_, hm₂.2⟩
          intro us ho'
          rw [Attempt.outcome_reaching, Attempt.map_matched ho']

theorem meets_many {parts : List Production} {J : Nat → Builder → Prop}
    (hstep : ∀ q, pos ≤ q →
      MeetsParts tokens fuel parts q lo (J q) (fun m b => q < m ∧ J m b) (R q))
    (hJ : ∀ q, Stable tokens (J q)) :
    MeetsPart tokens fuel (.many parts) pos lo (J pos) R fun _ => False := by
  intro target b b' res hr hb hrun
  simp only [buildProduction] at hrun
  simp only [readProduction]
  exact meets_repeat hstep hJ (tokens.size + 1) pos (Nat.le_refl pos) hr hb hrun

end

namespace Builder

variable {b d : Builder}

theorem Free.append {target n x : Nat} (h : b.Free x) (hl : b.arena.Linked)
    (ht : target < b.arena.size) (hne : x ≠ n) : (b.append target n).Free x := by
  refine ⟨h.unclaimed, ?_⟩
  intro p hp
  rw [arena_append, Arena.children_append hl ht] at hp
  rcases List.mem_append.mp hp with hp | hp
  · exact h.alone p (List.mem_of_mem_erase hp)
  · split at hp
    · exact hne (List.mem_singleton.mp hp)
    · cases hp

theorem Free.move {source target x : Nat} (h : b.Free x) (hl : b.arena.Linked)
    (hs : source < b.arena.size) (ht : target < b.arena.size) (hne : source ≠ target)
    (hnot : target ∉ b.arena.children source) : (b.moveChildren source target).Free x := by
  obtain ⟨-, -, -, hch⟩ := Arena.moveChildren_spec hl hs ht hne hnot
  refine ⟨h.unclaimed, ?_⟩
  intro p hp
  rw [arena_moveChildren, hch] at hp
  split at hp
  · rcases List.mem_append.mp hp with hp | hp
    · exact h.alone _ hp
    · exact h.alone _ hp
  · split at hp
    · cases hp
    · exact h.alone p hp

/-- A node that is appended keeps its own tree. -/
theorem Quiet.holds_appended {target n lo hi : Nat} {t : Tree} (hs : b.Sane tokens)
    (ht : target < b.arena.size) (hf : b.Free target) (hn : b.Loose n) (hne : n ≠ target)
    (hh : b.arena.Holds (b.Within lo hi) n t) :
    (b.append target n).arena.Holds ((b.append target n).Within lo hi) n t := by
  have hq := quiet_append hs.linked ht hf hn
  have hself : (b.append target n).arena.children n = b.arena.children n := by
    rw [arena_append, Arena.children_append hs.linked ht, if_neg hne, List.append_nil,
      List.erase_of_not_mem (hs.linked.irrefl n)]
  cases t with
  | node kind text evaluated line children =>
    rw [Arena.Holds] at hh ⊢
    rw [arena_append, Arena.info?_append, ← arena_append, hself]
    exact ⟨hh.1, hq.holdsAll_children hs.linked hh.2⟩

theorem holds_add {n lo hi : Nat} {t : Tree} (hl : b.arena.Linked) (kind : Tree.Kind)
    (text : String) (line : Nat) (hh : b.arena.Holds (b.Within lo hi) n t) :
    (b.add kind text line).arena.Holds ((b.add kind text line).Within lo hi) n t := by
  refine Arena.Holds.transfer (P := fun x => x < b.arena.size)
    (fun x _ hx => (quiet_add b kind text line).info x hx) ?_ ?_ hh.lt_size hh
  · intro x _ _
    rw [arena_add, Arena.children_add]
  · intro x c _ hc hi
    exact ⟨hl.lt_size hc, hi⟩

theorem Free.add {x : Nat} (h : b.Free x) (kind : Tree.Kind) (text : String) (line : Nat) :
    (b.add kind text line).Free x := by
  refine ⟨h.unclaimed, ?_⟩
  simpa using h.alone

/-- The node that the next suffix wraps holds its tree, and is in no other tree. -/
structure Topped (d : Builder) (lo next node : Nat) (t : Tree) : Prop where
  holds : d.arena.Holds (d.Within lo next) node t
  within : d.Within lo next node
  loose : d.Free node ∨ ∃ p, p < d.arena.size ∧ d.Free p ∧ node ∈ d.arena.children p ∧
    ∀ c ∈ d.arena.children p, ∀ q, d.Claims c q → q < next

variable {lo next node : Nat} {t : Tree}

theorem Topped.isLoose (h : Topped d lo next node t) (hl : d.arena.Linked) : d.Loose node := by
  rcases h.loose with hf | ⟨p, -, hf, hm, -⟩
  · exact hf.loose
  · intro x hx
    rw [← hl.unique hm hx]
    exact hf

/-- While a suffix is built, the node before it stays as it is. -/
theorem Topped.leaves {done : Builder} {line reach : Nat} (h : Topped d lo next node t)
    (hl : Leaves tokens (d.add .temporary "" line) done d.next next reach) (hs : d.Sane tokens) :
    Topped done lo next node t ∧ node ∉ done.arena.children d.next := by
  have hlt := h.holds.lt_size
  have hadd : (d.add .temporary "" line).Sane tokens := hs.add _ _ _
  have hnext := hs.free_next .temporary "" line
  have hsize : (d.add .temporary "" line).arena.size = d.arena.size + 1 := by simp
  have hne : node ≠ d.next := Nat.ne_of_lt hlt
  have hholds := holds_add hs.linked .temporary "" line h.holds
  -- nothing that was there is claimed anew, so the node stays within its bounds
  have hwithin : done.Within lo next node := by
    intro q hq
    exact h.within q (hl.frame.old hq (by omega))
  -- the children of an old node stay, unless one of them is claimed from `next` on
  have hkeep : ∀ p, p < d.arena.size → (∀ c ∈ d.arena.children p, ∀ q, d.Claims c q → q < next) →
      done.arena.children p = d.arena.children p := by
    intro p hp hset
    rw [hl.frame.children p (by omega) (Nat.ne_of_lt hp), arena_add, Arena.children_add]
    rw [arena_add, Arena.children_add]
    rintro c hc ⟨q, hq, hcl⟩
    have := hset c hc q hcl
    omega
  have hfree : ∀ x, x < d.arena.size → d.Free x → done.Free x := by
    intro x hx hf
    exact hl.frame.free x (by omega) (hf.add _ _ _)
  refine ⟨⟨hl.holds hadd hnext (Nat.le_refl _) ⟨by omega, hne⟩ hholds, hwithin, ?_⟩, ?_⟩
  · rcases h.loose with hf | ⟨p, hp, hf, hm, hset⟩
    · exact Or.inl (hfree node hlt hf)
    · refine Or.inr ⟨p, ?_, hfree p hp hf, ?_, ?_⟩
      · have := hl.frame.size_le
        omega
      · rw [hkeep p hp hset]
        exact hm
      · rw [hkeep p hp hset]
        intro c hc q hq
        have hcs := hs.linked.lt_size hc
        exact hset c hc q (hl.frame.old hq (Nat.lt_of_lt_of_le hcs (by omega)))
  -- a node with a parent is a child of that one alone
  · intro hmem
    rcases h.loose with hf | ⟨p, hp, -, hm, hset⟩
    · exact (hfree node hlt hf).alone _ hmem
    · have : p = d.next := hl.sane.linked.unique (by rw [hkeep p hp hset]; exact hm) hmem
      exact absurd this (Nat.ne_of_lt hp)

/-- A new expression has the node before a suffix as its only child, and the parts of the suffix
still stand below the node where they were built. -/
structure Taken (tokens : Array Token) (v : Builder) (source wrapped lo m node : Nat) (t : Tree)
    (parts : List Tree) : Prop where
  sane : v.Sane tokens
  source_lt : source < v.arena.size
  wrapped_lt : wrapped < v.arena.size
  ne : source ≠ wrapped
  source_free : v.Free source
  wrapped_free : v.Free wrapped
  info : v.arena.info? wrapped = some (.expression, "", false, t.line)
  children : v.arena.children wrapped = [node]
  within : v.Within lo m node
  holds : v.arena.Holds (v.Within lo m) node t
  parts : v.arena.HoldsAll (v.Within lo m) (v.arena.children source) parts

/-- A new expression takes the node before a suffix from wherever it is. -/
theorem Topped.take {done : Builder} {source m : Nat} {parts : List Tree}
    (h : Topped done lo next node t) (hs : done.Sane tokens) (hle : next ≤ m)
    (hroot : node ≠ root) (hsource : source < done.arena.size) (hfree : done.Free source)
    (hne : node ≠ source) (hnot : node ∉ done.arena.children source)
    (hh : done.arena.HoldsAll (done.Within lo m) (done.arena.children source) parts) :
    let v := (done.add .expression "" (done.arena.line node)).append done.next node
    Taken tokens v source done.next lo m node t parts ∧ Keeps tokens 0 0 done v := by
  intro v
  have hlt := h.holds.lt_size
  have hnn : node ≠ done.next := Nat.ne_of_lt hlt
  have hsn : source ≠ done.next := Nat.ne_of_lt hsource
  let w := done.add .expression "" (done.arena.line node)
  have hw : w.Sane tokens := hs.add _ _ _
  have hwch : ∀ x, w.arena.children x = done.arena.children x := by
    intro x
    simp only [w, arena_add, Arena.children_add]
  have hwfree : w.Free done.next := hs.free_next .expression "" (done.arena.line node)
  have hnlt : done.next < w.arena.size := (hs.ready_next _ _ _ next).lt
  have hloose : w.Loose node := by
    intro p hp
    rw [hwch] at hp
    exact (h.isLoose hs.linked p hp).add _ _ _
  have hq₁ : Quiet done w := quiet_add done _ _ _
  -- a new expression is added, and then the node is moved under it
  have hq₂ : Quiet w v := quiet_append hw.linked hnlt hwfree hloose
  obtain ⟨hv, hvsize, hvch⟩ : v.Sane tokens ∧ v.arena.size = done.arena.size + 1 ∧
      ∀ x, v.arena.children x =
        (done.arena.children x).erase node ++ if x = done.next then [node] else [] :=
    take_spec hs .expression "" (done.arena.line node) hlt hroot
  -- the source loses nothing, since the node is not one of its children
  have hvsource : v.arena.children source = w.arena.children source := by
    rw [hvch, if_neg hsn, List.append_nil, List.erase_of_not_mem hnot, hwch]
  have hparts : w.arena.HoldsAll (w.Within lo m) (w.arena.children source) parts := by
    rw [hwch]
    exact hq₁.holdsAll_children hs.linked hh
  have hwithin : done.Within lo m node := by
    intro q hq
    have := h.within q hq
    omega
  have hnode : v.arena.Holds (v.Within lo m) node t := by
    refine (Quiet.holds_appended hw hnlt hwfree hloose hnn
      (holds_add hs.linked .expression "" (done.arena.line node) h.holds)).mono ?_
    intro x hx q hq
    have := hx q hq
    omega
  refine ⟨⟨hv, by omega, ?_, hsn, (hfree.add _ _ _).append hw.linked hnlt hne.symm,
    hwfree.append hw.linked hnlt hnn.symm, ?_, ?_, hq₂.within (hq₁.within hwithin), hnode, ?_⟩,
    (hq₁.keeps hs).trans (hq₂.keeps hw)⟩
  · rw [hvsize, next_eq]
    exact Nat.lt_succ_self _
  · simp only [v, arena_append, Arena.info?_append, arena_add, Arena.info?_add, next_eq, if_true,
      h.holds.line_eq]
  · rw [hvch, if_pos rfl, next_eq, Arena.children_of_size_le (Nat.le_refl _)]
    rfl
  · rw [hvsource]
    exact hq₂.holdsAll_children hw.linked hparts

/-- The parts of the suffix follow the node that was taken. -/
theorem Taken.move {v : Builder} {source wrapped m : Nat} {parts : List Tree}
    (h : Taken tokens v source wrapped lo m node t parts) :
    Topped (v.moveChildren source wrapped) lo m wrapped
        (.branch .expression t.line (t :: parts)) ∧
      Quiet v (v.moveChildren source wrapped) := by
  have hl := h.sane.linked
  have hq := quiet_move hl h.source_lt h.wrapped_lt h.ne h.source_free h.wrapped_free
  obtain ⟨-, -, hinfo, hmoved⟩ :=
    Arena.moveChildren_spec hl h.source_lt h.wrapped_lt h.ne (h.wrapped_free.alone source)
  have hchildren : (v.moveChildren source wrapped).arena.children wrapped =
      node :: v.arena.children source := by
    rw [arena_moveChildren, hmoved, if_pos rfl, h.children, List.singleton_append]
  have hdown : node < v.arena.size ∧ ¬ v.Free node :=
    Quiet.down hl (x := wrapped) (by rw [h.children]; exact List.mem_singleton.mpr rfl)
  refine ⟨⟨?_, ?_, Or.inl ?_⟩, hq⟩
  · rw [Tree.branch, Arena.Holds, hchildren, Arena.HoldsAll, arena_moveChildren, hinfo, h.info]
    exact ⟨rfl, hq.within h.within, hq.holds hl hdown h.holds, hq.holdsAll_children hl h.parts⟩
  · intro q hcl
    exact absurd ⟨q, hq.claims_iff.mp hcl⟩ h.wrapped_free.unclaimed
  · exact h.wrapped_free.move hl h.source_lt h.wrapped_lt h.ne (h.wrapped_free.alone source)

/-- The tree of a suffix together with what is before it. -/
theorem Topped.wrap {done : Builder} {source m : Nat} {parts : List Tree}
    (h : Topped done lo next node t) (hs : done.Sane tokens) (hle : next ≤ m)
    (hroot : node ≠ root) (hsource : source < done.arena.size) (hfree : done.Free source)
    (hne : node ≠ source) (hnot : node ∉ done.arena.children source)
    (hh : done.arena.HoldsAll (done.Within lo m) (done.arena.children source) parts) :
    let wrapped := ((done.add .expression "" (done.arena.line node)).append done.next
      node).moveChildren source done.next
    Topped wrapped lo m done.next (.branch .expression t.line (t :: parts)) ∧
      Keeps tokens 0 0 done wrapped := by
  obtain ⟨htaken, hkeeps⟩ := h.take hs hle hroot hsource hfree hne hnot hh
  obtain ⟨htopped, hquiet⟩ := htaken.move
  exact ⟨htopped, hkeeps.trans (hquiet.keeps htaken.sane)⟩

/-- The node of a rule that the table holds, appended to the target: its tree is whole from the
position on, though the nodes below it may be claimed from later on only. -/
theorem Held.whole {b b' : Builder} {r : Rule} {target pos next node : Nat} {t : Tree}
    (h : b'.Held tokens r pos) (he : b'.lookup? r pos = some (.matched next node))
    (ho : (reading tokens r pos).outcome = .matched [t] next)
    (hch : b'.arena.children target = b.arena.children target ++ [node])
    (hclaims : b'.Within pos next node) : Whole b b' target pos next (reading tokens r pos) := by
  obtain ⟨e, n, u, he', ho', hh⟩ := h
  rw [he] at he'
  cases he'
  rw [ho] at ho'
  cases ho'
  refine ⟨[t], [node], ho, hch, hclaims, hh.mono ?_, trivial⟩
  intro x hx q hq
  have := hx q hq
  have := r.le_low pos
  omega

end Builder

section

variable {fuel pos lo : Nat} {P : Builder → Prop} {R : Nat → Builder → Prop} {F : Builder → Prop}

theorem meets_suffixes {suffix : Production} {J : Nat → Builder → Prop} {start : Nat}
    (hstep : ∀ q, start ≤ q → MeetsPart tokens fuel suffix q lo (J q) J (R q))
    (hJ : ∀ q, Stable tokens (J q)) (hR : ∀ q, Stable tokens (R q)) {target : Nat} {b : Builder}
    (hr : b.Ready tokens target pos) (rounds : Nat) :
    ∀ {d b' : Builder} {res : Result} {next reach node : Nat} {t : Tree},
      InHand tokens b d target pos next reach node → Topped d lo next node t → start ≤ next →
      J next d →
      buildSuffixes tokens (buildProduction tokens (buildRule tokens fuel) suffix) rounds node
        target next d = (res, b') →
      match res with
      | .exhausted => True
      | .failed => False
      | .matched last =>
        Whole b b' target lo last
          (readSuffixes (readProduction tokens (reading tokens) suffix) rounds t next) ∧
          R last b' := by
  -- the induction is on the rounds, each of which wraps the node in hand once more
  induction rounds with
  | zero =>
    intro d b' res next reach node t _ _ _ _ hrun
    cases hrun
    trivial
  | succ rounds ih =>
    intro d b' res next reach node t hh htop hle hb hrun
    have hd := hh.ready hr
    have hstart := hd.sane.ready_next .temporary "" (lineAt tokens next) next
    simp only [buildSuffixes] at hrun
    simp only [readSuffixes]
    cases hrun₁ : buildProduction tokens (buildRule tokens fuel) suffix d.next next
        (d.add .temporary "" (lineAt tokens next)) with
    | mk res₁ done =>
      have ha := part_agrees tokens fuel suffix hstart hrun₁
      have hm := hstep next hle hstart (hJ next ((quiet_add d _ _ _).keeps hd.sane) hb) hrun₁
      simp only [hrun₁] at hrun
      cases res₁ with
      | exhausted => cases hrun; trivial
      -- without a further suffix the node in hand is the chain, and goes to the target
      | failed =>
        cases hrun
        simp only [hm.1]
        have hleaves := ha.leaves.since_add hd.sane target
        obtain ⟨htop', -⟩ := htop.leaves ha.leaves hd.sane
        have htlt := hleaves.lt hd
        have htfree := hleaves.free hd
        have hloose := htop'.isLoose hleaves.sane.linked
        have hq := quiet_append hleaves.sane.linked htlt htfree hloose
        refine ⟨⟨[t], [node], rfl, (hh.keep hr ha).children_append hr, hq.within htop'.within, ?_,
          trivial⟩, hR next (hq.keeps hleaves.sane) hm.2⟩
        exact Quiet.holds_appended hleaves.sane htlt htfree hloose (hh.ne_target hr) htop'.holds
      | matched m =>
        obtain ⟨⟨parts, built, ho, hch, hbuilt⟩, hJm⟩ := hm
        simp only [ho]
        have hleaves := ha.leaves.since_add hd.sane target
        obtain ⟨htop', hnot⟩ := htop.leaves ha.leaves hd.sane
        have hne : node ≠ d.next := Nat.ne_of_lt hh.lt
        rw [children_next, List.nil_append] at hch
        rw [← hch] at hbuilt
        obtain ⟨hwrap, hkeeps⟩ := htop'.wrap hleaves.sane ha.le hh.ne_root (ha.leaves.lt hstart)
          (ha.leaves.free hstart) hne hnot hbuilt
        exact ih (hh.wrap hr ha) hwrap (Nat.le_trans hle ha.le) (hJ m hkeeps hJm) hrun

/-- A head with suffixes. The assertion `J` holds after the head and after every suffix. -/
theorem meets_chain {head suffix : Production} {J : Nat → Builder → Prop}
    (hhead : MeetsPart tokens fuel head pos lo P J F)
    (hstep : ∀ q, pos ≤ q → MeetsPart tokens fuel suffix q lo (J q) J (R q))
    (hJ : ∀ q, Stable tokens (J q)) (hR : ∀ q, Stable tokens (R q)) (hP : Stable tokens P)
    (hone : ∀ ts m, (readProduction tokens (reading tokens) head pos).outcome = .matched ts m →
      ts ≠ []) :
    MeetsPart tokens fuel (.chain head suffix) pos lo P R F := by
  intro target b b' res hr hb hrun
  have hstart := hr.sane.ready_next .temporary "" (lineAt tokens pos) pos
  simp only [buildProduction] at hrun
  simp only [readProduction]
  cases hrun₁ : buildProduction tokens (buildRule tokens fuel) head b.next pos
      (b.add .temporary "" (lineAt tokens pos)) with
  | mk res₁ d =>
    have ha := part_agrees tokens fuel head hstart hrun₁
    have hm := hhead hstart (hP ((quiet_add b _ _ _).keeps hr.sane) hb) hrun₁
    simp only [hrun₁] at hrun
    cases res₁ with
    | exhausted => cases hrun; trivial
    | failed =>
      cases hrun
      rw [Attempt.andThen_failed hm.1]
      exact hm
    | matched next =>
      obtain ⟨⟨trees, built, ho, hch, hh⟩, hJn⟩ := hm
      rw [children_next, List.nil_append] at hch
      obtain ⟨_, -, -, -, hset, -⟩ := ha.since_add
      -- a head gives at least one tree, the first of which is taken in hand
      cases trees with
      | nil => exact absurd rfl (hone _ _ ho)
      | cons t ts =>
        cases built with
        | nil => simp [Arena.HoldsAll] at hh
        | cons node others =>
          have hmem : node ∈ d.arena.children b.next := by
            rw [hch]
            exact List.mem_cons_self
          have hin := ha.inHand hr (by rw [hch]; rfl)
          have htopped : Topped d lo next node t :=
            ⟨hh.2.1, hh.1, Or.inr ⟨b.next, ha.leaves.lt hstart, ha.leaves.free hstart, hmem, hset⟩⟩
          simp only [Arena.child?, hch, List.getElem?_cons_zero] at hrun
          have hm₂ := meets_suffixes hstep hJ hR hr (tokens.size + 1) hin htopped ha.le hJn hrun
          rw [Attempt.andThen_matched ho]
          cases res with
          | exhausted => trivial
          | failed => exact hm₂.elim
          | matched last => exact hm₂

theorem meets_part_rule {r : Rule} (h : MeetsRule tokens fuel r pos lo P R F) :
    MeetsPart tokens fuel (.rule r) pos lo P R F := by
  intro target b b' res hr hb hrun
  simp only [buildProduction] at hrun
  simp only [readProduction]
  exact h hr hb hrun

/-- A rule that is not tabled is built as its production. -/
theorem meets_rule {r : Rule} (ht : r.isTabled = false)
    (h : MeetsPart tokens fuel (production r) pos lo P R F) :
    MeetsRule tokens (fuel + 1) r pos lo P R F := by
  intro target b b' res hr hb hrun
  simp only [buildRule, ht, Bool.false_eq_true, if_false] at hrun
  rw [reading_eq]
  exact h hr hb hrun

/-- A rule whose tree the table holds. Only trees that its node is part of can suffer. -/
theorem meets_hit {r : Rule} (ht : r.isTabled = true) (hP : ∀ b, P b → b.Held tokens r pos)
    (hR : ∀ b b' ts next, (reading tokens r pos).outcome = .matched ts next → P b →
      (∀ r' q, pos < r'.low q ∨ (r' = r ∧ q = pos) → b.Held tokens r' q → b'.Held tokens r' q) →
      (∀ q, b.Vacant q → b'.Vacant q) → R next b') :
    MeetsRule tokens (fuel + 1) r pos pos P R fun _ => False := by
  intro target b b' res hr hb hrun
  obtain ⟨next, node, t, he, ho, hh⟩ := hP b hb
  have hin : InHand tokens b b target pos next _ node := inHand_hit hr.sane he
  simp only [buildRule, ht, if_true, he] at hrun
  cases hrun
  have hheld : ∀ r' q, pos < r'.low q ∨ (r' = r ∧ q = pos) → b.Held tokens r' q →
      (b.append target node).Held tokens r' q := by
    intro r' q hout hq
    exact hq.hit hr.sane hr.lt hr.free he hout
  refine ⟨(hheld r pos (Or.inr ⟨rfl, rfl⟩) (hP b hb)).whole he ho (hin.children_append hr) ?_,
    hR b _ [t] next ho hb hheld fun _ hs => hs⟩
  intro q hq
  obtain ⟨rfl, hlt⟩ := hin.claims q hq
  exact ⟨Nat.le_refl _, hlt⟩

/-- A rule that is recorded at a position keeps the trees that are held already. -/
theorem keeps_recorded {r : Rule} {d : Builder} {target next node : Nat} {t : Tree}
    (hs : d.Sane tokens) (ht : target < d.arena.size) (hf : d.Free target)
    (hnode : node < d.arena.size) (hbusy : ¬ d.Free node) (hloose : d.Loose node)
    (ho : (reading tokens r pos).outcome = .matched [t] next)
    (hh : d.arena.Holds (d.Within (r.low pos) next) node t) :
    let done := (d.record r pos (.matched next node)).append target node
    done.Held tokens r pos ∧ Keeps tokens 0 (pos + 1) d done := by
  intro done
  have hq : Quiet d (d.append target node) := quiet_append hs.linked ht hf hloose
  have hclaims : ∀ {c q : Nat}, c ≠ node → done.Claims c q → d.Claims c q := by
    intro c q hne hc
    rcases claims_record hc with hc | ⟨-, next', he⟩
    · exact hc
    · cases he
      exact absurd rfl hne
  -- the tree of another node does not have the recorded one in it
  have hdown : ∀ {x c : Nat}, ¬ d.Free x → c ∈ d.arena.children x → c ≠ node := by
    rintro x c hx hc rfl
    exact hx (hloose x hc)
  have hnew : done.Held tokens r pos := by
    refine ⟨next, node, t, ?_, ho, ?_⟩
    · show (d.record r pos (.matched next node)).lookup? r pos = _
      rw [lookup?_record, if_pos ⟨rfl, rfl⟩]
    · refine Arena.Holds.transfer (P := fun x => x < d.arena.size ∧ ¬ d.Free x)
        (fun x _ hx => hq.info x hx.1) (fun x hx _ => hq.children x hx.1 hx.2) ?_ ⟨hnode, hbusy⟩ hh
      intro x c hx hc hi
      exact ⟨Quiet.down hs.linked hc, fun q hcl => hi q (hclaims (hdown hx.2 hc) hcl)⟩
  refine ⟨hnew, ⟨?_, ?_⟩⟩
  · rintro r' q - ⟨e, n, u, he, ho', hh'⟩
    by_cases hsame : r' = r ∧ q = pos
    · rw [hsame.1, hsame.2]
      exact hnew
    · have hc : d.Claims n q := ⟨r', e, he⟩
      refine ⟨e, n, u, ?_, ho', ?_⟩
      · show (d.record r pos (.matched next node)).lookup? r' q = _
        rw [lookup?_record, if_neg hsame]
        exact he
      · refine Arena.Holds.transfer (P := fun x => x < d.arena.size ∧ ¬ d.Free x)
          (fun x _ hx => hq.info x hx.1) (fun x hx _ => hq.children x hx.1 hx.2) ?_
          ⟨hs.lt_size hc, fun hfree => hfree.unclaimed ⟨q, hc⟩⟩ hh'
        intro x c hx hc hi
        exact ⟨Quiet.down hs.linked hc, fun q hcl => hi q (hclaims (hdown hx.2 hc) hcl)⟩
  · intro q hle hvacant r' e n he
    have he' : (d.record r pos (.matched next node)).lookup? r' q = some (.matched e n) := he
    rw [lookup?_record] at he'
    split at he'
    · rename_i heq
      omega
    · exact hvacant r' e n he'

/-- A rule that is built for the first time at a position. -/
theorem meets_record {r : Rule} {S : Nat → Builder → Prop}
    (ht : r.isTabled = true) (hvacant : ∀ b, P b → b.Vacant pos)
    (h : MeetsPart tokens fuel (production r) pos (r.low pos) P S fun _ => True)
    (hP : Stable tokens P)
    (hR : ∀ b b' ts next, (reading tokens r pos).outcome = .matched ts next → S next b →
      Keeps tokens 0 (pos + 1) b b' → b'.Held tokens r pos → R next b') :
    MeetsRule tokens (fuel + 1) r pos pos P R fun _ => True := by
  intro target b b' res hr hb hrun
  have hstart := hr.sane.ready_next .temporary "" (lineAt tokens pos) pos
  simp only [buildRule, ht, if_true] at hrun
  -- a vacant position has no match in the table
  cases he : b.lookup? r pos with
  | some entry =>
    cases entry with
    | failed =>
      simp only [he] at hrun
      cases hrun
      exact ⟨(hr.sane.failed he).1, trivial⟩
    | matched e n => exact absurd he (hvacant b hb r e n)
  | none =>
  simp only [he, buildRecorded] at hrun
  cases hrun₁ : buildProduction tokens (buildRule tokens fuel) (production r) b.next pos
      (b.add .temporary "" (lineAt tokens pos)) with
  | mk res₁ d =>
    have ha := part_agrees tokens fuel (production r) hstart hrun₁
    have hm := h hstart (hP ((quiet_add b _ _ _).keeps hr.sane) hb) hrun₁
    rw [← reading_eq] at ha hm
    simp only [hrun₁] at hrun
    cases res₁ with
    | exhausted => cases hrun; trivial
    | failed => cases hrun; exact ⟨hm.1, trivial⟩
    | matched next =>
      obtain ⟨⟨trees, built, ho, hch, hh⟩, hS⟩ := hm
      rw [children_next, List.nil_append] at hch
      obtain ⟨t, rfl⟩ := reading_single ht ho
      -- a tabled rule reads one tree, so one node was built for it
      obtain ⟨node, rfl⟩ : ∃ node, built = [node] := List.length_eq_one_iff.mp hh.length_eq
      simp only [Arena.child?, hch, List.getElem?_cons_zero] at hrun
      cases hrun
      have hmem : node ∈ d.arena.children b.next := by
        rw [hch]
        exact List.mem_cons_self
      have hlt : pos < next := (reading_proper r pos).moves ho (Rule.takes_of_isTabled ht)
      have hin := (ha.inHand hr (by rw [hch]; rfl)).record he ho hlt
      have hleaves := ha.leaves.since_add hr.sane target
      have hloose : d.Loose node := by
        intro p hp
        rw [← hleaves.sane.linked.unique hmem hp]
        exact ha.leaves.free hstart
      obtain ⟨hheld, hkeeps⟩ := keeps_recorded hleaves.sane (hleaves.lt hr) (hleaves.free hr)
        (hleaves.sane.linked.lt_size hmem) (fun hf => hf.alone _ hmem) hloose ho hh.2.1
      refine ⟨hheld.whole ?_ ho (hin.children_append hr) ?_, hR d _ [t] next ho hS hkeeps hheld⟩
      · rw [lookup?_append, lookup?_record, if_pos ⟨rfl, rfl⟩]
      · intro q hq
        obtain ⟨rfl, hlt'⟩ := hin.claims q hq
        exact ⟨Nat.le_refl _, hlt'⟩

end

end ScriptKit.Grammar
