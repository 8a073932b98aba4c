import ScriptKit.Proofs.Grammar.Outcomes

namespace ScriptKit.Grammar

open Builder

variable {tokens : Array Token}

/-- The next token at a position is of a kind. -/
def At (tokens : Array Token) (kind : Token.Kind) (e : Nat) : Prop :=
  nextIs kind none (tokenAt? tokens e) = true

theorem At.eq {k k' : Token.Kind} {e : Nat} (h : At tokens k e) (h' : At tokens k' e) : k = k' := by
  unfold At at h h'
  cases ht : tokenAt? tokens e with
  | none => rw [ht] at h; cases h
  | some t =>
    rw [ht] at h h'
    simp only [nextIs, accepts, Option.all_none, Bool.and_true, decide_eq_true_eq] at h h'
    exact h.symm.trans h'

theorem At.starts {k : Token.Kind} {e : Nat} (h : At tokens k e) {r : Rule}
    (hr : ∀ t : Token, t.kind = k → r.starts (some t) = false) :
    r.starts (tokenAt? tokens e) = false := by
  unfold At at h
  cases ht : tokenAt? tokens e with
  | none => rw [ht] at h; cases h
  | some t =>
    rw [ht] at h
    simp only [nextIs, accepts, Option.all_none, Bool.and_true, decide_eq_true_eq] at h
    exact hr t h

theorem at_of_accepts {kind : Token.Kind} {text : Option String} {e : Nat} {t : Token}
    (ht : tokenAt? tokens e = some t) (h : accepts kind text t = true) : At tokens kind e := by
  unfold At
  rw [ht]
  simp only [accepts, Bool.and_eq_true, decide_eq_true_eq] at h
  simp [nextIs, accepts, h.1]

/-- The position after the next token. -/
def after (tokens : Array Token) (e : Nat) : Nat := skip tokens e + 1

theorem lt_after (tokens : Array Token) (e : Nat) : e < after tokens e := by
  have := le_skip tokens e
  unfold after
  omega

/-- An operator or a comparator stands between two operands. -/
def Separated (tokens : Array Token) (e : Nat) : Prop :=
  At tokens .operator e ∨ At tokens .comparator e

namespace Builder

variable {b b' : Builder} {s e : Nat}

/-- The trees of an operand are held, and of the function it begins with if it does. -/
def Kept (tokens : Array Token) (b : Builder) (s : Nat) : Prop :=
  b.Held tokens .suffixed s ∧ (Matches tokens .function s → b.Held tokens .function s)

/-- After an operand that a bracket follows which is none of its suffixes: either nothing was
found behind the bracket, or an expression with a comma after it. -/
structure Bracket (tokens : Array Token) (b : Builder) (e : Nat) : Prop where
  vacant : b.Vacant e
  empty : At tokens .rightBracket (after tokens e) → b.Fresh e
  more : ∀ {ts j}, (reading tokens .expression (after tokens e)).outcome = .matched ts j →
    At tokens .comma j → b.Held tokens .expression (after tokens e) ∧ b.Fresh j

/-- A statement that begins with an array whose first item was read already, as a suffix of what
is before it. -/
def Island (tokens : Array Token) (b : Builder) (s : Nat) : Prop :=
  At tokens .leftBracket s ∧ b.Vacant s ∧
    ∃ ts j, (reading tokens .expression (after tokens s)).outcome = .matched ts j ∧
      At tokens .comma j ∧ b.Held tokens .expression (after tokens s) ∧ b.Fresh j

/-- What is known behind an operand, by the token that follows it. -/
structure Edge (tokens : Array Token) (b : Builder) (e : Nat) : Prop where
  stop : ¬ At tokens .leftParen e → ¬ At tokens .leftBracket e → ¬ At tokens .assignment e →
    ¬ Separated tokens e → b.Fresh e
  assign : At tokens .assignment e → Matches tokens .suffixed (after tokens e) → b.Fresh e
  bracket : At tokens .leftBracket e → b.Bracket tokens e

/-- The states in which a chain of operands is read: for the first time, or again. -/
inductive Poised (tokens : Array Token) (b : Builder) : Nat → Prop
  | fresh {s : Nat} (h : b.Fresh s) : Poised tokens b s
  | island {s : Nat} (h : b.Island tokens s) : Poised tokens b s
  | kept {s e : Nat} {ts : List Tree} (hk : b.Kept tokens s)
    (ho : (reading tokens .suffixed s).outcome = .matched ts e) (edge : b.Edge tokens e)
    (sep : Separated tokens e → Matches tokens .suffixed (after tokens e) →
      Poised tokens b (after tokens e)) : Poised tokens b s

/-- What is known behind an operand or a chain of operands. -/
structure Ahead (tokens : Array Token) (b : Builder) (e : Nat) : Prop where
  edge : b.Edge tokens e
  sep : Separated tokens e → Matches tokens .suffixed (after tokens e) →
    b.Poised tokens (after tokens e)

/-- The operands of a chain from one position to another are all held. -/
inductive Seg (tokens : Array Token) (b : Builder) : Nat → Nat → Prop
  | last {s e : Nat} {ts : List Tree} (hk : b.Kept tokens s)
    (ho : (reading tokens .suffixed s).outcome = .matched ts e) : Seg tokens b s e
  | link {s e m : Nat} {ts : List Tree} (hk : b.Kept tokens s)
    (ho : (reading tokens .suffixed s).outcome = .matched ts e) (hs : Separated tokens e)
    (rest : Seg tokens b (after tokens e) m) : Seg tokens b s m

section Keeps

variable {j k : Nat}

theorem Kept.keeps (h : b.Kept tokens s) (hk : Keeps tokens j k b b') (hj : j ≤ s) :
    b'.Kept tokens s :=
  ⟨hk.held _ s hj h.1, fun hm => hk.held _ s hj (h.2 hm)⟩

theorem Bracket.keeps (h : b.Bracket tokens e) (hk : Keeps tokens j k b b') (hj : j ≤ e)
    (hke : k ≤ e) : b'.Bracket tokens e where
  vacant := hk.vacant e hke h.vacant
  empty := fun he => hk.fresh hke (h.empty he)
  more := by
    intro ts i ho hc
    obtain ⟨hheld, hfresh⟩ := h.more ho hc
    have hlt := lt_after tokens e
    have hle := (reading_proper _ _).forward ho
    exact ⟨hk.held _ _ (by omega) hheld, hk.fresh (by omega) hfresh⟩

theorem Island.keeps (h : b.Island tokens s) (hk : Keeps tokens j k b b') (hj : j ≤ s)
    (hks : k ≤ s) : b'.Island tokens s := by
  obtain ⟨hb, hv, ts, i, ho, hc, hheld, hfresh⟩ := h
  have hlt := lt_after tokens s
  have hle := (reading_proper _ _).forward ho
  exact ⟨hb, hk.vacant s hks hv, ts, i, ho, hc, hk.held _ _ (by omega) hheld,
    hk.fresh (by omega) hfresh⟩

theorem Edge.keeps (h : b.Edge tokens e) (hk : Keeps tokens j k b b') (hj : j ≤ e)
    (hke : k ≤ e) : b'.Edge tokens e where
  stop := fun h₁ h₂ h₃ h₄ => hk.fresh hke (h.stop h₁ h₂ h₃ h₄)
  assign := fun h₁ h₂ => hk.fresh hke (h.assign h₁ h₂)
  bracket := fun hb => (h.bracket hb).keeps hk hj hke

theorem Poised.keeps (h : b.Poised tokens s) (hk : Keeps tokens j k b b') (hj : j ≤ s)
    (hks : k ≤ s) : b'.Poised tokens s := by
  induction h with
  | fresh h => exact .fresh (hk.fresh hks h)
  | island h => exact .island (h.keeps hk hj hks)
  | @kept s e ts hkept ho edge sep ih =>
    have hlt := (reading_proper .suffixed s).moves ho rfl
    have hlt' := lt_after tokens e
    exact .kept (hkept.keeps hk hj) ho (edge.keeps hk (by omega) (by omega))
      fun h₁ h₂ => ih h₁ h₂ (by omega) (by omega)

theorem Ahead.keeps (h : b.Ahead tokens e) (hk : Keeps tokens j k b b') (hj : j ≤ e)
    (hke : k ≤ e) : b'.Ahead tokens e := by
  have hlt := lt_after tokens e
  exact ⟨h.edge.keeps hk hj hke,
    fun h₁ h₂ => (h.sep h₁ h₂).keeps hk (by omega) (by omega)⟩

theorem Seg.keeps {m : Nat} (h : b.Seg tokens s m) (hk : Keeps tokens j k b b') (hj : j ≤ s) :
    b'.Seg tokens s m := by
  induction h with
  | last hkept ho => exact .last (hkept.keeps hk hj) ho
  | @link s e m ts hkept ho hs rest ih =>
    have hlt := (reading_proper .suffixed s).moves ho rfl
    have hlt' := lt_after tokens e
    exact .link (hkept.keeps hk hj) ho hs (ih (by omega))

end Keeps

/-- An operand that ends before a position stays while more is built from there on. -/
theorem Kept.leaves {m target reach : Nat} {ts : List Tree} (h : b.Kept tokens s)
    (ho : (reading tokens .suffixed s).outcome = .matched ts e) (hle : e ≤ m)
    (hr : b.Ready tokens target m) (hl : Leaves tokens b b' target m reach) :
    b'.Kept tokens s := by
  refine ⟨h.1.leaves hl hr.sane hr.free ho hle, ?_⟩
  rintro ⟨us, f, hf⟩
  have := function_le_suffixed hf ho
  exact (h.2 ⟨us, f, hf⟩).leaves hl hr.sane hr.free hf (by omega)

theorem Seg.le (h : b.Seg tokens s e) : s < e := by
  induction h with
  | @last s e ts _ ho => exact (reading_proper .suffixed s).moves ho rfl
  | @link s e m ts _ ho _ _ ih =>
    have := (reading_proper .suffixed s).moves ho rfl
    have := lt_after tokens e
    omega

theorem Seg.leaves {m target reach : Nat} (h : b.Seg tokens s e) (hle : e ≤ m)
    (hr : b.Ready tokens target m) (hl : Leaves tokens b b' target m reach) :
    b'.Seg tokens s e := by
  induction h with
  | last hkept ho => exact .last (hkept.leaves ho hle hr hl) ho
  | @link s e i ts hkept ho hs rest ih =>
    have := rest.le
    have := lt_after tokens e
    exact .link (hkept.leaves ho (by omega) hr hl) ho hs (ih hle)

theorem Seg.kept (h : b.Seg tokens s e) : b.Kept tokens s := by
  cases h with
  | last hkept _ => exact hkept
  | link hkept _ _ _ => exact hkept

theorem Seg.trans {m : Nat} (h : b.Seg tokens s e) (hs : Separated tokens e)
    (hr : b.Seg tokens (after tokens e) m) : b.Seg tokens s m := by
  induction h with
  | last hkept ho => exact .link hkept ho hs hr
  | link hkept ho hs' _ ih => exact .link hkept ho hs' (ih hs hr)

/-- Behind an operand that an operator follows nothing else can be known. -/
theorem Edge.of_separated (h : Separated tokens e) : b.Edge tokens e where
  stop := fun _ _ _ hn => absurd h hn
  assign := by
    intro ha
    rcases h with h | h <;> exact absurd (ha.eq h) (by decide)
  bracket := by
    intro hb
    rcases h with h | h <;> exact absurd (hb.eq h) (by decide)

theorem Ahead.poised {ts : List Tree} (h : b.Ahead tokens e) (hk : b.Kept tokens s)
    (ho : (reading tokens .suffixed s).outcome = .matched ts e) : b.Poised tokens s :=
  .kept hk ho h.edge h.sep

theorem Seg.poised (h : b.Seg tokens s e) (ha : b.Ahead tokens e) : b.Poised tokens s := by
  induction h with
  | last hkept ho => exact ha.poised hkept ho
  | link hkept ho hs _ ih => exact .kept hkept ho (.of_separated hs) fun _ _ => ih ha

theorem Ahead.of_fresh (h : b.Fresh e) (hb : ¬ At tokens .leftBracket e) : b.Ahead tokens e where
  edge := ⟨fun _ _ _ _ => h, fun _ _ => h, fun hb' => absurd hb' hb⟩
  sep := fun _ _ => .fresh (h.later (Nat.le_of_lt (lt_after tokens e)))

theorem Ahead.of_paren (h : At tokens .leftParen e) : b.Ahead tokens e where
  edge := ⟨fun hn _ _ _ => absurd h hn, fun ha _ => absurd (h.eq ha) (by decide),
    fun hb => absurd (h.eq hb) (by decide)⟩
  sep := by
    rintro (hs | hs) <;> exact absurd (h.eq hs) (by decide)

theorem Ahead.of_bracket (h : At tokens .leftBracket e) (hb : b.Bracket tokens e) :
    b.Ahead tokens e where
  edge := ⟨fun _ hn _ _ => absurd h hn, fun ha _ => absurd (h.eq ha) (by decide), fun _ => hb⟩
  sep := by
    rintro (hs | hs) <;> exact absurd (h.eq hs) (by decide)

theorem Ahead.of_assignment (h : At tokens .assignment e)
    (hn : ¬ Matches tokens .suffixed (after tokens e)) : b.Ahead tokens e where
  edge := ⟨fun _ _ hn' _ => absurd h hn', fun _ hm => absurd hm hn,
    fun hb => absurd (h.eq hb) (by decide)⟩
  sep := by
    rintro (hs | hs) <;> exact absurd (h.eq hs) (by decide)

/-- Nothing matched yet at a token that neither goes on with an expression nor assigns to it. -/
theorem Ahead.fresh {k : Token.Kind} (h : b.Ahead tokens e) (hk : At tokens k e)
    (hno : k ≠ .leftParen ∧ k ≠ .leftBracket ∧ k ≠ .assignment ∧ k ≠ .operator ∧
      k ≠ .comparator) : b.Fresh e := by
  refine h.edge.stop (fun h' => hno.1 (hk.eq h')) (fun h' => hno.2.1 (hk.eq h'))
    (fun h' => hno.2.2.1 (hk.eq h')) ?_
  rintro (h' | h')
  · exact hno.2.2.2.1 (hk.eq h')
  · exact hno.2.2.2.2 (hk.eq h')

/-- Behind an operator after which no operand follows nothing is asked for. -/
theorem Ahead.of_separated (h : Separated tokens e)
    (hn : ¬ Matches tokens .suffixed (after tokens e)) : b.Ahead tokens e :=
  ⟨.of_separated h, fun _ hm => absurd hm hn⟩

/-- If a function is at a position its tree is held, and it ends before another position. -/
def Opened (tokens : Array Token) (b : Builder) (s m : Nat) : Prop :=
  ∀ ⦃ts f⦄, (reading tokens .function s).outcome = .matched ts f →
    f ≤ m ∧ b.Held tokens .function s

theorem Opened.mono {m m' : Nat} (h : b.Opened tokens s m) (hle : m ≤ m') :
    b.Opened tokens s m' := by
  intro ts f hf
  exact ⟨Nat.le_trans (h hf).1 hle, (h hf).2⟩

theorem Opened.keeps {j k m : Nat} (h : b.Opened tokens s m) (hk : Keeps tokens j k b b')
    (hj : j ≤ s) : b'.Opened tokens s m := by
  intro ts f hf
  exact ⟨(h hf).1, hk.held _ s hj (h hf).2⟩

theorem Opened.leaves {m q target reach : Nat} (h : b.Opened tokens s m) (hle : m ≤ q)
    (hr : b.Ready tokens target q) (hl : Leaves tokens b b' target q reach) :
    b'.Opened tokens s m := by
  intro ts f hf
  exact ⟨(h hf).1, (h hf).2.leaves hl hr.sane hr.free hf (Nat.le_trans (h hf).1 hle)⟩

theorem Opened.of_not_starts {m : Nat}
    (h : Rule.starts (tokenAt? tokens s) .function = false) : b.Opened tokens s m := by
  intro ts f hf
  rw [reading_failed h] at hf
  cases hf

theorem Seg.opened {m : Nat} (h : b.Seg tokens s m) : b.Opened tokens s m := by
  intro ts f hf
  refine ⟨?_, h.kept.2 ⟨ts, f, hf⟩⟩
  cases h with
  | last _ ho => exact function_le_suffixed hf ho
  | @link _ e _ _ _ ho _ rest =>
    have := function_le_suffixed hf ho
    have := lt_after tokens e
    have := rest.le
    omega

end Builder

theorem stable_island {s : Nat} : Stable tokens fun b => b.Island tokens s :=
  fun _ _ hk h => h.keeps hk (Nat.zero_le s) (Nat.zero_le s)

theorem stable_poised {s : Nat} : Stable tokens fun b => b.Poised tokens s :=
  fun _ _ hk h => h.keeps hk (Nat.zero_le s) (Nat.zero_le s)

theorem stable_ahead {e : Nat} : Stable tokens fun b => b.Ahead tokens e :=
  fun _ _ hk h => h.keeps hk (Nat.zero_le e) (Nat.zero_le e)

theorem stable_opened {s m : Nat} : Stable tokens fun b => b.Opened tokens s m :=
  fun _ _ hk h => h.keeps hk (Nat.zero_le s)

theorem stable_seg {s e : Nat} : Stable tokens fun b => b.Seg tokens s e :=
  fun _ _ hk h => h.keeps hk (Nat.zero_le s)

end ScriptKit.Grammar
