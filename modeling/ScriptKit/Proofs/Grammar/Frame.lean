import ScriptKit.Grammar.Builder
import ScriptKit.Proofs.Arena.Links
import ScriptKit.Proofs.Grammar.Termination

namespace ScriptKit.Grammar

open Arena (Linked root)

variable {tokens : Array Token}

namespace Builder

@[simp] theorem arena_add (b : Builder) (kind : Tree.Kind) (text : String) (line : Nat) :
    (b.add kind text line).arena = b.arena.add kind text line := rfl

@[simp] theorem arena_append (b : Builder) (p c : Nat) :
    (b.append p c).arena = b.arena.append p c := rfl

@[simp] theorem arena_moveChildren (b : Builder) (source target : Nat) :
    (b.moveChildren source target).arena = b.arena.moveChildren source target := rfl

@[simp] theorem arena_record (b : Builder) (r : Rule) (pos : Nat) (e : Entry) :
    (b.record r pos e).arena = b.arena := rfl

@[simp] theorem next_eq (b : Builder) : b.next = b.arena.size := rfl

theorem children_next (b : Builder) (kind : Tree.Kind) (text : String) (line : Nat) :
    (b.add kind text line).arena.children b.next = [] := by
  rw [arena_add, Arena.children_add, next_eq, Arena.children_of_size_le (Nat.le_refl _)]

@[simp] theorem furthest_add (b : Builder) (kind : Tree.Kind) (text : String) (line : Nat) :
    (b.add kind text line).furthest = b.furthest := rfl

@[simp] theorem furthest_append (b : Builder) (p c : Nat) :
    (b.append p c).furthest = b.furthest := rfl

@[simp] theorem furthest_moveChildren (b : Builder) (source target : Nat) :
    (b.moveChildren source target).furthest = b.furthest := rfl

@[simp] theorem lookup?_add (b : Builder) (kind : Tree.Kind) (text : String) (line : Nat)
    (r : Rule) (q : Nat) : (b.add kind text line).lookup? r q = b.lookup? r q := rfl

@[simp] theorem lookup?_append (b : Builder) (p c : Nat) (r : Rule) (q : Nat) :
    (b.append p c).lookup? r q = b.lookup? r q := rfl

@[simp] theorem lookup?_moveChildren (b : Builder) (source target : Nat) (r : Rule) (q : Nat) :
    (b.moveChildren source target).lookup? r q = b.lookup? r q := rfl

/-- The table holds a node for some rule at a position. -/
def Claims (b : Builder) (n q : Nat) : Prop :=
  ∃ r e, b.lookup? r q = some (.matched e n)

def Claimed (b : Builder) (n : Nat) : Prop := ∃ q, b.Claims n q

/-- The nodes that a production at a position can take from where they are. -/
def Moves (b : Builder) (pos n : Nat) : Prop := ∃ q, pos ≤ q ∧ b.Claims n q

/-- A node that is nobody's child and that the table does not hold. -/
structure Free (b : Builder) (x : Nat) : Prop where
  unclaimed : ¬ b.Claimed x
  alone : ∀ p, x ∉ b.arena.children p

/-- A builder whose table agrees with the plain reading and whose arena is linked. -/
structure Sane (tokens : Array Token) (b : Builder) : Prop where
  linked : b.arena.Linked
  failed : ∀ {r q}, b.lookup? r q = some .failed →
    (reading tokens r q).outcome = .failed ∧ (reading tokens r q).reach ≤ b.furthest
  matched : ∀ {r : Rule} {q e n : Nat}, b.lookup? r q = some (.matched e n) →
    (∃ t, (reading tokens r q).outcome = .matched [t] e) ∧
      (reading tokens r q).reach ≤ b.furthest ∧ q < e ∧ n < b.arena.size ∧ n ≠ root
  one : ∀ {n q q'}, b.Claims n q → b.Claims n q' → q = q'

theorem Sane.lt_size {b : Builder} (h : b.Sane tokens) {n q : Nat} (hc : b.Claims n q) :
    n < b.arena.size := by
  obtain ⟨r, e, he⟩ := hc
  exact (h.matched he).2.2.2.1

theorem Sane.free_next {b : Builder} (h : b.Sane tokens) (kind : Tree.Kind) (text : String)
    (line : Nat) : (b.add kind text line).Free b.next where
  unclaimed := by
    rintro ⟨q, hc⟩
    exact absurd (h.lt_size (b := b) hc) (Nat.lt_irrefl _)
  alone := by
    intro p hp
    rw [arena_add, Arena.children_add] at hp
    exact absurd (h.linked.lt_size hp) (Nat.lt_irrefl _)

/-- What changes from one builder to a later one: old nodes keep what they say about themselves,
and keep their children unless the node is the target or loses a node in `Q`. -/
structure Frame (b b' : Builder) (Q : Nat → Prop) (target : Nat) : Prop where
  size_le : b.arena.size ≤ b'.arena.size
  info : ∀ x, x < b.arena.size → b'.arena.info? x = b.arena.info? x
  children : ∀ x, x < b.arena.size → x ≠ target → (∀ c ∈ b.arena.children x, ¬ Q c) →
    b'.arena.children x = b.arena.children x
  table : ∀ {r q v}, b.lookup? r q = some v → b'.lookup? r q = some v
  old : ∀ {n q}, b'.Claims n q → n < b.arena.size → b.Claims n q
  free : ∀ x, x < b.arena.size → b.Free x → b'.Free x

namespace Frame

variable {b b₁ b₂ : Builder} {Q Q₁ Q₂ : Nat → Prop} {target target₁ target₂ : Nat}

theorem refl (b : Builder) (Q : Nat → Prop) (target : Nat) : Frame b b Q target :=
  ⟨Nat.le_refl _, fun _ _ => rfl, fun _ _ _ _ => rfl, id, fun h _ => h, fun _ _ h => h⟩

theorem claims (h : Frame b b₁ Q target) {n q : Nat} (hc : b.Claims n q) : b₁.Claims n q := by
  obtain ⟨r, e, he⟩ := hc
  exact ⟨r, e, h.table he⟩

theorem trans (hl : b.arena.Linked) (h₁ : Frame b b₁ Q₁ target₁) (h₂ : Frame b₁ b₂ Q₂ target₂)
    (hQ₁ : ∀ n, Q₁ n → Q n) (hQ₂ : ∀ n, n < b.arena.size → Q₂ n → Q n)
    (ht₁ : target₁ = target ∨ b.arena.size ≤ target₁)
    (ht₂ : target₂ = target ∨ b.arena.size ≤ target₂) : Frame b b₂ Q target where
  size_le := Nat.le_trans h₁.size_le h₂.size_le
  info := by
    intro x hx
    rw [h₂.info x (Nat.lt_of_lt_of_le hx h₁.size_le), h₁.info x hx]
  children := by
    intro x hx hne hQ
    have hc₁ := h₁.children x hx (by omega) fun c hc h => hQ c hc (hQ₁ c h)
    rw [h₂.children x (Nat.lt_of_lt_of_le hx h₁.size_le) (by omega), hc₁]
    intro c hc h
    rw [hc₁] at hc
    exact hQ c hc (hQ₂ c (hl.lt_size hc) h)
  table := fun h => h₂.table (h₁.table h)
  old := fun h hn => h₁.old (h₂.old h (Nat.lt_of_lt_of_le hn h₁.size_le)) hn
  free := fun x hx h => h₂.free x (Nat.lt_of_lt_of_le hx h₁.size_le) (h₁.free x hx h)

/-- Nodes that a later production can take could be taken before. -/
theorem moves (h : Frame b b₁ Q target) {pos pos' n : Nat} (hle : pos ≤ pos')
    (hn : n < b.arena.size) (hm : b₁.Moves pos' n) : b.Moves pos n := by
  obtain ⟨q, hq, hc⟩ := hm
  exact ⟨q, Nat.le_trans hle hq, h.old hc hn⟩

end Frame

theorem frame_add (b : Builder) (kind : Tree.Kind) (text : String) (line : Nat) (Q : Nat → Prop)
    (target : Nat) : Frame b (b.add kind text line) Q target where
  size_le := by simp [add]
  info := by
    intro x hx
    simp only [add, Arena.info?_add]
    rw [if_neg (Nat.ne_of_lt hx)]
  children := by simp [add]
  table := id
  old := fun h _ => h
  free := fun x _ h => ⟨h.unclaimed, by simpa [add] using h.alone⟩

theorem Sane.add {b : Builder} (h : b.Sane tokens) (kind : Tree.Kind) (text : String)
    (line : Nat) : (b.add kind text line).Sane tokens where
  linked := h.linked.add kind text line
  failed := h.failed
  matched := by
    intro r q e n he
    obtain ⟨h1, h2, h3, h4, h5⟩ := h.matched he
    exact ⟨h1, h2, h3, by simp only [Builder.add, Arena.size_add]; omega, h5⟩
  one := h.one

theorem Sane.lookAt {b : Builder} (h : b.Sane tokens) (place : Nat) :
    (b.lookAt place).Sane tokens where
  linked := h.linked
  failed := by
    intro r q he
    obtain ⟨h1, h2⟩ := h.failed he
    exact ⟨h1, Nat.le_trans h2 (Nat.le_max_left _ _)⟩
  matched := by
    intro r q e n he
    obtain ⟨h1, h2, h3, h4, h5⟩ := h.matched he
    exact ⟨h1, Nat.le_trans h2 (Nat.le_max_left _ _), h3, h4, h5⟩
  one := h.one

theorem frame_lookAt (b : Builder) (place : Nat) (Q : Nat → Prop) (target : Nat) :
    Frame b (b.lookAt place) Q target :=
  ⟨Nat.le_refl _, fun _ _ => rfl, fun _ _ _ _ => rfl, id, fun h _ => h,
    fun _ _ h => ⟨h.unclaimed, h.alone⟩⟩

/-- A builder that differs in its arena only, by links. -/
theorem Sane.relink {b : Builder} (h : b.Sane tokens) {a : Arena} (hl : a.Linked)
    (hs : a.size = b.arena.size) : Sane tokens { b with arena := a } where
  linked := hl
  failed := h.failed
  matched := by
    intro r q e n he
    have := h.matched he
    simpa only [hs] using this
  one := h.one

theorem lookup?_record (b : Builder) (r r' : Rule) (pos q : Nat) (e : Entry) :
    (b.record r pos e).lookup? r' q = if r' = r ∧ q = pos then some e else b.lookup? r' q := by
  simp only [lookup?, record, Std.HashMap.getElem?_insert]
  by_cases h : r' = r ∧ q = pos
  · simp [h.1, h.2]
  · have hne : ((r, pos) == (r', q)) = false := by
      simp only [beq_eq_false_iff_ne, ne_eq, Prod.mk.injEq]
      rintro ⟨rfl, rfl⟩
      exact h ⟨rfl, rfl⟩
    simp only [hne, h, if_false, Bool.false_eq_true]

/-- The state in which a production is built at a position: the target is free, and what stands
below it already is not asked for again from here on. -/
structure Ready (tokens : Array Token) (b : Builder) (target pos : Nat) : Prop where
  sane : b.Sane tokens
  lt : target < b.arena.size
  free : b.Free target
  settled : ∀ c ∈ b.arena.children target, ∀ q, b.Claims c q → q < pos

theorem Ready.not_moves {b : Builder} {target pos : Nat} (h : b.Ready tokens target pos) :
    ∀ c ∈ b.arena.children target, ¬ b.Moves pos c := by
  rintro c hc ⟨q, hle, hq⟩
  have := h.settled c hc q hq
  omega

theorem Sane.ready_next {b : Builder} (h : b.Sane tokens) (kind : Tree.Kind) (text : String)
    (line pos : Nat) : (b.add kind text line).Ready tokens b.next pos where
  sane := h.add kind text line
  lt := by simp
  free := h.free_next kind text line
  settled := by
    intro c hc
    rw [children_next] at hc
    cases hc

theorem Ready.lookAt {b : Builder} {target pos : Nat} (h : b.Ready tokens target pos)
    (place : Nat) : (b.lookAt place).Ready tokens target pos :=
  ⟨h.sane.lookAt place, h.lt, ⟨h.free.unclaimed, h.free.alone⟩, h.settled⟩

/-- What every attempt leaves behind, however it ends. -/
structure Leaves (tokens : Array Token) (b b' : Builder) (target pos reach : Nat) : Prop where
  sane : b'.Sane tokens
  frame : Frame b b' (b.Moves pos) target
  furthest : b'.furthest = max b.furthest reach
  since : ∀ {r : Rule} {q e n : Nat}, b'.lookup? r q = some (.matched e n) →
    b.lookup? r q = some (.matched e n) ∨ pos ≤ q

/-- Nodes that are added or linked after an attempt touch neither what it looked at nor its
entries. -/
theorem Leaves.relink {b b' d : Builder} {target pos reach : Nat}
    (h : Leaves tokens b b' target pos reach) (hsane : d.Sane tokens)
    (hframe : Frame b d (b.Moves pos) target) (hfurthest : d.furthest = b'.furthest)
    (hlookup : ∀ r q, d.lookup? r q = b'.lookup? r q) : Leaves tokens b d target pos reach where
  sane := hsane
  frame := hframe
  furthest := hfurthest.trans h.furthest
  since := by
    intro r q e n he
    rw [hlookup] at he
    exact h.since he

/-- An attempt that failed: it leaves nothing below the target. -/
structure Abandoned (tokens : Array Token) (b b' : Builder) (target pos : Nat) (a : Attempt) :
    Prop where
  outcome : a.outcome = .failed
  leaves : Leaves tokens b b' target pos a.reach
  children : b'.arena.children target = b.arena.children target

/-- An attempt that matched: new children follow those that the target had. Only nodes that are
new or that the table holds are among them, and none is asked for again further on. -/
structure Finished (tokens : Array Token) (b b' : Builder) (target pos next : Nat) (a : Attempt) :
    Prop where
  leaves : Leaves tokens b b' target pos a.reach
  le : pos ≤ next
  grown : ∃ trees built, a.outcome = .matched trees next ∧
    b'.arena.children target = b.arena.children target ++ built ∧
    built.length = trees.length ∧
    (∀ c ∈ built, b.arena.size ≤ c ∨ b.Claimed c) ∧
    (∀ c ∈ built, ∀ q, b'.Claims c q → q < next) ∧
    (∀ c, built.head? = some c → ∀ q, b'.Claims c q → q = pos) ∧
    (built = [] → next = pos)

end Builder

open Builder

/-- A way to build does what a plain reading says, and runs out of fuel only where the reading
with the same fuel does. -/
def Agrees (tokens : Array Token) (run : Build) (limited plain : Nat → Attempt) : Prop :=
  ∀ ⦃target pos : Nat⦄ ⦃b b' : Builder⦄ ⦃res : Result⦄, b.Ready tokens target pos →
    run target pos b = (res, b') →
    match res with
    | .exhausted => (limited pos).outcome = .exhausted
    | .failed => Abandoned tokens b b' target pos (plain pos)
    | .matched next => Finished tokens b b' target pos next (plain pos)

/-- The same for a way to build that leaves what it had built below the target when it fails. -/
def AgreesLoosely (tokens : Array Token) (run : Build) (limited plain : Nat → Attempt) : Prop :=
  ∀ ⦃target pos : Nat⦄ ⦃b b' : Builder⦄ ⦃res : Result⦄, b.Ready tokens target pos →
    run target pos b = (res, b') →
    match res with
    | .exhausted => (limited pos).outcome = .exhausted
    | .failed => (plain pos).outcome = .failed ∧ Leaves tokens b b' target pos (plain pos).reach
    | .matched next => Finished tokens b b' target pos next (plain pos)

end ScriptKit.Grammar
