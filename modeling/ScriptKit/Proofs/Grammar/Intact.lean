import ScriptKit.Proofs.Arena.Holds
import ScriptKit.Proofs.Grammar.Recording

namespace ScriptKit.Grammar

open Arena (Linked root)

variable {tokens : Array Token}

/-- The nodes below the one that a rule makes at a position are claimed from here on. A function
takes a token before it asks for anything. -/
def Rule.low : Rule → Nat → Nat
  | .function, q => q + 1
  | _, q => q

theorem Rule.le_low (r : Rule) (q : Nat) : q ≤ r.low q := by
  cases r <;> simp [Rule.low]

namespace Builder

variable {b b' : Builder}

/-- The table holds a node only for positions between two bounds. -/
def Within (b : Builder) (lo hi n : Nat) : Prop :=
  ∀ q, b.Claims n q → lo ≤ q ∧ q < hi

/-- No rule matched at a position so far. -/
def Vacant (b : Builder) (q : Nat) : Prop :=
  ∀ (r : Rule) (e n : Nat), b.lookup? r q ≠ some (.matched e n)

/-- No rule matched at a position or after it so far. -/
def Fresh (b : Builder) (s : Nat) : Prop := ∀ q, s ≤ q → b.Vacant q

theorem Fresh.later {s s' : Nat} (h : b.Fresh s) (hle : s ≤ s') : b.Fresh s' :=
  fun q hq => h q (Nat.le_trans hle hq)

/-- The node that the table holds for a rule at a position still has the whole tree of the plain
reading below it. -/
def Held (tokens : Array Token) (b : Builder) (r : Rule) (q : Nat) : Prop :=
  ∃ e n t, b.lookup? r q = some (.matched e n) ∧ (reading tokens r q).outcome = .matched [t] e ∧
    b.arena.Holds (b.Within (r.low q) e) n t

/-- A later builder that still holds the trees from a position on, and where nothing new matched
from another position on. -/
structure Keeps (tokens : Array Token) (j k : Nat) (b b' : Builder) : Prop where
  held : ∀ r q, j ≤ q → b.Held tokens r q → b'.Held tokens r q
  vacant : ∀ q, k ≤ q → b.Vacant q → b'.Vacant q

theorem Keeps.fresh {j k s : Nat} (h : Keeps tokens j k b b') (hs : k ≤ s) (hf : b.Fresh s) :
    b'.Fresh s :=
  fun q hq => h.vacant q (Nat.le_trans hs hq) (hf q hq)

theorem Keeps.mono {j k j' k' : Nat} (h : Keeps tokens j k b b') (hj : j ≤ j') (hk : k ≤ k') :
    Keeps tokens j' k' b b' :=
  ⟨fun r q hq => h.held r q (Nat.le_trans hj hq), fun q hq => h.vacant q (Nat.le_trans hk hq)⟩

theorem Keeps.trans {b₁ b₂ : Builder} {j k : Nat} (h₁ : Keeps tokens j k b b₁)
    (h₂ : Keeps tokens j k b₁ b₂) : Keeps tokens j k b b₂ :=
  ⟨fun r q hq h => h₂.held r q hq (h₁.held r q hq h),
    fun q hq h => h₂.vacant q hq (h₁.vacant q hq h)⟩

/-- A step that adds nothing to what the table holds, and changes the children of no node but those
that are outside of every tree. -/
structure Quiet (b b' : Builder) : Prop where
  info : ∀ x, x < b.arena.size → b'.arena.info? x = b.arena.info? x
  children : ∀ x, x < b.arena.size → ¬ b.Free x → b'.arena.children x = b.arena.children x
  table : ∀ {r : Rule} {q e n : Nat},
    b'.lookup? r q = some (.matched e n) ↔ b.lookup? r q = some (.matched e n)

namespace Quiet

theorem claims_iff (h : Quiet b b') {n q : Nat} : b'.Claims n q ↔ b.Claims n q := by
  unfold Claims
  simp only [h.table]

theorem within (h : Quiet b b') {lo hi n : Nat} (hn : b.Within lo hi n) : b'.Within lo hi n := by
  intro q hq
  exact hn q (h.claims_iff.mp hq)

theorem down (hl : b.arena.Linked) {x c : Nat} (hc : c ∈ b.arena.children x) :
    c < b.arena.size ∧ ¬ b.Free c :=
  ⟨hl.lt_size hc, fun hf => hf.alone x hc⟩

theorem holdsAll (h : Quiet b b') (hl : b.arena.Linked) {lo hi : Nat} {cs : List Nat}
    {ts : List Tree} (hcs : ∀ c ∈ cs, c < b.arena.size ∧ ¬ b.Free c)
    (hh : b.arena.HoldsAll (b.Within lo hi) cs ts) :
    b'.arena.HoldsAll (b'.Within lo hi) cs ts := by
  refine Arena.HoldsAll.transfer (P := fun x => x < b.arena.size ∧ ¬ b.Free x)
    (fun x _ hx => h.info x hx.1) (fun x hx _ => h.children x hx.1 hx.2)
    (fun x c _ hc hi => ⟨down hl hc, h.within hi⟩) ?_ hh
  intro c hc
  exact ⟨hcs c hc, h.within (hh.mem hc).1⟩

theorem holdsAll_children (h : Quiet b b') (hl : b.arena.Linked) {lo hi x : Nat}
    {ts : List Tree} (hh : b.arena.HoldsAll (b.Within lo hi) (b.arena.children x) ts) :
    b'.arena.HoldsAll (b'.Within lo hi) (b.arena.children x) ts :=
  h.holdsAll hl (fun _ hc => down hl hc) hh

theorem holds (h : Quiet b b') (hl : b.arena.Linked) {lo hi n : Nat} {t : Tree}
    (hn : n < b.arena.size ∧ ¬ b.Free n) (hh : b.arena.Holds (b.Within lo hi) n t) :
    b'.arena.Holds (b'.Within lo hi) n t :=
  Arena.Holds.transfer (P := fun x => x < b.arena.size ∧ ¬ b.Free x)
    (fun x _ hx => h.info x hx.1) (fun x hx _ => h.children x hx.1 hx.2)
    (fun _ _ _ hc hi => ⟨down hl hc, h.within hi⟩) hn hh

theorem keeps (h : Quiet b b') (hs : b.Sane tokens) : Keeps tokens 0 0 b b' where
  held := by
    rintro r q - ⟨e, n, t, he, ho, hh⟩
    have hc : b.Claims n q := ⟨r, e, he⟩
    refine ⟨e, n, t, h.table.mpr he, ho, h.holds hs.linked ⟨hs.lt_size hc, ?_⟩ hh⟩
    intro hf
    exact hf.unclaimed ⟨q, hc⟩
  vacant := by
    intro q _ hv r e n he
    exact hv r e n (h.table.mp he)

end Quiet

theorem quiet_add (b : Builder) (kind : Tree.Kind) (text : String) (line : Nat) :
    Quiet b (b.add kind text line) where
  info := by
    intro x hx
    rw [arena_add, Arena.info?_add, if_neg (Nat.ne_of_lt hx)]
  children := by
    intro x _ _
    rw [arena_add, Arena.children_add]
  table := Iff.rfl

theorem quiet_lookAt (b : Builder) (place : Nat) : Quiet b (b.lookAt place) :=
  ⟨fun _ _ => rfl, fun _ _ _ => rfl, Iff.rfl⟩

/-- A node that no node of a tree has among its children. -/
def Loose (b : Builder) (n : Nat) : Prop := ∀ p, n ∈ b.arena.children p → b.Free p

theorem Free.loose {n : Nat} (h : b.Free n) : b.Loose n := fun p hp => absurd hp (h.alone p)

theorem quiet_append (hl : b.arena.Linked) {target n : Nat} (ht : target < b.arena.size)
    (hf : b.Free target) (hn : b.Loose n) : Quiet b (b.append target n) where
  info := by
    intro x _
    rw [arena_append, Arena.info?_append]
  children := by
    intro x _ hx
    have hmem : n ∉ b.arena.children x := fun hm => hx (hn x hm)
    have hne : x ≠ target := by
      rintro rfl
      exact hx hf
    rw [arena_append, Arena.children_append hl ht, List.erase_of_not_mem hmem, if_neg hne,
      List.append_nil]
  table := Iff.rfl

theorem quiet_move (hl : b.arena.Linked) {source target : Nat} (hs : source < b.arena.size)
    (ht : target < b.arena.size) (hne : source ≠ target) (hsf : b.Free source)
    (htf : b.Free target) : Quiet b (b.moveChildren source target) := by
  obtain ⟨-, -, hinfo, hch⟩ := Arena.moveChildren_spec hl hs ht hne (htf.alone source)
  refine ⟨?_, ?_, Iff.rfl⟩
  · intro x _
    rw [arena_moveChildren, hinfo]
  · intro x _ hx
    have hxs : x ≠ source := by
      rintro rfl
      exact hx hsf
    have hxt : x ≠ target := by
      rintro rfl
      exact hx htf
    rw [arena_moveChildren, hch, if_neg hxt, if_neg hxs]

theorem quiet_record_failed {r : Rule} {pos : Nat}
    (h : ∀ e n, b.lookup? r pos ≠ some (.matched e n)) : Quiet b (b.record r pos .failed) := by
  refine ⟨fun _ _ => rfl, fun _ _ _ => rfl, ?_⟩
  intro r' q e n
  rw [lookup?_record]
  split
  · rename_i heq
    rw [heq.1, heq.2]
    simp [h e n]
  · exact Iff.rfl

section Leaves

variable {target m reach : Nat}

/-- What was built before a position stays as it is while more is built from there on. -/
theorem Leaves.holdsAll (h : Leaves tokens b b' target m reach) (hs : b.Sane tokens)
    (hf : b.Free target) {lo hi : Nat} (hle : m ≤ hi) {cs : List Nat} {ts : List Tree}
    (hcs : ∀ c ∈ cs, c < b.arena.size ∧ c ≠ target)
    (hh : b.arena.HoldsAll (b.Within lo m) cs ts) :
    b'.arena.HoldsAll (b'.Within lo hi) cs ts := by
  -- what `b'` claims of the old nodes `b` has claimed already
  have hwithin : ∀ c, c < b.arena.size → b.Within lo m c → b'.Within lo hi c := by
    intro c hlt hc q hq
    have := hc q (h.frame.old hq hlt)
    omega
  refine Arena.HoldsAll.transfer (P := fun x => x < b.arena.size ∧ x ≠ target)
    (fun x _ hx => h.frame.info x hx.1) ?_ ?_ ?_ hh
  · intro x hx hc
    refine h.frame.children x hx.1 hx.2 ?_
    rintro c hm ⟨q, hq, hcl⟩
    have := hc c hm q hcl
    omega
  · intro x c _ hc hi
    have hlt := hs.linked.lt_size hc
    refine ⟨⟨hlt, ?_⟩, hwithin c hlt hi⟩
    rintro rfl
    exact hf.alone x hc
  · intro c hc
    exact ⟨hcs c hc, hwithin c (hcs c hc).1 (hh.mem hc).1⟩

theorem Leaves.holds (h : Leaves tokens b b' target m reach) (hs : b.Sane tokens)
    (hf : b.Free target) {lo hi : Nat} (hle : hi ≤ m) {n : Nat} {t : Tree}
    (hn : n < b.arena.size ∧ n ≠ target) (hh : b.arena.Holds (b.Within lo hi) n t) :
    b'.arena.Holds (b'.Within lo hi) n t := by
  refine Arena.Holds.transfer (P := fun x => x < b.arena.size ∧ x ≠ target)
    (fun x _ hx => h.frame.info x hx.1) ?_ ?_ hn hh
  · intro x hx hc
    refine h.frame.children x hx.1 hx.2 ?_
    rintro c hm ⟨q, hq, hcl⟩
    have := hc c hm q hcl
    omega
  · intro x c _ hc hi
    have hlt := hs.linked.lt_size hc
    refine ⟨⟨hlt, ?_⟩, fun q hq => hi q (h.frame.old hq hlt)⟩
    rintro rfl
    exact hf.alone x hc

theorem Vacant.leaves {q : Nat} (hv : b.Vacant q) (h : Leaves tokens b b' target m reach)
    (hlt : q < m) : b'.Vacant q := by
  intro r e n he
  rcases h.since he with he | hle
  · exact hv r e n he
  · omega

/-- A tree that ends before a position stays whole while more is built from there on. -/
theorem Held.leaves {r : Rule} {q e : Nat} {ts : List Tree} (hh : b.Held tokens r q)
    (h : Leaves tokens b b' target m reach) (hs : b.Sane tokens) (hf : b.Free target)
    (ho : (reading tokens r q).outcome = .matched ts e) (hle : e ≤ m) : b'.Held tokens r q := by
  obtain ⟨e', n, t, he, ho', hn⟩ := hh
  rw [ho] at ho'
  cases ho'
  have hc : b.Claims n q := ⟨r, e, he⟩
  refine ⟨e, n, t, h.frame.table he, ho, h.holds hs hf hle ⟨hs.lt_size hc, ?_⟩ hn⟩
  rintro rfl
  exact hf.unclaimed ⟨q, hc⟩

end Leaves

/-- Taking the node of one rule leaves the trees that the node is not in. -/
theorem Held.hit {r r' : Rule} {pos q next node target : Nat} (hh : b.Held tokens r' q)
    (hs : b.Sane tokens) (ht : target < b.arena.size) (hf : b.Free target)
    (he : b.lookup? r pos = some (.matched next node))
    (hout : pos < r'.low q ∨ (r' = r ∧ q = pos)) : (b.append target node).Held tokens r' q := by
  obtain ⟨e, n, t, he', ho, hn⟩ := hh
  have hc : b.Claims n q := ⟨r', e, he'⟩
  have hnode : b.Claims node pos := ⟨r, next, he⟩
  have hlt : n < b.arena.size ∧ n ≠ target := by
    refine ⟨hs.lt_size hc, ?_⟩
    rintro rfl
    exact hf.unclaimed ⟨q, hc⟩
  -- the node that is taken is not among those below `n`
  have hnot : b.arena.Holds (fun c => b.Within (r'.low q) e c ∧ c ≠ node) n t := by
    rcases hout with hlow | ⟨rfl, rfl⟩
    · refine hn.mono ?_
      intro c hwc
      refine ⟨hwc, ?_⟩
      rintro rfl
      have := (hwc pos hnode).1
      omega
    · rw [he] at he'
      cases he'
      exact hn.avoids (Nat.le_refl _) hn
  refine ⟨e, n, t, he', ho, ?_⟩
  refine Arena.Holds.transfer (P := fun x => x < b.arena.size ∧ x ≠ target)
    (fun x _ _ => by rw [arena_append, Arena.info?_append]) ?_ ?_ hlt hnot
  · intro x hx hc
    have hmem : node ∉ b.arena.children x := fun hm => (hc node hm).2 rfl
    rw [arena_append, Arena.children_append hs.linked ht, List.erase_of_not_mem hmem,
      if_neg hx.2, List.append_nil]
  · intro x c _ hc hi
    refine ⟨⟨hs.linked.lt_size hc, ?_⟩, hi.1⟩
    rintro rfl
    exact hf.alone x hc

end Builder

end ScriptKit.Grammar
