import ScriptKit.Proofs.Grammar.Frame

namespace ScriptKit.Grammar

open Arena (Linked root)

variable {tokens : Array Token}

namespace Builder

variable {b d : Builder} {Q : Nat → Prop} {target : Nat}

/-- A node that is new to a later builder, or in its table, is so for the earlier one as well. -/
theorem Frame.made {n : Nat} (h : Frame b d Q target) (hn : d.arena.size ≤ n ∨ d.Claimed n) :
    b.arena.size ≤ n ∨ b.Claimed n := by
  rcases hn with hge | ⟨q, hq⟩
  · exact Or.inl (Nat.le_trans h.size_le hge)
  · rcases Nat.lt_or_ge n b.arena.size with hlt | hge
    · exact Or.inr ⟨q, h.old hq hlt⟩
    · exact Or.inl hge

/-- Appending a node that was made on the way, or that may be moved. -/
theorem Frame.append (h : Frame b d Q target) (hb : b.arena.Linked) (hl : d.arena.Linked)
    {p n : Nat} (hp : p < d.arena.size) (hpt : p = target ∨ b.arena.size ≤ p)
    (hn : b.arena.size ≤ n ∨ (Q n ∧ b.Claimed n)) : Frame b (d.append p n) Q target where
  size_le := by simpa using h.size_le
  info := by simpa using h.info
  children := by
    intro x hx hne hc
    -- the node that moves is new or claimed, and the old nodes considered have no such child
    have hch := h.children x hx hne hc
    have hmem : n ∉ d.arena.children x := by
      intro hm
      rw [hch] at hm
      rcases hn with hge | hq
      · have := hb.lt_size hm
        omega
      · exact hc n hm hq.1
    have hxp : x ≠ p := by omega
    rw [arena_append, Arena.children_append hl hp, List.erase_of_not_mem hmem, if_neg hxp,
      List.append_nil, hch]
  table := h.table
  old := h.old
  free := by
    -- nor does a free node get into any children, since the one that moves is claimed or new
    intro x hx hf
    have hx' := h.free x hx hf
    refine ⟨hx'.unclaimed, ?_⟩
    intro q hq
    rw [arena_append, Arena.children_append hl hp] at hq
    rcases List.mem_append.mp hq with hq | hq
    · exact hx'.alone q (List.mem_of_mem_erase hq)
    · split at hq
      · rw [List.mem_singleton.mp hq] at hx hf
        rcases hn with hge | hq'
        · omega
        · exact hf.unclaimed hq'.2
      · cases hq

theorem children_append_free (hl : d.arena.Linked) (ht : target < d.arena.size) {n : Nat}
    (hn : d.Free n) :
    (d.append target n).arena.children target = d.arena.children target ++ [n] := by
  rw [arena_append, Arena.children_append hl ht, List.erase_of_not_mem (hn.alone target),
    if_pos rfl]

theorem Sane.append {b : Builder} (h : b.Sane tokens) {target n : Nat}
    (ht : target < b.arena.size) (hn : n < b.arena.size) (hne : n ≠ target) (hr : n ≠ root) :
    (b.append target n).Sane tokens :=
  h.relink (h.linked.append ht hn hne hr) (by simp)

/-- Moving what was built below a node that was made on the way. -/
theorem Frame.move (h : Frame b d Q target) (hl : d.arena.Linked) {source p : Nat}
    (hs : source < d.arena.size) (hge : b.arena.size ≤ source) (hp : p < d.arena.size)
    (hpt : p = target ∨ b.arena.size ≤ p) (hne : source ≠ p)
    (hnot : p ∉ d.arena.children source)
    (hbuilt : ∀ c ∈ d.arena.children source, b.arena.size ≤ c ∨ b.Claimed c) :
    Frame b (d.moveChildren source p) Q target := by
  obtain ⟨-, hsize, hinfo, hch⟩ := Arena.moveChildren_spec hl hs hp hne hnot
  refine ⟨?_, ?_, ?_, h.table, h.old, ?_⟩
  · rw [arena_moveChildren, hsize]
    exact h.size_le
  · intro x hx
    rw [arena_moveChildren, hinfo]
    exact h.info x hx
  · intro x hx hxt hc
    have hxs : x ≠ source := by omega
    have hxp : x ≠ p := by omega
    rw [arena_moveChildren, hch, if_neg hxp, if_neg hxs]
    exact h.children x hx hxt hc
  -- what moves is new or claimed, so that a free node is not in it
  · intro x hx hf
    have hx' := h.free x hx hf
    refine ⟨hx'.unclaimed, ?_⟩
    intro y hy
    rw [arena_moveChildren, hch] at hy
    split at hy
    · rcases List.mem_append.mp hy with hy | hy
      · exact hx'.alone p hy
      · rcases hbuilt x hy with hle | hc
        · omega
        · exact hf.unclaimed hc
    · split at hy
      · cases hy
      · exact hx'.alone y hy

theorem Sane.move {b : Builder} (h : b.Sane tokens) {source target : Nat}
    (hs : source < b.arena.size) (ht : target < b.arena.size) (hne : source ≠ target)
    (hnot : target ∉ b.arena.children source) : (b.moveChildren source target).Sane tokens := by
  obtain ⟨hl, hsize, -, -⟩ := Arena.moveChildren_spec h.linked hs ht hne hnot
  exact h.relink hl hsize

section Steps

variable {pos next reach p n source : Nat} {a : Attempt}

theorem Leaves.refl (hs : b.Sane tokens) (hreach : reach ≤ b.furthest) :
    Leaves tokens b b target pos reach :=
  ⟨hs, .refl _ _ _, (Nat.max_eq_left hreach).symm, Or.inl⟩

theorem Leaves.lookAt (hs : b.Sane tokens) (place : Nat) :
    Leaves tokens b (b.lookAt place) target pos place :=
  ⟨hs.lookAt place, frame_lookAt _ _ _ _, rfl, Or.inl⟩

theorem Leaves.add (h : Leaves tokens b d target pos reach) (hs : b.Sane tokens)
    (kind : Tree.Kind) (text : String) (line : Nat) :
    Leaves tokens b (d.add kind text line) target pos reach := by
  have hframe := frame_add d kind text line (fun _ => False) target
  exact h.relink (h.sane.add kind text line)
    (h.frame.trans hs.linked hframe (fun _ hm => hm) (fun _ _ hm => hm.elim) (Or.inl rfl)
      (Or.inl rfl)) rfl fun _ _ => rfl

theorem Leaves.append (h : Leaves tokens b d target pos reach) (hs : b.Sane tokens)
    (hp : p < d.arena.size) (hpt : p = target ∨ b.arena.size ≤ p) (hn : n < d.arena.size)
    (hnew : b.arena.size ≤ n ∨ (b.Moves pos n ∧ b.Claimed n)) (hne : n ≠ p) (hroot : n ≠ root) :
    Leaves tokens b (d.append p n) target pos reach :=
  h.relink (h.sane.append hp hn hne hroot) (h.frame.append hs.linked h.sane.linked hp hpt hnew) rfl
    fun _ _ => rfl

theorem Leaves.move (h : Leaves tokens b d target pos reach) (hs : source < d.arena.size)
    (hge : b.arena.size ≤ source) (hp : p < d.arena.size) (hpt : p = target ∨ b.arena.size ≤ p)
    (hne : source ≠ p) (hnot : p ∉ d.arena.children source)
    (hbuilt : ∀ c ∈ d.arena.children source, b.arena.size ≤ c ∨ b.Claimed c) :
    Leaves tokens b (d.moveChildren source p) target pos reach :=
  h.relink (h.sane.move hs hp hne hnot)
    (h.frame.move h.sane.linked hs hge hp hpt hne hnot hbuilt) rfl fun _ _ => rfl

/-- Two attempts that follow each other leave what both leave. -/
theorem Leaves.trans {b b₁ b₂ : Builder} {target pos next reach₁ reach₂ : Nat}
    (hs : b.Sane tokens) (h₁ : Leaves tokens b b₁ target pos reach₁)
    (h₂ : Leaves tokens b₁ b₂ target next reach₂) (hle : pos ≤ next) :
    Leaves tokens b b₂ target pos (max reach₁ reach₂) where
  sane := h₂.sane
  frame := h₁.frame.trans hs.linked h₂.frame (fun _ hm => hm)
    (fun _ hn hm => h₁.frame.moves hle hn hm) (Or.inl rfl) (Or.inl rfl)
  furthest := by rw [h₂.furthest, h₁.furthest, Nat.max_assoc]
  since := by
    intro r q e n he
    rcases h₂.since he with he | hq
    · exact h₁.since he
    · exact Or.inr (Nat.le_trans hle hq)

/-- What stood below the target before an attempt is not asked for again after it. -/
theorem Leaves.settled (h : Leaves tokens b d target pos reach) (hr : b.Ready tokens target pos)
    (hle : pos ≤ next) : ∀ c ∈ b.arena.children target, ∀ q, d.Claims c q → q < next := by
  intro c hc q hq
  have hold := h.frame.old hq (hr.sane.linked.lt_size hc)
  exact Nat.lt_of_lt_of_le (hr.settled c hc q hold) hle

theorem Leaves.lt (h : Leaves tokens b d target pos reach) (hr : b.Ready tokens target pos) :
    target < d.arena.size :=
  Nat.lt_of_lt_of_le hr.lt h.frame.size_le

theorem Leaves.free (h : Leaves tokens b d target pos reach) (hr : b.Ready tokens target pos) :
    d.Free target :=
  h.frame.free target hr.lt hr.free

theorem Leaves.ready (h : Leaves tokens b d target pos reach) (hr : b.Ready tokens target pos)
    (hset : ∀ c ∈ d.arena.children target, ∀ q, d.Claims c q → q < next) :
    d.Ready tokens target next :=
  ⟨h.sane, h.lt hr, h.free hr, hset⟩

/-- After an attempt, a target that was ready is ready further on. -/
theorem Finished.ready (h : Finished tokens b d target pos next a) (hr : b.Ready tokens target pos) :
    d.Ready tokens target next := by
  refine h.leaves.ready hr ?_
  intro c hc q hq
  obtain ⟨_, built, -, hch, -, -, hset, -⟩ := h.grown
  rw [hch] at hc
  rcases List.mem_append.mp hc with hc | hc
  · exact h.leaves.settled hr h.le c hc q hq
  · exact hset c hc q hq

theorem Abandoned.ready (h : Abandoned tokens b d target pos a) (hr : b.Ready tokens target pos) :
    d.Ready tokens target pos := by
  refine h.leaves.ready hr ?_
  rw [h.children]
  exact h.leaves.settled hr (Nat.le_refl _)

/-- An attempt that matched without building anything. -/
theorem Leaves.nothing (h : Leaves tokens b d target pos a.reach)
    (hch : d.arena.children target = b.arena.children target) (ho : a.outcome = .matched [] pos) :
    Finished tokens b d target pos pos a :=
  ⟨h, Nat.le_refl _, [], [], ho, by rw [hch, List.append_nil], rfl, by simp, by simp, by simp,
    fun _ => rfl⟩

/-- Parts that follow each other. -/
theorem Finished.trans {b b₁ b₂ : Builder} {target pos next last : Nat} {a₁ a₂ a : Attempt}
    {trees more : List Tree} (hr : b.Ready tokens target pos)
    (h₁ : Finished tokens b b₁ target pos next a₁)
    (h₂ : Finished tokens b₁ b₂ target next last a₂)
    (ho₁ : a₁.outcome = .matched trees next) (ho₂ : a₂.outcome = .matched more last)
    (ho : a.outcome = .matched (trees ++ more) last) (hreach : a.reach = max a₁.reach a₂.reach) :
    Finished tokens b b₂ target pos last a := by
  obtain ⟨ts, built, ht, hch, hlen, hnew, hset, hhead, hnil⟩ := h₁.grown
  obtain ⟨ts', built', ht', hch', hlen', hnew', hset', hhead', hnil'⟩ := h₂.grown
  rw [ho₁] at ht
  rw [ho₂] at ht'
  cases ht
  cases ht'
  have hle₁ := h₁.le
  have hle₂ := h₂.le
  have hold : ∀ c ∈ built, c < b₁.arena.size := by
    intro c hc
    exact h₁.leaves.sane.linked.lt_size (p := target) (by simp [hch, hc])
  refine ⟨?_, by omega, trees ++ more, built ++ built', ho, ?_, ?_, ?_, ?_, ?_, ?_⟩
  · rw [hreach]
    exact h₁.leaves.trans hr.sane h₂.leaves hle₁
  · rw [hch', hch, List.append_assoc]
  · simp [hlen, hlen']
  · intro c hc
    rcases List.mem_append.mp hc with hc | hc
    · exact hnew c hc
    · exact h₁.leaves.frame.made (hnew' c hc)
  · intro c hc q hq
    rcases List.mem_append.mp hc with hc | hc
    · have := hset c hc q (h₂.leaves.frame.old hq (hold c hc))
      omega
    · exact hset' c hc q hq
  · intro c hc q hq
    -- the first node is the second attempt's where the first built none, and then none moved on
    cases hb : built with
    | nil =>
      rw [hb, List.nil_append] at hc
      rw [hhead' c hc q hq, hnil hb]
    | cons x xs =>
      have hx : c = x := by simpa [hb, eq_comm] using hc
      subst hx
      have hmem : c ∈ built := by simp [hb]
      exact hhead c (by simp [hb]) q (h₂.leaves.frame.old hq (hold c hmem))
  · intro hn
    obtain ⟨h1, h2⟩ := List.append_eq_nil_iff.mp hn
    rw [hnil' h2, hnil h1]

/-- What follows an attempt that failed is built as if it came first. -/
theorem Abandoned.trans {b₂ : Builder} {a₁ a₂ : Attempt} (hr : b.Ready tokens target pos)
    (h₁ : Abandoned tokens b d target pos a₁) (h₂ : Finished tokens d b₂ target pos next a₂) :
    Finished tokens b b₂ target pos next (a₂.reaching a₁.reach) := by
  obtain ⟨trees, -, ho, -⟩ := h₂.grown
  have hnothing : Finished tokens b d target pos pos ⟨.matched [] pos, a₁.reach⟩ :=
    Leaves.nothing h₁.leaves h₁.children rfl
  exact Finished.trans hr hnothing h₂ rfl ho ho rfl

end Steps

/-- A node that was built and stands nowhere below the target yet: it was made on the way, or the
table holds it for the position where the attempt began. -/
structure InHand (tokens : Array Token) (b d : Builder) (target pos next reach node : Nat) :
    Prop where
  leaves : Leaves tokens b d target pos reach
  children : d.arena.children target = b.arena.children target
  le : pos ≤ next
  lt : node < d.arena.size
  ne_root : node ≠ root
  new : b.arena.size ≤ node ∨ b.Claimed node
  claims : ∀ q, d.Claims node q → q = pos ∧ q < next

namespace InHand

variable {pos next reach node : Nat}

/-- A node that was made on the way and that the table does not hold. -/
theorem made (h : Leaves tokens b d target pos reach) (hr : b.Ready tokens target pos)
    (hch : d.arena.children target = b.arena.children target) (hle : pos ≤ next)
    (hge : b.arena.size ≤ node) (hlt : node < d.arena.size) (hfree : d.Free node) :
    InHand tokens b d target pos next reach node where
  leaves := h
  children := hch
  le := hle
  lt := hlt
  ne_root := by
    have := hr.lt
    rw [root]
    omega
  new := Or.inl hge
  claims := fun q hq => absurd ⟨q, hq⟩ hfree.unclaimed

theorem ready (h : InHand tokens b d target pos next reach node) (hr : b.Ready tokens target pos) :
    d.Ready tokens target next := by
  refine h.leaves.ready hr ?_
  rw [h.children]
  exact h.leaves.settled hr h.le

theorem new_or_here (h : InHand tokens b d target pos next reach node) :
    b.arena.size ≤ node ∨ b.Claims node pos := by
  rcases h.new with hge | ⟨q, hq⟩
  · exact Or.inl hge
  · rw [← (h.claims q (h.leaves.frame.claims hq)).1]
    exact Or.inr hq

theorem movable (h : InHand tokens b d target pos next reach node) :
    b.arena.size ≤ node ∨ (b.Moves pos node ∧ b.Claimed node) :=
  h.new_or_here.imp id fun hc => ⟨⟨pos, Nat.le_refl _, hc⟩, ⟨pos, hc⟩⟩

theorem ne_target (h : InHand tokens b d target pos next reach node)
    (hr : b.Ready tokens target pos) : node ≠ target := by
  rintro rfl
  rcases h.new with hge | hc
  · exact absurd hr.lt (Nat.not_lt.mpr hge)
  · exact hr.free.unclaimed hc

theorem not_mem (h : InHand tokens b d target pos next reach node)
    (hr : b.Ready tokens target pos) : node ∉ b.arena.children target := by
  intro hm
  rcases h.movable with hge | ⟨hm', -⟩
  · exact absurd (hr.sane.linked.lt_size hm) (Nat.not_lt.mpr hge)
  · exact hr.not_moves node hm hm'

theorem children_append (h : InHand tokens b d target pos next reach node)
    (hr : b.Ready tokens target pos) :
    (d.append target node).arena.children target = b.arena.children target ++ [node] := by
  rw [arena_append, Arena.children_append h.leaves.sane.linked (h.leaves.lt hr), if_pos rfl,
    h.children, List.erase_of_not_mem (h.not_mem hr)]

/-- Appending the node to the target finishes an attempt that read one tree. -/
theorem finished {a : Attempt} {t : Tree} (h : InHand tokens b d target pos next a.reach node)
    (hr : b.Ready tokens target pos) (ho : a.outcome = .matched [t] next) :
    Finished tokens b (d.append target node) target pos next a := by
  have hleaves := h.leaves.append hr.sane (h.leaves.lt hr) (Or.inl rfl) h.lt h.movable
    (h.ne_target hr) h.ne_root
  refine ⟨hleaves, h.le, [t], [node], ho, h.children_append hr, rfl, ?_, ?_, ?_, by simp⟩
  · intro c hc
    rw [List.mem_singleton.mp hc]
    exact h.new
  · intro c hc q hq
    rw [List.mem_singleton.mp hc] at hq
    exact (h.claims q hq).2
  · intro c hc q hq
    cases hc
    exact (h.claims q hq).1

end InHand

/-- A new node takes another one from wherever it is. -/
theorem take_spec {node : Nat} (hs : b.Sane tokens) (kind : Tree.Kind) (text : String)
    (line : Nat) (hlt : node < b.arena.size) (hroot : node ≠ root) :
    let taken := (b.add kind text line).append b.next node
    taken.Sane tokens ∧ taken.arena.size = b.arena.size + 1 ∧ ∀ x, taken.arena.children x =
      (b.arena.children x).erase node ++ if x = b.next then [node] else [] := by
  have hadd := hs.add kind text line
  have hnext : b.next < (b.add kind text line).arena.size := by simp
  refine ⟨hadd.append hnext (by simp; omega) (Nat.ne_of_lt hlt) hroot, by simp, ?_⟩
  intro x
  rw [arena_append, Arena.children_append hadd.linked hnext, arena_add, Arena.children_add]

section Apart

variable {kind : Tree.Kind} {text : String} {line pos next reach : Nat} {a : Attempt}

/-- What an attempt below a new node leaves behind, seen from before that node. -/
theorem Leaves.since_add (h : Leaves tokens (b.add kind text line) d b.next pos reach)
    (hs : b.Sane tokens) (target : Nat) : Leaves tokens b d target pos reach where
  sane := h.sane
  frame := (frame_add b kind text line (b.Moves pos) target).trans hs.linked h.frame
    (fun _ hm => hm) (fun _ _ hm => hm) (Or.inl rfl) (Or.inr (Nat.le_refl _))
  furthest := h.furthest
  since := h.since

theorem Leaves.children_apart (h : Leaves tokens (b.add kind text line) d b.next pos reach)
    (hr : b.Ready tokens target pos) : d.arena.children target = b.arena.children target := by
  have hlt := hr.lt
  have hne : target ≠ b.next := Nat.ne_of_lt hlt
  have hc := h.frame.children target (by rw [arena_add, Arena.size_add]; omega) hne
    (by rw [arena_add, Arena.children_add]; exact hr.not_moves)
  simpa using hc

theorem Finished.since_add (h : Finished tokens (b.add kind text line) d b.next pos next a) :
    ∃ trees, a.outcome = .matched trees next ∧
      (d.arena.children b.next).length = trees.length ∧
      (∀ c ∈ d.arena.children b.next, b.arena.size < c ∨ b.Claimed c) ∧
      (∀ c ∈ d.arena.children b.next, ∀ q, d.Claims c q → q < next) ∧
      (∀ c, (d.arena.children b.next).head? = some c → ∀ q, d.Claims c q → q = pos) ∧
      (d.arena.children b.next = [] → next = pos) := by
  obtain ⟨trees, built, ho, hch, hlen, hnew, hset, hhead, hnil⟩ := h.grown
  rw [children_next, List.nil_append] at hch
  rw [hch]
  refine ⟨trees, ho, hlen, ?_, hset, hhead, hnil⟩
  intro c hc
  rcases hnew c hc with h | h
  · rw [arena_add, Arena.size_add] at h
    exact Or.inl h
  · exact Or.inr h

/-- The first node that was built below a new one can be taken from there. -/
theorem Finished.inHand {node : Nat}
    (h : Finished tokens (b.add kind text line) d b.next pos next a)
    (hr : b.Ready tokens target pos) (hfirst : (d.arena.children b.next).head? = some node) :
    InHand tokens b d target pos next a.reach node := by
  obtain ⟨_, -, -, hnew, hset, hhead, -⟩ := h.since_add
  have hmem : node ∈ d.arena.children b.next := List.mem_of_head? hfirst
  have hleaves := h.leaves.since_add hr.sane target
  refine ⟨hleaves, h.leaves.children_apart hr, h.le, hleaves.sane.linked.lt_size hmem, ?_,
    (hnew node hmem).imp Nat.le_of_lt id, fun q hq => ⟨hhead node hfirst q hq, hset node hmem q hq⟩⟩
  rintro rfl
  exact hleaves.sane.linked.root_not_mem _ hmem

end Apart

namespace InHand

variable {pos next last reach node line line' : Nat} {done : Builder} {a : Attempt}

/-- A suffix that failed leaves the node in hand. -/
theorem keep (h : InHand tokens b d target pos next reach node) (hr : b.Ready tokens target pos)
    (ha : Abandoned tokens (d.add .temporary "" line) done d.next next a) :
    InHand tokens b done target pos next (max reach a.reach) node := by
  have hd := h.ready hr
  have hleaves := ha.leaves.since_add hd.sane target
  exact
    { h with
      leaves := h.leaves.trans hr.sane hleaves h.le
      children := (ha.leaves.children_apart hd).trans h.children
      lt := Nat.lt_of_lt_of_le h.lt hleaves.frame.size_le
      claims := fun q hq => h.claims q (hleaves.frame.old hq h.lt) }

/-- A suffix that matched is wrapped together with the node before it. -/
theorem wrap (h : InHand tokens b d target pos next reach node) (hr : b.Ready tokens target pos)
    (hf : Finished tokens (d.add .temporary "" line) done d.next next last a) :
    InHand tokens b
      (((done.add .expression "" line').append done.next node).moveChildren d.next done.next)
      target pos last (max reach a.reach) done.next := by
  have hd := h.ready hr
  have hleaves := h.leaves.trans hr.sane (hf.leaves.since_add hd.sane target) h.le
  obtain ⟨_, -, -, hnew, -⟩ := hf.since_add
  have hsize : d.arena.size < done.arena.size := by
    have := hf.leaves.frame.size_le
    rw [arena_add, Arena.size_add] at this
    omega
  have hb := h.leaves.frame.size_le
  have hlt := h.lt
  have htarget := hr.lt
  have hbd : b.arena.size ≤ done.arena.size := Nat.le_of_lt (Nat.lt_of_le_of_lt hb hsize)
  -- the new expression takes the node before it
  let v := (done.add .expression "" line').append done.arena.size node
  obtain ⟨-, hvsize, hvch⟩ : v.Sane tokens ∧ v.arena.size = done.arena.size + 1 ∧
      ∀ x, v.arena.children x =
        (done.arena.children x).erase node ++ if x = done.arena.size then [node] else [] :=
    take_spec hleaves.sane .expression "" line' (Nat.lt_trans h.lt hsize) h.ne_root
  have hv : Leaves tokens b v target pos (max reach a.reach) :=
    (hleaves.add hr.sane .expression "" line').append hr.sane (by simp) (Or.inr hbd)
      (by simp; omega) h.movable (by omega) h.ne_root
  -- and then the parts of the suffix
  have hs : d.arena.size < v.arena.size := by omega
  have hn : done.arena.size < v.arena.size := by omega
  have hsn : d.arena.size ≠ done.arena.size := Nat.ne_of_lt hsize
  have hsrc : v.arena.children d.arena.size = (done.arena.children d.arena.size).erase node := by
    rw [hvch, if_neg hsn, List.append_nil]
  have hnot : done.arena.size ∉ v.arena.children d.arena.size := by
    rw [hsrc]
    intro hm
    exact Nat.lt_irrefl _ (hleaves.sane.linked.lt_size (List.mem_of_mem_erase hm))
  have hbuilt : ∀ c ∈ v.arena.children d.arena.size, b.arena.size ≤ c ∨ b.Claimed c := by
    intro c hc
    rw [hsrc] at hc
    exact h.leaves.frame.made ((hnew c (List.mem_of_mem_erase hc)).imp Nat.le_of_lt id)
  obtain ⟨-, hmsize, -, hmch⟩ := Arena.moveChildren_spec hv.sane.linked hs hn hsn hnot
  refine ⟨hv.move hs hb hn (Or.inr hbd) hsn hnot hbuilt, ?_, Nat.le_trans h.le hf.le,
    ?_, ?_, Or.inl hbd, ?_⟩
  · have htn : target ≠ done.arena.size := by omega
    have hts : target ≠ d.arena.size := by omega
    rw [next_eq, next_eq, arena_moveChildren, hmch, if_neg htn, if_neg hts, hvch, if_neg htn,
      List.append_nil, hf.leaves.children_apart hd, h.children,
      List.erase_of_not_mem (h.not_mem hr)]
  · rw [next_eq, next_eq, arena_moveChildren]
    exact Nat.lt_of_lt_of_eq hn hmsize.symm
  · rw [next_eq, root]
    omega
  · -- no entry of the table names a node that was not there before
    rintro q ⟨r, e, he⟩
    rw [lookup?_moveChildren, lookup?_append, lookup?_add] at he
    exact absurd (hleaves.sane.lt_size ⟨r, e, he⟩) (Nat.lt_irrefl _)

end InHand

end Builder

open Builder

theorem agrees_token (kind : Token.Kind) (text : Option String) (limited : Nat → Attempt) :
    Agrees tokens (buildToken tokens kind text) limited (readToken tokens kind text) := by
  intro target pos b b' res hr hrun
  unfold buildToken at hrun
  unfold readToken
  cases ht : tokenAt? tokens pos with
  | none =>
    simp only [ht, Prod.mk.injEq] at hrun
    obtain ⟨rfl, rfl⟩ := hrun
    exact ⟨rfl, .refl hr.sane (Nat.zero_le _), rfl⟩
  | some t =>
    simp only [ht] at hrun
    have hlook : Leaves tokens b (b.lookAt (skip tokens pos)) target pos (skip tokens pos) :=
      .lookAt hr.sane _
    by_cases hacc : accepts kind text t = true
    · simp only [hacc, if_true, Prod.mk.injEq] at hrun ⊢
      obtain ⟨rfl, rfl⟩ := hrun
      have hadd := hlook.add hr.sane (terminalKind t.kind) (terminalText t) t.line
      have hle : pos ≤ skip tokens pos + 1 := Nat.le_succ_of_le (le_skip tokens pos)
      have hnew := hlook.sane.ready_next (terminalKind t.kind) (terminalText t) t.line pos
      have hin := InHand.made hadd hr (by simp [lookAt]) hle (Nat.le_refl _) hnew.lt hnew.free
      exact InHand.finished hin hr rfl
    · simp only [hacc] at hrun ⊢
      simp only [Bool.false_eq_true, if_false, Prod.mk.injEq] at hrun ⊢
      obtain ⟨rfl, rfl⟩ := hrun
      exact ⟨rfl, hlook, rfl⟩

theorem agrees_apart {run : Build} {limited plain : Nat → Attempt}
    (h : AgreesLoosely tokens run limited plain) :
    Agrees tokens (buildApart tokens run) limited plain := by
  intro target pos b b' res hr hrun
  unfold buildApart at hrun
  cases hrun₁ : run b.next pos (b.add .temporary "" (lineAt tokens pos)) with
  | mk res₁ d =>
    have h₁ := h (hr.sane.ready_next .temporary "" (lineAt tokens pos) pos) hrun₁
    rw [hrun₁] at hrun
    cases res₁ with
    | exhausted => cases hrun; exact h₁
    | failed =>
      cases hrun
      exact ⟨h₁.1, h₁.2.since_add hr.sane target, h₁.2.children_apart hr⟩
    -- all that was built apart goes to the target, which is not itself among it
    | matched next =>
      cases hrun
      have hleaves := h₁.leaves.since_add hr.sane target
      obtain ⟨trees, ho, hlen, hnew, hset, hhead, hnil⟩ := h₁.since_add
      have hlt := hr.lt
      have hle := h₁.leaves.frame.size_le
      rw [arena_add, Arena.size_add] at hle
      have hs : b.arena.size < d.arena.size := by omega
      have htlt : target < d.arena.size := Nat.lt_trans hlt hs
      have hne : b.next ≠ target := Nat.ne_of_gt hlt
      have hnot : target ∉ d.arena.children b.next := by
        intro hm
        rcases hnew target hm with hgt | hc
        · exact Nat.lt_asymm hlt hgt
        · exact hr.free.unclaimed hc
      have hnew' : ∀ c ∈ d.arena.children b.next, b.arena.size ≤ c ∨ b.Claimed c := by
        intro c hc
        exact (hnew c hc).imp Nat.le_of_lt id
      obtain ⟨-, -, -, hch⟩ := Arena.moveChildren_spec hleaves.sane.linked hs htlt hne hnot
      refine ⟨hleaves.move hs (Nat.le_refl _) htlt (Or.inl rfl) hne hnot hnew', h₁.le, trees,
        d.arena.children b.next, ho, ?_, hlen, hnew', hset, hhead, hnil⟩
      rw [arena_moveChildren, next_eq, hch, if_pos rfl, h₁.leaves.children_apart hr]

/-- A reading with less fuel that is the plain one wherever it has an answer. -/
def Limits (limited plain : Nat → Attempt) : Prop :=
  ∀ q, (limited q).outcome ≠ .exhausted → limited q = plain q

theorem Limits.cases {limited plain : Nat → Attempt} (h : Limits limited plain) (pos : Nat) :
    (limited pos).outcome = .exhausted ∨ limited pos = plain pos := by
  by_cases hx : (limited pos).outcome = .exhausted
  · exact Or.inl hx
  · exact Or.inr (h pos hx)

theorem readMany_ne_failed (step : Nat → Attempt) (fuel : Nat) :
    ∀ pos, (readMany step fuel pos).outcome ≠ .failed := by
  induction fuel with
  | zero => intro pos h; cases h
  | succ fuel ih =>
    intro pos h
    simp only [readMany] at h
    cases ho : (step pos).outcome with
    | exhausted => simp [ho] at h
    | failed => simp [ho] at h
    | matched trees next =>
      simp only [ho] at h
      split at h
      · simp [ho] at h
      · rw [Attempt.outcome_reaching, Attempt.outcome_map_eq_failed] at h
        exact ih next h

theorem agrees_many {step : Build} {limited plain : Nat → Attempt}
    (h : Agrees tokens step limited plain) (hlim : Limits limited plain) (fuel : Nat) :
    Agrees tokens (buildMany step fuel) (readMany limited fuel) (readMany plain fuel) := by
  -- the induction is on the rounds; a round that takes nothing is the last
  induction fuel with
  | zero =>
    intro target pos b b' res _ hrun
    cases hrun
    rfl
  | succ fuel ih =>
    intro target pos b b' res hr hrun
    simp only [buildMany] at hrun
    cases hstep : step target pos b with
    | mk res₁ d =>
      have h₁ := h hr hstep
      simp only [hstep] at hrun
      cases res₁ with
      | exhausted =>
        cases hrun
        simp only [readMany, show (limited pos).outcome = .exhausted from h₁]
      | failed =>
        cases hrun
        simp only [readMany, h₁.outcome]
        exact Leaves.nothing h₁.leaves h₁.children rfl
      | matched next =>
        obtain ⟨trees, built, ho, -⟩ := h₁.grown
        by_cases hnext : next = pos
        · simp only [hnext, if_true] at hrun
          cases hrun
          subst hnext
          simpa only [readMany, ho, if_true] using h₁
        · simp only [hnext, if_false] at hrun
          have h₂ := ih (h₁.ready hr) hrun
          cases res with
          | exhausted =>
            rcases hlim.cases pos with hx | hx
            · simp only [readMany, hx]
            · simp only [readMany, hx, ho, hnext, if_false, Attempt.outcome_reaching]
              rw [Attempt.map_exhausted h₂]
              exact h₂
          | failed =>
            exact absurd h₂.outcome (readMany_ne_failed plain fuel next)
          | matched last =>
            obtain ⟨more, -, ho₂, -⟩ := h₂.grown
            refine Finished.trans hr h₁ h₂ ho ho₂ ?_ ?_
            · simp only [readMany, ho, hnext, if_false, Attempt.outcome_reaching,
                Attempt.map_matched ho₂]
            · simp only [readMany, ho, hnext, if_false, Attempt.reach_reaching,
                Attempt.reach_map]

/-- With a node in hand, every suffix that matches is wrapped with it, and the last expression is
appended to the target. -/
theorem agrees_suffixes {step : Build} {limited plain : Nat → Attempt}
    (h : Agrees tokens step limited plain) (hlim : Limits limited plain) {target pos : Nat}
    {b : Builder} (hr : b.Ready tokens target pos) (fuel : Nat) :
    ∀ {d b' : Builder} {next reach node : Nat} {res : Result} (t : Tree),
      InHand tokens b d target pos next reach node →
      buildSuffixes tokens step fuel node target next d = (res, b') →
      match res with
      | .exhausted => (readSuffixes limited fuel t next).outcome = .exhausted
      | .failed => False
      | .matched last =>
        Finished tokens b b' target pos last ((readSuffixes plain fuel t next).reaching reach) := by
  -- the induction is on the rounds; the tree in hand grows as the node in hand is wrapped
  induction fuel with
  | zero =>
    intro d b' next reach node res t _ hrun
    cases hrun
    rfl
  | succ fuel ih =>
    intro d b' next reach node res t hh hrun
    have hd := hh.ready hr
    simp only [buildSuffixes] at hrun
    cases hstep : step d.next next (d.add .temporary "" (lineAt tokens next)) with
    | mk res₁ done =>
      have h₁ := h (hd.sane.ready_next .temporary "" (lineAt tokens next) next) hstep
      simp only [hstep] at hrun
      cases res₁ with
      | exhausted =>
        cases hrun
        simp only [readSuffixes, show (limited next).outcome = .exhausted from h₁]
      | failed =>
        cases hrun
        have hkept := hh.keep hr h₁
        simp only [readSuffixes, h₁.outcome]
        exact InHand.finished hkept hr rfl
      | matched m =>
        obtain ⟨parts, -, ho, -⟩ := h₁.grown
        have h₂ := ih (.branch .expression t.line (t :: parts)) (hh.wrap hr h₁) hrun
        cases res with
        | failed => exact h₂
        | exhausted =>
          rcases hlim.cases next with hx | hx
          · simp only [readSuffixes, hx]
          · simp only [readSuffixes, hx, ho, Attempt.outcome_reaching]
            exact h₂
        | matched last =>
          simp only [readSuffixes, ho, Attempt.reaching_reaching]
          exact h₂

section Productions

variable {rule : Rule → Build} {limited plain : Rule → Nat → Attempt}

theorem limits_production (hext : Extends limited plain) (p : Production) :
    Limits (readProduction tokens limited p) (readProduction tokens plain p) :=
  readProduction_extend hext p

theorem limits_parts (hext : Extends limited plain) (parts : List Production) :
    Limits (readParts tokens limited parts) (readParts tokens plain parts) :=
  readParts_extend hext parts

/-- A production is built as it is read. -/
def AgreesOn (tokens : Array Token) (rule : Rule → Build) (limited plain : Rule → Nat → Attempt)
    (p : Production) : Prop :=
  Agrees tokens (buildProduction tokens rule p) (readProduction tokens limited p)
    (readProduction tokens plain p)

theorem agrees_node {kind : Tree.Kind} {alternatives : List (List Production)}
    (h : Agrees tokens (buildChoice tokens rule alternatives)
      (readChoice tokens limited alternatives) (readChoice tokens plain alternatives)) :
    AgreesOn tokens rule limited plain (.node kind alternatives) := by
  intro target pos b b' res hr hrun
  have hstart := hr.sane.ready_next kind "" (lineAt tokens pos) pos
  simp only [buildProduction] at hrun
  simp only [readProduction]
  cases hrun₁ : buildChoice tokens rule alternatives b.next pos
      (b.add kind "" (lineAt tokens pos)) with
  | mk res₁ d =>
    have h₁ := h hstart hrun₁
    simp only [hrun₁] at hrun
    cases res₁ with
    | exhausted =>
      cases hrun
      rw [Attempt.map_exhausted h₁]
      exact h₁
    | failed =>
      cases hrun
      rw [Attempt.map_failed h₁.outcome]
      exact ⟨h₁.outcome, h₁.leaves.since_add hr.sane target, h₁.leaves.children_apart hr⟩
    | matched next =>
      cases hrun
      obtain ⟨trees, ho, -⟩ := h₁.since_add
      have hin := InHand.made (h₁.leaves.since_add hr.sane target) hr
        (h₁.leaves.children_apart hr) h₁.le (Nat.le_refl _) (h₁.leaves.lt hstart)
        (h₁.leaves.free hstart)
      rw [Attempt.map_matched ho]
      exact InHand.finished hin hr rfl

theorem agrees_optional {p : Production} (h : AgreesOn tokens rule limited plain p) :
    AgreesOn tokens rule limited plain (.optional p) := by
  intro target pos b b' res hr hrun
  simp only [buildProduction] at hrun
  simp only [readProduction]
  cases hrun₁ : buildProduction tokens rule p target pos b with
  | mk res₁ d =>
    have h₁ := h hr hrun₁
    simp only [hrun₁] at hrun
    cases res₁ with
    | exhausted =>
      cases hrun
      rw [Attempt.orElse_exhausted h₁]
      exact h₁
    | failed =>
      cases hrun
      rw [Attempt.orElse_failed h₁.outcome]
      refine Leaves.nothing ?_ h₁.children rfl
      rw [Attempt.reach_reaching, Nat.max_zero]
      exact h₁.leaves
    | matched next =>
      cases hrun
      obtain ⟨trees, -, ho, -⟩ := h₁.grown
      rw [Attempt.orElse_matched ho]
      exact h₁

theorem agrees_chain (hext : Extends limited plain) {head suffix : Production}
    (hhead : AgreesOn tokens rule limited plain head)
    (hsuffix : AgreesOn tokens rule limited plain suffix) :
    AgreesOn tokens rule limited plain (.chain head suffix) := by
  intro target pos b b' res hr hrun
  have hstart := hr.sane.ready_next .temporary "" (lineAt tokens pos) pos
  simp only [buildProduction] at hrun
  simp only [readProduction]
  cases hrun₁ : buildProduction tokens rule head b.next pos
      (b.add .temporary "" (lineAt tokens pos)) with
  | mk res₁ d =>
    have h₁ := hhead hstart hrun₁
    simp only [hrun₁] at hrun
    cases res₁ with
    | exhausted =>
      cases hrun
      rw [Attempt.andThen_exhausted h₁]
      exact h₁
    | failed =>
      cases hrun
      rw [Attempt.andThen_failed h₁.outcome]
      exact ⟨h₁.outcome, h₁.leaves.since_add hr.sane target, h₁.leaves.children_apart hr⟩
    | matched next =>
      obtain ⟨trees, ho, hlen, -⟩ := h₁.since_add
      cases hc : d.arena.children b.next with
      | nil =>
        -- a head that read nothing has no node to wrap
        simp only [Arena.child?, hc, List.getElem?_nil] at hrun
        cases hrun
        rw [hc] at hlen
        have htrees : trees = [] := List.eq_nil_of_length_eq_zero hlen.symm
        subst htrees
        rw [Attempt.andThen_matched ho]
        exact ⟨rfl, by simpa [Attempt.reaching] using h₁.leaves.since_add hr.sane target,
          h₁.leaves.children_apart hr⟩
      | cons node others =>
        simp only [Arena.child?, hc, List.getElem?_cons_zero] at hrun
        cases trees with
        | nil => rw [hc] at hlen; cases hlen
        | cons t ts =>
          have hin := h₁.inHand hr (by rw [hc]; rfl)
          have h₂ := agrees_suffixes hsuffix (limits_production hext suffix) hr (tokens.size + 1) t
            hin hrun
          cases res with
          | failed => exact h₂.elim
          | exhausted =>
            rcases (limits_production hext head).cases pos with hx | hx
            · rw [Attempt.andThen_exhausted hx]
              exact hx
            · rw [hx, Attempt.andThen_matched ho]
              exact h₂
          | matched last =>
            rw [Attempt.andThen_matched ho]
            exact h₂

mutual

/-- Every production is built as it is read, if the rules it refers to are. -/
theorem agrees_production (hrule : ∀ r, Agrees tokens (rule r) (limited r) (plain r))
    (hext : Extends limited plain) :
    ∀ p : Production, Agrees tokens (buildProduction tokens rule p)
      (readProduction tokens limited p) (readProduction tokens plain p)
  | .token kind text => by
    intro target pos b b' res hr hrun
    simp only [buildProduction] at hrun
    simp only [readProduction]
    exact agrees_token kind text (readToken tokens kind text) hr hrun
  | .rule r => by
    intro target pos b b' res hr hrun
    simp only [buildProduction] at hrun
    simp only [readProduction]
    exact hrule r hr hrun
  | .node _ alternatives => agrees_node (agrees_choice hrule hext alternatives)
  | .choice alternatives => by
    intro target pos b b' res hr hrun
    simp only [buildProduction] at hrun
    simp only [readProduction]
    exact agrees_choice hrule hext alternatives hr hrun
  | .many parts => by
    intro target pos b b' res hr hrun
    simp only [buildProduction] at hrun
    simp only [readProduction]
    exact agrees_many (agrees_apart (agrees_parts hrule hext parts)) (limits_parts hext parts)
      (tokens.size + 1) hr hrun
  | .optional p => agrees_optional (agrees_production hrule hext p)
  | .chain head suffix =>
    agrees_chain hext (agrees_production hrule hext head) (agrees_production hrule hext suffix)

theorem agrees_parts (hrule : ∀ r, Agrees tokens (rule r) (limited r) (plain r))
    (hext : Extends limited plain) :
    ∀ parts : List Production, AgreesLoosely tokens (buildParts tokens rule parts)
      (readParts tokens limited parts) (readParts tokens plain parts)
  | [] => by
    intro target pos b b' res hr hrun
    simp only [buildParts] at hrun
    cases hrun
    exact Leaves.nothing (.refl hr.sane (by simp [readParts])) rfl rfl
  | p :: parts => by
    intro target pos b b' res hr hrun
    simp only [buildParts] at hrun
    simp only [readParts]
    cases hrun₁ : buildProduction tokens rule p target pos b with
    | mk res₁ d =>
      have h₁ := agrees_production hrule hext p hr hrun₁
      simp only [hrun₁] at hrun
      cases res₁ with
      | exhausted =>
        cases hrun
        rw [Attempt.andThen_exhausted h₁]
        exact h₁
      | failed =>
        cases hrun
        rw [Attempt.andThen_failed h₁.outcome]
        exact ⟨h₁.outcome, h₁.leaves⟩
      | matched next =>
        obtain ⟨trees, -, ho, -⟩ := h₁.grown
        have h₂ := agrees_parts hrule hext parts (h₁.ready hr) hrun
        rw [Attempt.andThen_matched ho]
        cases res with
        -- with less fuel a part is read in the same way, or its reading is cut short
        | exhausted =>
          rcases (limits_production hext p).cases pos with hx | hx
          · rw [Attempt.andThen_exhausted hx]
            exact hx
          · rw [hx, Attempt.andThen_matched ho, Attempt.outcome_reaching, Attempt.map_exhausted h₂]
            exact h₂
        | failed =>
          rw [Attempt.map_failed h₂.1]
          exact ⟨h₂.1, h₁.leaves.trans hr.sane h₂.2 h₁.le⟩
        | matched last =>
          obtain ⟨more, -, ho₂, -⟩ := h₂.grown
          refine h₁.trans hr h₂ ho ho₂ ?_ ?_
          · rw [Attempt.outcome_reaching, Attempt.map_matched ho₂]
          · rw [Attempt.reach_reaching, Attempt.reach_map]

theorem agrees_choice (hrule : ∀ r, Agrees tokens (rule r) (limited r) (plain r))
    (hext : Extends limited plain) :
    ∀ alternatives : List (List Production), Agrees tokens (buildChoice tokens rule alternatives)
      (readChoice tokens limited alternatives) (readChoice tokens plain alternatives)
  | [] => by
    intro target pos b b' res hr hrun
    simp only [buildChoice] at hrun
    cases hrun
    exact ⟨rfl, .refl hr.sane (by simp [readChoice]), rfl⟩
  | parts :: alternatives => by
    intro target pos b b' res hr hrun
    simp only [buildChoice] at hrun
    simp only [readChoice]
    cases hrun₁ : buildApart tokens (fun target pos b => buildParts tokens rule parts target pos b)
        target pos b with
    | mk res₁ d =>
      have h₁ := agrees_apart (agrees_parts hrule hext parts) hr hrun₁
      simp only [hrun₁] at hrun
      cases res₁ with
      | exhausted =>
        cases hrun
        rw [Attempt.orElse_exhausted h₁]
        exact h₁
      | matched next =>
        cases hrun
        obtain ⟨trees, -, ho, -⟩ := h₁.grown
        rw [Attempt.orElse_matched ho]
        exact h₁
      | failed =>
        have h₂ := agrees_choice hrule hext alternatives (h₁.ready hr) hrun
        rw [Attempt.orElse_failed h₁.outcome]
        cases res with
        | exhausted =>
          rcases (limits_parts hext parts).cases pos with hx | hx
          · rw [Attempt.orElse_exhausted hx]
            exact hx
          · rw [hx, Attempt.orElse_failed h₁.outcome]
            exact h₂
        | failed =>
          exact ⟨h₂.outcome, h₁.leaves.trans hr.sane h₂.leaves (Nat.le_refl _),
            h₂.children.trans h₁.children⟩
        | matched next => exact h₁.trans hr h₂

end

end Productions

end ScriptKit.Grammar
