import ScriptKit.Proofs.Arena.Ways

namespace ScriptKit.Arena

/-- One use of an operation on the nodes of an arena. -/
inductive Rewiring
  | add (kind : Tree.Kind) (text : String) (line : Nat)
  | append (parent child : NodeId)
  | setChildren (id : NodeId) (ids : List NodeId)
  | replace (old new : NodeId)
  | remove (id : NodeId)
  | moveChildren (source target : NodeId)
  deriving DecidableEq

namespace Rewiring

def run (a : Arena) : Rewiring → Arena
  | add kind text line => a.add kind text line
  | append parent child => a.append parent child
  | setChildren id ids => a.setChildren id ids
  | replace old new => a.replace old new
  | remove id => a.detach id
  | moveChildren source target => a.moveChildren source target

/-- The nodes that a use names. -/
def named : Rewiring → List NodeId
  | add _ _ _ => []
  | append parent child => [parent, child]
  | setChildren id ids => id :: ids
  | replace old new => [old, new]
  | remove id => [id]
  | moveChildren source target => [source, target]

/-- The nodes that a use attaches, each behind the one it is attached to. -/
def attached (a : Arena) : Rewiring → List (NodeId × NodeId)
  | add _ _ _ | remove _ => []
  | append parent child => [(parent, child)]
  | setChildren id ids => ids.map (id, ·)
  | replace old new =>
    if old = new then [] else (a.parent? old).toList.map (·, new)
  | moveChildren source target => (a.children source).map (target, ·)

/-- The root is not replaced, and no child is listed twice. -/
def Orderly : Rewiring → Prop
  | setChildren _ ids => ids.Nodup
  | replace old _ => old ≠ root
  | _ => True

/-- A use is legal if all nodes that it names exist, the root is neither attached nor replaced, no
node is attached below itself, and no child is listed twice. -/
structure Legal (a : Arena) (r : Rewiring) : Prop where
  exist : ∀ id ∈ r.named, id < a.size
  keepsRoot : ∀ e ∈ r.attached a, e.2 ≠ root
  downward : ∀ e ∈ r.attached a, ¬ a.Below e.2 e.1
  orderly : r.Orderly

/-- The children that nodes still list although they have lost them. A node whose place was taken
by one of its own children goes on listing it, until it is given other children or they are moved.
A lost child that is moved stays in the list of its parent, and moves as often as it was listed. -/
def leftOver (a : Arena) (left : List (NodeId × NodeId)) : Rewiring → List (NodeId × NodeId)
  | setChildren id _ => left.filter (·.1 ≠ id)
  | replace old new =>
    match a.parent? old with
    | some _ => if new ∈ a.children old then (old, new) :: left else left
    | none => left
  | moveChildren source target =>
    left.filter (·.1 ≠ source) ++ (a.children source).flatMap fun c =>
      if (source, c) ∈ left then
        (a.parent? c).toList.map (·, c) ++
          if 2 ≤ (a.children source).count c then [(target, c)] else []
      else []
  | _ => left

end Rewiring

/-- The arenas that legal uses make, with the children that were lost on the way. -/
inductive Rewired (file : String) : Arena → List (NodeId × NodeId) → Prop
  | start : Rewired file (empty file) []
  | step {a : Arena} {left : List (NodeId × NodeId)} {r : Rewiring} (before : Rewired file a left)
      (legal : r.Legal a) : Rewired file (r.run a) (r.leftOver a left)

variable {a : Arena} {left : List (NodeId × NodeId)}

section Lists

theorem children_relist {f : List NodeId → List NodeId} (hf : f [] = []) (p x : NodeId) :
    (a.setChildList p (f (a.children p))).children x =
      if x = p then f (a.children p) else a.children x := by
  by_cases hp : p < a.size
  · exact children_setChildList hp x _
  · have hnone : a.children p = [] := children_of_size_le (Nat.le_of_not_lt hp)
    have hsize : (a.setChildList p (f (a.children p))).size ≤ p := by simpa using hp
    split
    · rename_i hx
      rw [hx, hnone, hf, ← hf, ← hnone, children_of_size_le hsize, hnone, hf]
    · rename_i hx
      simp only [children, setChildList, node?_update, if_neg hx]

/-- A node that is detached is taken out of the list of its parent, and out of no other. -/
theorem children_detached (c x : NodeId) : (a.detach c).children x =
    if a.parent? c = some x ∧ x ≠ c then (a.children x).erase c else a.children x := by
  unfold detach
  split
  · rename_i hnone
    simp [hnone]
  · rename_i p hp
    rw [hp]
    by_cases hpc : p = c
    · subst hpc
      rw [if_pos rfl, if_neg]
      rintro ⟨he, hne⟩
      exact hne (Option.some.inj he).symm
    · rw [if_neg hpc, children_setParent, children_relist (f := (·.erase c)) rfl]
      by_cases hx : x = p
      · subst hx
        simp [hpc]
      · simp [hx, Ne.symm hx]

/-- A node becomes the last child of another, wherever it was before. -/
def attach (a : Arena) (p c : NodeId) : Arena :=
  (a.setChildList p (a.children p ++ [c])).setParent c (some p)

/-- A node takes the place of another in a list. -/
def exchange (a : Arena) (p old new : NodeId) : Arena :=
  ((a.setChildList p (replaceFirst old new (a.children p))).setParent new (some p)).setParent old none

section Equations

variable {p c x old new : NodeId} {ids : List NodeId}

theorem append_eq : a.append p c = (a.detach c).attach p c := rfl

@[simp] theorem size_attach : (a.attach p c).size = a.size := by
  simp [attach]

theorem children_attach (hp : p < a.size) :
    (a.attach p c).children x = if x = p then a.children p ++ [c] else a.children x := by
  rw [attach, children_setParent, children_setChildList hp]

theorem parent?_attach (hc : c < a.size) :
    (a.attach p c).parent? x = if x = c then some p else a.parent? x := by
  rw [attach, parent?_setParent (by simpa using hc), parent?_setChildList]

@[simp] theorem size_exchange : (a.exchange p old new).size = a.size := by
  simp [exchange]

theorem children_exchange : (a.exchange p old new).children x =
    if x = p then replaceFirst old new (a.children p) else a.children x := by
  rw [exchange, children_setParent, children_setParent]
  exact children_relist (f := replaceFirst old new) rfl p x

theorem parent?_exchange (hold : old < a.size) (hnew : new < a.size) :
    (a.exchange p old new).parent? x =
      if x = old then none else if x = new then some p else a.parent? x := by
  rw [exchange, parent?_setParent (by simpa using hold), parent?_setParent (by simpa using hnew),
    parent?_setChildList]

theorem children_setChildren {n : NodeId} (hn : n < a.size) : (a.setChildren n ids).children x =
    if x = n then ids else (a.detachOthers n ids).children x := by
  rw [← children_setChildList (by simpa using hn), children, children, node?_setChildren]
  split
  · cases ((a.detachOthers n ids).setChildList n ids).node? x <;> rfl
  · rfl

theorem parent?_setChildren {n : NodeId} (hids : ∀ c ∈ ids, c < a.size) :
    (a.setChildren n ids).parent? x =
      if x ∈ ids then some n else (a.detachOthers n ids).parent? x := by
  have hlist : ((a.detachOthers n ids).setChildList n ids).parent? x =
      (a.detachOthers n ids).parent? x := parent?_setChildList n x ids
  rw [← hlist, parent?, parent?, node?_setChildren]
  split
  · rename_i hx
    cases hm : ((a.detachOthers n ids).setChildList n ids).node? x with
    | none =>
      have hle := node?_eq_none_iff.mp hm
      rw [size_setChildList, size_detachOthers] at hle
      exact absurd (hids x hx) (Nat.not_lt.mpr hle)
    | some m => rfl
  · rfl

end Equations

/-- What comes before a node takes the place of another: it leaves its parent, unless that is the
node that it replaces. -/
def released (a : Arena) (old new : NodeId) : Arena :=
  match a.parent? new with
  | none => a
  | some q => if q = old then a else a.detach new

@[simp] theorem size_released (old new : NodeId) : (a.released old new).size = a.size := by
  unfold released
  split
  · rfl
  · split <;> simp

theorem parent?_released {old new : NodeId} (hne : old ≠ new) :
    (a.released old new).parent? old = a.parent? old := by
  unfold released
  split
  · rfl
  · split
    · rfl
    · exact parent?_detach_of_ne hne

theorem replace_eq {old new p : NodeId} (hparent : a.parent? old = some p) (hne : old ≠ new)
    (hnew : new < a.size) : a.replace old new = (a.released old new).exchange p old new := by
  have hkeep : (((a.released old new).setChildList p
      (replaceFirst old new ((a.released old new).children p))).setParent new (some p)).parent? old =
        some p := by
    rw [parent?_setParent (by simpa using hnew), if_neg hne, parent?_setChildList,
      parent?_released hne, hparent]
  rw [replace, hparent]
  dsimp only
  rw [if_neg hne]
  exact if_pos hkeep

theorem mem_of_mem_append {p c d x : NodeId} (hp : p < a.size)
    (h : d ∈ (a.append p c).children x) : d ∈ (a.detach c).children x ∨ x = p ∧ d = c := by
  rw [append_eq, children_attach (by simpa using hp)] at h
  split at h
  · rename_i hx
    subst hx
    exact (List.mem_append.mp h).imp_right fun hd => ⟨rfl, List.mem_singleton.mp hd⟩
  · exact Or.inl h

theorem mem_of_mem_detach {c d x : NodeId} (h : d ∈ (a.detach c).children x) : d ∈ a.children x := by
  rw [children_detached] at h
  split at h
  · exact List.mem_of_mem_erase h
  · exact h

theorem mem_of_mem_detachOthers {n d x : NodeId} {ids : List NodeId}
    (h : d ∈ (a.detachOthers n ids).children x) : d ∈ a.children x := by
  induction ids generalizing a with
  | nil => exact h
  | cons c cs ih =>
    have hfreed : d ∈ (a.freed n c).children x := ih h
    unfold freed at hfreed
    split at hfreed
    · exact hfreed
    · exact mem_of_mem_detach hfreed

variable {old new d : NodeId} {l : List NodeId}

theorem mem_of_mem_replaceFirst (h : d ∈ replaceFirst old new l) : d = new ∨ d ∈ l := by
  induction l with
  | nil => cases h
  | cons c cs ih =>
    rw [replaceFirst] at h
    split at h
    · exact (List.mem_cons.mp h).imp_right (List.mem_cons_of_mem c)
    · rcases List.mem_cons.mp h with rfl | h
      · exact Or.inr List.mem_cons_self
      · exact (ih h).imp_right (List.mem_cons_of_mem c)

theorem count_replaceFirst_le (old new d : NodeId) (l : List NodeId) :
    (replaceFirst old new l).count d ≤ l.count d + if d = new then 1 else 0 := by
  induction l with
  | nil => exact Nat.zero_le _
  | cons c cs ih =>
    rw [replaceFirst, List.count_cons]
    split
    · rw [List.count_cons]
      simp only [beq_iff_eq, eq_comm (a := new)]
      omega
    · rw [List.count_cons]
      omega

theorem count_replaceFirst_self (hne : old ≠ new) :
    (replaceFirst old new l).count old = l.count old - 1 := by
  induction l with
  | nil => rfl
  | cons c cs ih =>
    rw [replaceFirst]
    split
    · rename_i hc
      subst hc
      rw [List.count_cons_of_ne hne.symm, List.count_cons_self, Nat.add_sub_cancel]
    · rename_i hc
      rw [List.count_cons_of_ne hc, List.count_cons_of_ne hc, ih]

end Lists

/-- Child lists and parents agree, but for children that were lost. -/
structure Consistent (a : Arena) (left : List (NodeId × NodeId)) : Prop where
  parent_of_mem : ∀ {p c}, c ∈ a.children p → (p, c) ∉ left → a.parent? c = some p
  count_le : ∀ {p c}, (p, c) ∉ left → (a.children p).count c ≤ 1
  irrefl : ∀ p, p ∉ a.children p
  lt_size : ∀ {p c}, c ∈ a.children p → c < a.size

/-- Every node that lists a given one has lost it. -/
def Loose (a : Arena) (left : List (NodeId × NodeId)) (c : NodeId) : Prop :=
  ∀ p, c ∈ a.children p → (p, c) ∈ left

namespace Consistent

theorem empty (file : String) : (Arena.empty file).Consistent [] where
  parent_of_mem h _ := (linked_empty file).parent_of_mem h
  count_le _ := List.nodup_iff_count.mp ((linked_empty file).nodup _) _
  irrefl := (linked_empty file).irrefl
  lt_size h := lt_size_of_parent? ((linked_empty file).parent_of_mem h)

theorem add (h : a.Consistent left) (kind : Tree.Kind) (text : String) (line : Nat) :
    (a.add kind text line).Consistent left where
  parent_of_mem hc hl := by
    rw [parent?_add]
    exact h.parent_of_mem (by simpa using hc) hl
  count_le hl := by simpa using h.count_le hl
  irrefl p := by simpa using h.irrefl p
  lt_size hc := by
    rw [size_add]
    exact Nat.lt_succ_of_lt (h.lt_size (by simpa using hc))

theorem loose_of_parent (h : a.Consistent left) {c : NodeId}
    (hp : a.parent? c = none ∨ a.parent? c = some c) : a.Loose left c := by
  intro p hc
  by_contra hl
  have hparent := h.parent_of_mem hc hl
  rcases hp with hp | hp
  · rw [hp] at hparent
    cases hparent
  · rw [hp] at hparent
    cases hparent
    exact h.irrefl c hc

theorem loose_detach (h : a.Consistent left) (c : NodeId) : (a.detach c).Loose left c := by
  intro p hc
  by_contra hl
  have hparent := h.parent_of_mem (mem_of_mem_detach hc) hl
  have hne : p ≠ c := by
    rintro rfl
    exact h.irrefl p (mem_of_mem_detach hc)
  rw [children_detached, if_pos ⟨hparent, hne⟩] at hc
  have hcount : 1 ≤ ((a.children p).erase c).count c := List.one_le_count_iff.mpr hc
  rw [List.count_erase_self] at hcount
  have := h.count_le hl
  omega

theorem detach (h : a.Consistent left) (c : NodeId) : (a.detach c).Consistent left where
  parent_of_mem {p d} hd hl := by
    by_cases hdc : d = c
    · subst hdc
      exact absurd (h.loose_detach d p hd) hl
    · rw [parent?_detach_of_ne hdc]
      exact h.parent_of_mem (mem_of_mem_detach hd) hl
  count_le {p d} hl := by
    rw [children_detached]
    split
    · exact Nat.le_trans (List.erase_sublist.count_le d) (h.count_le hl)
    · exact h.count_le hl
  irrefl p hp := h.irrefl p (mem_of_mem_detach hp)
  lt_size hd := by
    rw [size_detach]
    exact h.lt_size (mem_of_mem_detach hd)

/-- One node is given another list, and nodes in other lists keep their parents. -/
theorem relist (h : a.Consistent left) {b : Arena} {more : List (NodeId × NodeId)} {n : NodeId}
    {l : List NodeId} (hsize : b.size = a.size)
    (hchildren : ∀ x, b.children x = if x = n then l else a.children x)
    (hlist : ∀ c ∈ l, c < a.size ∧ c ≠ n)
    (hown : ∀ c, (n, c) ∉ more → l.count c ≤ 1 ∧ (c ∈ l → b.parent? c = some n))
    (hother : ∀ q c, q ≠ n → c ∈ a.children q → (q, c) ∉ more →
      (q, c) ∉ left ∧ b.parent? c = a.parent? c) : b.Consistent more := by
  have hself : b.children n = l := by rw [hchildren, if_pos rfl]
  have hrest : ∀ {q}, q ≠ n → b.children q = a.children q := by
    intro q hq
    rw [hchildren, if_neg hq]
  -- the one list that has changed, and then every other
  refine ⟨?_, ?_, ?_, ?_⟩
  · intro q c hc hl
    by_cases hq : q = n
    · subst hq
      exact (hown c hl).2 (hself ▸ hc)
    · rw [hrest hq] at hc
      obtain ⟨hl', hparent⟩ := hother q c hq hc hl
      rw [hparent, h.parent_of_mem hc hl']
  · intro q c hl
    by_cases hq : q = n
    · subst hq
      rw [hself]
      exact (hown c hl).1
    · rw [hrest hq]
      by_cases hc : c ∈ a.children q
      · exact h.count_le (hother q c hq hc hl).1
      · rw [List.count_eq_zero.mpr hc]
        exact Nat.zero_le 1
  · intro q hc
    by_cases hq : q = n
    · subst hq
      rw [hself] at hc
      exact (hlist q hc).2 rfl
    · rw [hrest hq] at hc
      exact h.irrefl q hc
  · intro q c hc
    rw [hsize]
    by_cases hq : q = n
    · subst hq
      rw [hself] at hc
      exact (hlist c hc).1
    · rw [hrest hq] at hc
      exact h.lt_size hc

theorem ne_of_mem (h : a.Consistent left) {p c : NodeId} (hc : c ∈ a.children p) : c ≠ p := by
  rintro rfl
  exact h.irrefl c hc

/-- A node that no list has becomes the last child of another. -/
theorem attach (h : a.Consistent left) {p c : NodeId} (hloose : a.Loose left c) (hp : p < a.size)
    (hc : c < a.size) (hne : c ≠ p) : (a.attach p c).Consistent left := by
  refine h.relist size_attach (fun x => children_attach hp) ?_ ?_ ?_
  · intro d hd
    rcases List.mem_append.mp hd with hd | hd
    · exact ⟨h.lt_size hd, h.ne_of_mem hd⟩
    · rw [List.mem_singleton.mp hd]
      exact ⟨hc, hne⟩
  · intro d hl
    rw [parent?_attach hc]
    by_cases hdc : d = c
    · subst hdc
      have hnone : (a.children p).count d = 0 :=
        List.count_eq_zero.mpr fun hd => hl (hloose p hd)
      exact ⟨by simp [hnone], fun _ => if_pos rfl⟩
    · rw [if_neg hdc]
      refine ⟨by simpa [List.count_singleton, Ne.symm hdc] using h.count_le hl, fun hd => ?_⟩
      exact h.parent_of_mem (by simpa [hdc] using hd) hl
  · intro q d _ hd hl
    have hdc : d ≠ c := by
      rintro rfl
      exact hl (hloose q hd)
    exact ⟨hl, by rw [parent?_attach hc, if_neg hdc]⟩

theorem append (h : a.Consistent left) {p c : NodeId} (hp : p < a.size) (hc : c < a.size)
    (hne : c ≠ p) : (a.append p c).Consistent left :=
  (h.detach c).attach (h.loose_detach c) (by simpa using hp) (by simpa using hc) hne

/-- What is freed is listed by the node that it is to come below, if by any that has not lost it. -/
theorem freed (h : a.Consistent left) (n c : NodeId) : (a.freed n c).Consistent left ∧
    ∀ q ≠ n, c ∈ (a.freed n c).children q → (q, c) ∈ left := by
  unfold Arena.freed
  split
  · rename_i hn
    refine ⟨h, fun q hq hc => ?_⟩
    by_contra hl
    exact hq (Option.some.inj ((h.parent_of_mem hc hl).symm.trans hn))
  · exact ⟨h.detach c, fun q _ hc => h.loose_detach c q hc⟩

/-- After the others are detached, only the node itself lists its new children. -/
theorem detachOthers (h : a.Consistent left) (n : NodeId) (ids : List NodeId) :
    (a.detachOthers n ids).Consistent left ∧
      ∀ c ∈ ids, ∀ q ≠ n, c ∈ (a.detachOthers n ids).children q → (q, c) ∈ left := by
  induction ids generalizing a with
  | nil => exact ⟨h, by simp⟩
  | cons c cs ih =>
    obtain ⟨hfreed, hlost⟩ := h.freed n c
    obtain ⟨hrest, hlost'⟩ := ih hfreed
    rw [detachOthers_cons]
    refine ⟨hrest, fun d hd q hq hm => ?_⟩
    rcases List.mem_cons.mp hd with rfl | hd
    · exact hlost q hq (mem_of_mem_detachOthers hm)
    · exact hlost' d hd q hq hm

theorem setChildren (h : a.Consistent left) {n : NodeId} {ids : List NodeId} (hn : n < a.size)
    (hids : ∀ c ∈ ids, c < a.size) (hnot : n ∉ ids) (hnodup : ids.Nodup) :
    (a.setChildren n ids).Consistent (left.filter (·.1 ≠ n)) := by
  obtain ⟨hcons, hlost⟩ := h.detachOthers n ids
  have hsize : (a.setChildren n ids).size = (a.detachOthers n ids).size := by
    rw [size_setChildren, size_detachOthers]
  refine hcons.relist hsize (fun x => children_setChildren hn) ?_ ?_ ?_
  · intro c hc
    exact ⟨by simpa using hids c hc, ne_of_mem_of_not_mem hc hnot⟩
  · intro c _
    refine ⟨List.nodup_iff_count.mp hnodup c, fun hc => ?_⟩
    rw [parent?_setChildren hids, if_pos hc]
  · intro q c hq hc hl
    have hl' : (q, c) ∉ left := fun hm => hl (List.mem_filter.mpr ⟨hm, by simpa using hq⟩)
    refine ⟨hl', ?_⟩
    rw [parent?_setChildren hids, if_neg fun hm => hl' (hlost c hm q hq hc)]

theorem mono (h : a.Consistent left) {more : List (NodeId × NodeId)} (hsub : left ⊆ more) :
    a.Consistent more where
  parent_of_mem hc hl := h.parent_of_mem hc fun hm => hl (hsub hm)
  count_le hl := h.count_le fun hm => hl (hsub hm)
  irrefl := h.irrefl
  lt_size := h.lt_size

/-- A node takes the place of another in the list of its parent. -/
theorem exchange (h : a.Consistent left) {old new p : NodeId} (hold : old < a.size)
    (hnew : new < a.size) (hparent : a.parent? old = some p) (hne : old ≠ new) (hp : new ≠ p)
    (hloose : a.Loose left new) : (a.exchange p old new).Consistent left := by
  refine h.relist size_exchange (fun x => children_exchange) ?_ ?_ ?_
  · intro d hd
    rcases mem_of_mem_replaceFirst hd with rfl | hd
    · exact ⟨hnew, hp⟩
    · exact ⟨h.lt_size hd, h.ne_of_mem hd⟩
  · intro d hl
    have hone := h.count_le hl
    refine ⟨?_, fun hd => ?_⟩
    · have hle := count_replaceFirst_le old new d (a.children p)
      split at hle
      · rename_i hd
        subst hd
        have hnone : (a.children p).count d = 0 :=
          List.count_eq_zero.mpr fun hd => hl (hloose p hd)
        omega
      · omega
    · -- the node that is replaced stood in the list once, and stands there no more
      have hdo : d ≠ old := by
        rintro rfl
        have hleft : 1 ≤ (replaceFirst d new (a.children p)).count d := List.one_le_count_iff.mpr hd
        rw [count_replaceFirst_self hne] at hleft
        omega
      rw [parent?_exchange hold hnew, if_neg hdo]
      rcases mem_of_mem_replaceFirst hd with rfl | hd
      · exact if_pos rfl
      · split
        · rfl
        · exact h.parent_of_mem hd hl
  · intro q d hq hd hl
    have hdo : d ≠ old := by
      rintro rfl
      exact hq (Option.some.inj ((h.parent_of_mem hd hl).symm.trans hparent))
    have hdn : d ≠ new := by
      rintro rfl
      exact hl (hloose q hd)
    exact ⟨hl, by rw [parent?_exchange hold hnew, if_neg hdo, if_neg hdn]⟩

theorem released (h : a.Consistent left) (old new : NodeId) :
    (a.released old new).Consistent left ∧ (a.released old new).Loose
      (if new ∈ a.children old then (old, new) :: left else left) new := by
  have hsub : left ⊆ if new ∈ a.children old then (old, new) :: left else left := by
    split
    · exact List.subset_cons_self _ _
    · exact List.Subset.refl _
  unfold Arena.released
  split
  · rename_i hnone
    exact ⟨h, fun x hx => hsub (h.loose_of_parent (Or.inl hnone) x hx)⟩
  · rename_i q hq
    split
    · -- a child of the node that is replaced stays in its list
      rename_i hqo
      refine ⟨h, ?_⟩
      intro x hx
      by_cases hl : (x, new) ∈ left
      · exact hsub hl
      · have hxo : x = old :=
          (Option.some.inj ((h.parent_of_mem hx hl).symm.trans hq)).trans hqo
        subst hxo
        rw [if_pos hx]
        exact List.mem_cons_self
    · exact ⟨h.detach new, fun x hx => hsub (h.loose_detach new x hx)⟩

theorem replace (h : a.Consistent left) {old new p : NodeId} (hold : old < a.size)
    (hnew : new < a.size) (hparent : a.parent? old = some p) (hp : old ≠ new → new ≠ p) :
    (a.replace old new).Consistent
      (if new ∈ a.children old then (old, new) :: left else left) := by
  have hmore : ∀ {b : Arena}, b.Consistent left →
      b.Consistent (if new ∈ a.children old then (old, new) :: left else left) := by
    intro b hb
    refine hb.mono ?_
    split
    · exact List.subset_cons_self _ _
    · exact List.Subset.refl _
  by_cases hne : old = new
  · rw [Arena.replace, hparent]
    dsimp only
    rw [if_pos hne]
    exact hmore h
  · obtain ⟨hcons, hloose⟩ := h.released old new
    have hkeep : (a.released old new).parent? old = some p := by
      rw [parent?_released hne, hparent]
    rw [replace_eq hparent hne hnew]
    exact (hmore hcons).exchange (by simpa using hold) (by simpa using hnew) hkeep hne (hp hne) hloose

/-- A node that no list has forgets its parent. -/
theorem forget (h : a.Consistent left) {c : NodeId} (hc : c < a.size) (hloose : a.Loose left c) :
    (a.setParent c none).Consistent left where
  parent_of_mem {p d} hd hl := by
    rw [children_setParent] at hd
    rw [parent?_setParent hc, if_neg]
    · exact h.parent_of_mem hd hl
    · rintro rfl
      exact hl (hloose p hd)
  count_le hl := by simpa using h.count_le hl
  irrefl p := by simpa using h.irrefl p
  lt_size hd := by
    rw [size_setParent]
    exact h.lt_size (by simpa using hd)

/-- Nodes that no list has become children of another one after the other; those that come more
than once are lost to it. -/
theorem foldl_adopt {target : NodeId} : ∀ (cs : List NodeId) {a : Arena}, a.Consistent left →
    target < a.size → (∀ c ∈ cs, a.Loose left c ∧ c < a.size ∧ c ≠ target) →
    (∀ c, 2 ≤ cs.count c → (target, c) ∈ left) → (cs.foldl (adopt target) a).Consistent left
  | [], _, h, _, _, _ => h
  | c :: cs, a, h, ht, hcs, hrepeated => by
    obtain ⟨hloose, hc, hne⟩ := hcs c List.mem_cons_self
    refine foldl_adopt cs ((h.forget hc hloose).append (by simpa using ht) (by simpa using hc) hne)
      (by simpa using ht) ?_ fun d hd => hrepeated d (Nat.le_trans hd List.count_le_count_cons)
    intro d hd
    obtain ⟨hloose', hd', hne'⟩ := hcs d (List.mem_cons_of_mem c hd)
    refine ⟨?_, by simpa using hd', hne'⟩
    intro q hq
    rcases mem_of_mem_append (by simpa using ht) hq with hq | ⟨rfl, rfl⟩
    · exact hloose' q (by simpa using mem_of_mem_detach hq)
    · refine hrepeated d ?_
      rw [List.count_cons_self]
      exact Nat.succ_le_succ (List.one_le_count_iff.mpr hd)

section MoveChildren

variable {source target x c : NodeId}

theorem mem_leftOver_of_ne (hl : (x, c) ∈ left) (hne : x ≠ source) :
    (x, c) ∈ (Rewiring.moveChildren source target).leftOver a left :=
  List.mem_append_left _ (List.mem_filter.mpr ⟨hl, by simpa using hne⟩)

/-- A child that was lost to the node that it is moved from stays in the list of its parent. -/
theorem mem_leftOver_of_parent (hc : c ∈ a.children source) (hl : (source, c) ∈ left)
    (hx : a.parent? c = some x) :
    (x, c) ∈ (Rewiring.moveChildren source target).leftOver a left := by
  refine List.mem_append_right _ (List.mem_flatMap.mpr ⟨c, hc, ?_⟩)
  rw [if_pos hl, hx]
  exact List.mem_append_left _ List.mem_cons_self

/-- A child that was listed more than once moves as often. -/
theorem mem_leftOver_of_count (h : a.Consistent left) (hcount : 2 ≤ (a.children source).count c) :
    (target, c) ∈ (Rewiring.moveChildren source target).leftOver a left := by
  have hc : c ∈ a.children source := List.one_le_count_iff.mp (Nat.le_of_succ_le hcount)
  have hl : (source, c) ∈ left := by
    by_contra hl
    have := h.count_le hl
    omega
  refine List.mem_append_right _ (List.mem_flatMap.mpr ⟨c, hc, ?_⟩)
  rw [if_pos hl, if_pos hcount]
  exact List.mem_append_right _ List.mem_cons_self

/-- All children of a node move to another one. -/
theorem moveChildren (h : a.Consistent left) (hs : source < a.size) (ht : target < a.size)
    (hnot : target ∉ a.children source) : (a.moveChildren source target).Consistent
      ((Rewiring.moveChildren source target).leftOver a left) := by
  have hemptied : (a.setChildList source []).Consistent
      ((Rewiring.moveChildren source target).leftOver a left) := by
    refine h.relist (size_setChildList source []) (fun x => children_setChildList hs x [])
      (by simp) (by simp) ?_
    intro q c hq hc hl
    exact ⟨fun hm => hl (mem_leftOver_of_ne hm hq), parent?_setChildList source c []⟩
  rw [moveChildren_eq_foldl]
  refine foldl_adopt _ hemptied (by simpa using ht) ?_ fun c hcount => h.mem_leftOver_of_count hcount
  intro c hc
  refine ⟨?_, by simpa using h.lt_size hc, fun he => hnot (he ▸ hc)⟩
  intro x hx
  rw [children_setChildList hs] at hx
  split at hx
  · cases hx
  · rename_i hne
    by_cases hl : (x, c) ∈ left
    · exact mem_leftOver_of_ne hl hne
    · -- the node that lists it is its parent, so that it was lost to the one that it is moved from
      have hparent := h.parent_of_mem hx hl
      refine mem_leftOver_of_parent hc ?_ hparent
      by_contra hown
      exact hne (Option.some.inj (hparent.symm.trans (h.parent_of_mem hc hown)))

end MoveChildren

/-- A legal use keeps child lists and parents in agreement. -/
theorem run {r : Rewiring} (h : a.Consistent left) (legal : r.Legal a) :
    (r.run a).Consistent (r.leftOver a left) := by
  -- whoever is put under a node is not above it, and so is another node
  have hapart : ∀ {p c}, (p, c) ∈ r.attached a → c ≠ p := by
    rintro p c hm rfl
    exact legal.downward _ hm .refl
  have hexist := legal.exist
  have horderly := legal.orderly
  cases r with
  | add kind text line => exact h.add kind text line
  | append parent child =>
    exact h.append (hexist parent (by simp [Rewiring.named])) (hexist child (by simp [Rewiring.named]))
      (hapart List.mem_cons_self)
  | setChildren id ids =>
    refine h.setChildren (hexist id List.mem_cons_self)
      (fun c hc => hexist c (List.mem_cons_of_mem id hc)) ?_ horderly
    intro hm
    exact hapart (List.mem_map_of_mem hm) rfl
  | replace old new =>
    cases hp : a.parent? old with
    | none =>
      rw [Rewiring.leftOver, hp, Rewiring.run, Arena.replace, hp]
      exact h
    | some p =>
      rw [Rewiring.leftOver, hp]
      refine h.replace (hexist old List.mem_cons_self) (hexist new (by simp [Rewiring.named])) hp ?_
      intro hne
      refine hapart ?_
      simp [Rewiring.attached, hne, hp]
  | remove id => exact h.detach id
  | moveChildren source target =>
    refine h.moveChildren (hexist source List.mem_cons_self) (hexist target (by simp [Rewiring.named]))
      ?_
    intro hm
    exact hapart (List.mem_map_of_mem hm) rfl

end Consistent

theorem Rewired.consistent {file : String} (h : Rewired file a left) : a.Consistent left := by
  induction h with
  | start => exact .empty file
  | step _ legal ih => exact ih.run legal

theorem Rewiring.Legal.of_childless {r : Rewiring} (hexist : ∀ id ∈ r.named, id < a.size)
    (hattached : ∀ e ∈ r.attached a, e.2 ≠ root ∧ e.1 ≠ e.2 ∧ a.children e.2 = [])
    (horderly : r.Orderly) : r.Legal a where
  exist := hexist
  keepsRoot e he := (hattached e he).1
  downward e he := not_below_of_childless (hattached e he).2.2 (hattached e he).2.1
  orderly := horderly

/-- A node below the root gets a child, which then takes its place. -/
def collapsed : Arena :=
  ((((empty "").add .block "" 1 |>.append 0 1).add .block "" 1).append 1 2).replace 1 2

theorem rewired_collapsed : Rewired "" collapsed [(1, 2)] := by
  have h₁ : Rewired "" ((empty "").add .block "" 1) [] :=
    .step (r := .add .block "" 1) .start (.of_childless (by decide) (by decide) trivial)
  have h₂ : Rewired "" ((empty "").add .block "" 1 |>.append 0 1) [] :=
    .step (r := .append 0 1) h₁ (.of_childless (by decide) (by decide) trivial)
  have h₃ : Rewired "" (((empty "").add .block "" 1 |>.append 0 1).add .block "" 1) [] :=
    .step (r := .add .block "" 1) h₂ (.of_childless (by decide) (by decide) trivial)
  have h₄ : Rewired "" ((((empty "").add .block "" 1 |>.append 0 1).add .block "" 1).append 1 2) [] :=
    .step (r := .append 1 2) h₃ (.of_childless (by decide) (by decide) trivial)
  exact .step (r := .replace 1 2) h₄
    (.of_childless (by decide) (by decide) Nat.one_ne_zero)

/-- After any legal uses a node that is listed, and not lost, has the node that lists it as its
parent, stands in that list once and is listed by no other node that has not lost it. -/
theorem rewired_links {file : String} (h : Rewired file a left) : ∀ p c, c ∈ a.children p →
    (p, c) ∉ left → a.parent? c = some p ∧ (a.children p).count c = 1 ∧
      ∀ q, c ∈ a.children q → (q, c) ∉ left → q = p := by
  intro p c hc hl
  have hparent := h.consistent.parent_of_mem hc hl
  refine ⟨hparent, ?_, ?_⟩
  · exact Nat.le_antisymm (h.consistent.count_le hl) (List.one_le_count_iff.mpr hc)
  · intro q hq hlq
    exact Option.some.inj ((h.consistent.parent_of_mem hq hlq).symm.trans hparent)

theorem rewired_links_collapsed : Rewired "" collapsed [(1, 2)] ∧ 2 ∈ collapsed.children 0 ∧
    (0, 2) ∉ [(1, 2)] ∧ collapsed.parent? 2 = some 0 ∧ (collapsed.children 0).count 2 = 1 ∧
    ∀ q, 2 ∈ collapsed.children q → (q, 2) ∉ [(1, 2)] → q = 0 :=
  ⟨rewired_collapsed, by decide, by decide,
    rewired_links rewired_collapsed 0 2 (by decide) (by decide)⟩

/-- The child is then listed by two nodes, and moving the children of the one that it replaced
takes it away from its parent, which goes on listing it. -/
theorem replaced_lists_its_child : Rewired "" collapsed [(1, 2)] ∧
    2 ∈ collapsed.children 0 ∧ 2 ∈ collapsed.children 1 ∧ collapsed.parent? 2 = some 0 ∧
    (Rewiring.moveChildren 1 3).Legal (collapsed.add .block "" 1) ∧
    2 ∈ ((collapsed.add .block "" 1).moveChildren 1 3).children 0 ∧
    ((collapsed.add .block "" 1).moveChildren 1 3).parent? 2 = some 3 :=
  ⟨rewired_collapsed, by decide, by decide, by decide,
    .of_childless (by decide) (by decide) trivial, by decide, by decide⟩

end ScriptKit.Arena
