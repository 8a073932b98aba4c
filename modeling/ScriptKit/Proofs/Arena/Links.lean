import ScriptKit.Arena.Basic

namespace ScriptKit.Arena

variable {a : Arena}

theorem node?_eq_none_iff {x : Nat} : a.node? x = none ↔ a.size ≤ x :=
  Array.getElem?_eq_none_iff

theorem node?_update (id x : Nat) (f : Node → Node) :
    (a.update id f).node? x = if x = id then (a.node? x).map f else a.node? x := by
  simp only [node?, update, Array.getElem?_modify]
  by_cases h : x = id
  · simp [h]
  · simp [h, Ne.symm h]

/-- All that a node says about itself, apart from its links. -/
def info? (a : Arena) (x : Nat) : Option (Tree.Kind × String × Bool × Nat) :=
  (a.node? x).map fun n => (n.kind, n.text, n.evaluated, n.line)

theorem info?_eq_none_iff {x : Nat} : a.info? x = none ↔ a.size ≤ x := by
  simp [info?, node?_eq_none_iff]

theorem children_of_size_le {x : Nat} (h : a.size ≤ x) : a.children x = [] := by
  simp [children, node?_eq_none_iff.mpr h]

theorem parent?_of_size_le {x : Nat} (h : a.size ≤ x) : a.parent? x = none := by
  simp [parent?, node?_eq_none_iff.mpr h]

theorem lt_size_of_parent? {x p : Nat} (h : a.parent? x = some p) : x < a.size := by
  apply Nat.lt_of_not_le
  intro hle
  rw [parent?_of_size_le hle] at h
  cases h

@[simp] theorem size_setParent (id : Nat) (p : Option Nat) :
    (a.setParent id p).size = a.size := by
  simp [size, setParent, update]

@[simp] theorem size_setChildList (id : Nat) (cs : List Nat) :
    (a.setChildList id cs).size = a.size := by
  simp [size, setChildList, update]

@[simp] theorem size_add (kind : Tree.Kind) (text : String) (line : Nat) :
    (a.add kind text line).size = a.size + 1 := by
  simp [size, add]

@[simp] theorem info?_setParent (id x : Nat) (p : Option Nat) :
    (a.setParent id p).info? x = a.info? x := by
  simp only [info?, setParent, node?_update]
  split <;> simp [Function.comp_def]

@[simp] theorem info?_setChildList (id x : Nat) (cs : List Nat) :
    (a.setChildList id cs).info? x = a.info? x := by
  simp only [info?, setChildList, node?_update]
  split <;> simp [Function.comp_def]

@[simp] theorem children_setParent (id x : Nat) (p : Option Nat) :
    (a.setParent id p).children x = a.children x := by
  simp only [children, setParent, node?_update]
  split <;> cases a.node? x <;> simp

@[simp] theorem parent?_setChildList (id x : Nat) (cs : List Nat) :
    (a.setChildList id cs).parent? x = a.parent? x := by
  simp only [parent?, setChildList, node?_update]
  split <;> cases a.node? x <;> simp

theorem children_setChildList {id : Nat} (h : id < a.size) (x : Nat) (cs : List Nat) :
    (a.setChildList id cs).children x = if x = id then cs else a.children x := by
  simp only [children, setChildList, node?_update]
  split
  · rename_i hx
    subst hx
    cases hn : a.node? x with
    | none => exact absurd (node?_eq_none_iff.mp hn) (by omega)
    | some n => simp
  · rfl

theorem parent?_setParent {id : Nat} (h : id < a.size) (x : Nat) (p : Option Nat) :
    (a.setParent id p).parent? x = if x = id then p else a.parent? x := by
  simp only [parent?, setParent, node?_update]
  split
  · rename_i hx
    subst hx
    cases hn : a.node? x with
    | none => exact absurd (node?_eq_none_iff.mp hn) (by omega)
    | some n => simp
  · rfl

theorem node?_add (kind : Tree.Kind) (text : String) (line : Nat) (x : Nat) :
    (a.add kind text line).node? x =
      if x = a.size then some ⟨kind, none, [], text, false, line⟩ else a.node? x := by
  simp only [node?, add, size, Array.getElem?_push]
  rfl

@[simp] theorem children_add (kind : Tree.Kind) (text : String) (line : Nat) (x : Nat) :
    (a.add kind text line).children x = a.children x := by
  simp only [children, node?_add]
  split
  · rename_i hx
    subst hx
    simp [node?_eq_none_iff.mpr (Nat.le_refl a.size)]
  · rfl

@[simp] theorem parent?_add (kind : Tree.Kind) (text : String) (line : Nat) (x : Nat) :
    (a.add kind text line).parent? x = a.parent? x := by
  simp only [parent?, node?_add]
  split
  · rename_i hx
    subst hx
    simp [node?_eq_none_iff.mpr (Nat.le_refl a.size)]
  · rfl

theorem info?_add (kind : Tree.Kind) (text : String) (line : Nat) (x : Nat) :
    (a.add kind text line).info? x =
      if x = a.size then some (kind, text, false, line) else a.info? x := by
  simp only [info?, node?_add]
  split <;> rfl

/-- Child lists and parents agree: a child knows its parent and stands in its list once. The root
is its own parent. -/
structure Linked (a : Arena) : Prop where
  parent_of_mem : ∀ {p c}, c ∈ a.children p → a.parent? c = some p
  nodup : ∀ p, (a.children p).Nodup
  irrefl : ∀ p, p ∉ a.children p
  root_parent : a.parent? root = some root

namespace Linked

theorem lt_size (h : a.Linked) {p c : Nat} (hc : c ∈ a.children p) : c < a.size :=
  lt_size_of_parent? (h.parent_of_mem hc)

theorem unique (h : a.Linked) {p q c : Nat} (hp : c ∈ a.children p) (hq : c ∈ a.children q) :
    p = q :=
  Option.some.inj ((h.parent_of_mem hp).symm.trans (h.parent_of_mem hq))

theorem root_not_mem (h : a.Linked) (p : Nat) : root ∉ a.children p := by
  intro hm
  have he : root = p := Option.some.inj (h.root_parent.symm.trans (h.parent_of_mem hm))
  exact h.irrefl p (he ▸ hm)

theorem add (h : a.Linked) (kind : Tree.Kind) (text : String) (line : Nat) :
    (a.add kind text line).Linked where
  parent_of_mem := fun hc => by
    rw [parent?_add]
    exact h.parent_of_mem (by simpa using hc)
  nodup := by simpa using h.nodup
  irrefl := by simpa using h.irrefl
  root_parent := by simpa using h.root_parent

end Linked

theorem linked_empty (file : String) : (Arena.empty file).Linked := by
  have hc : ∀ x, (Arena.empty file).children x = [] := by
    intro x
    cases x <;> rfl
  refine ⟨?_, ?_, ?_, rfl⟩
  · intro p c h
    rw [hc] at h
    cases h
  · intro p
    rw [hc]
    exact List.nodup_nil
  · intro p h
    rw [hc] at h
    cases h

@[simp] theorem size_detach (c : Nat) : (a.detach c).size = a.size := by
  unfold detach
  split
  · rfl
  · split <;> simp

@[simp] theorem info?_detach (c x : Nat) : (a.detach c).info? x = a.info? x := by
  unfold detach
  split
  · rfl
  · split <;> simp

theorem children_detach (h : a.Linked) (c x : Nat) :
    (a.detach c).children x = (a.children x).erase c := by
  unfold detach
  split
  -- a node without a parent is in no list, and one with a parent in no list but that one's
  · rename_i hn
    rw [List.erase_of_not_mem]
    intro hm
    simp [h.parent_of_mem hm] at hn
  · rename_i p hp
    split
    · rename_i he
      rw [List.erase_of_not_mem]
      intro hm
      have hx : x = p := Option.some.inj ((h.parent_of_mem hm).symm.trans hp)
      subst hx
      exact h.irrefl x (he ▸ hm)
    -- the parent may be no node at all, and then it has no children
    · by_cases hp' : p < a.size
      · rw [children_setParent, children_setChildList hp']
        split
        · rename_i hx
          rw [hx]
        · rename_i hx
          rw [List.erase_of_not_mem]
          intro hm
          exact hx (Option.some.inj ((h.parent_of_mem hm).symm.trans hp))
      · have hnone : a.node? p = none := node?_eq_none_iff.mpr (Nat.le_of_not_lt hp')
        have hkeep : (a.setChildList p ((a.children p).erase c)).children x = a.children x := by
          simp only [children, setChildList, node?_update]
          split
          · rename_i hx
            rw [hx, hnone]
            rfl
          · rfl
        rw [children_setParent, hkeep, List.erase_of_not_mem]
        intro hm
        have hx : x = p := Option.some.inj ((h.parent_of_mem hm).symm.trans hp)
        rw [hx, children_of_size_le (Nat.le_of_not_lt hp')] at hm
        cases hm

theorem parent?_detach_of_ne {c x : Nat} (hne : x ≠ c) : (a.detach c).parent? x = a.parent? x := by
  unfold detach
  split
  · rfl
  · split
    · rfl
    · simp only [parent?, setParent, node?_update, hne, if_false]
      exact parent?_setChildList _ x _

@[simp] theorem size_append (p c : Nat) : (a.append p c).size = a.size := by
  simp [append]

@[simp] theorem info?_append (p c x : Nat) : (a.append p c).info? x = a.info? x := by
  simp [append]

theorem children_append (h : a.Linked) {p : Nat} (hp : p < a.size) (c x : Nat) :
    (a.append p c).children x = (a.children x).erase c ++ if x = p then [c] else [] := by
  simp only [append, children_setParent]
  rw [children_setChildList (by simpa using hp)]
  split
  · rename_i hx
    subst hx
    rw [children_detach h]
  · rw [children_detach h, List.append_nil]

theorem parent?_append {c : Nat} (hc : c < a.size) (p x : Nat) :
    (a.append p c).parent? x = if x = c then some p else a.parent? x := by
  simp only [append]
  rw [parent?_setParent (by simpa using hc), parent?_setChildList]
  split
  · rfl
  · rename_i hne
    exact parent?_detach_of_ne hne

theorem Linked.append (h : a.Linked) {p c : Nat} (hp : p < a.size) (hc : c < a.size)
    (hne : c ≠ p) (hr : c ≠ root) : (a.append p c).Linked where
  -- what is under a node was there before, or it is the one that was put there
  parent_of_mem := by
    intro q d hd
    rw [children_append h hp] at hd
    rw [parent?_append hc]
    rcases List.mem_append.mp hd with hd | hd
    · have hd' := (h.nodup q).mem_erase_iff.mp hd
      rw [if_neg hd'.1]
      exact h.parent_of_mem hd'.2
    · split at hd
      · rename_i hq
        rw [List.mem_singleton.mp hd, if_pos rfl, hq]
      · cases hd
  nodup := by
    intro q
    rw [children_append h hp]
    have hn := (h.nodup q).erase c
    split
    · refine List.nodup_append.mpr ⟨hn, by simp, ?_⟩
      intro x hx y hy
      rw [List.mem_singleton.mp hy]
      exact ((h.nodup q).mem_erase_iff.mp hx).1
    · rwa [List.append_nil]
  irrefl := by
    intro q hq
    rw [children_append h hp] at hq
    rcases List.mem_append.mp hq with hq | hq
    · exact h.irrefl q (List.mem_of_mem_erase hq)
    · split at hq
      · rename_i he
        exact hne ((List.mem_singleton.mp hq).symm.trans he)
      · cases hq
  root_parent := by
    rw [parent?_append hc, if_neg (Ne.symm hr)]
    exact h.root_parent

/-- One step of a move: a node that is in no child list is made the last child of another. -/
def adopt (target : Nat) (a : Arena) (c : Nat) : Arena :=
  (a.setParent c none).append target c

theorem moveChildren_eq_foldl (source target : Nat) :
    a.moveChildren source target =
      (a.children source).foldl (adopt target) (a.setChildList source []) :=
  rfl

@[simp] theorem size_adopt (target c : Nat) : (adopt target a c).size = a.size := by
  simp [adopt]

@[simp] theorem info?_adopt (target c x : Nat) : (adopt target a c).info? x = a.info? x := by
  simp [adopt]

theorem Linked.setParent (h : a.Linked) {c : Nat} (hfree : ∀ x, c ∉ a.children x)
    (hr : c ≠ root) (hc : c < a.size) (p : Option Nat) : (a.setParent c p).Linked where
  parent_of_mem := by
    intro q d hd
    rw [children_setParent] at hd
    have hne : d ≠ c := fun he => hfree q (he ▸ hd)
    rw [parent?_setParent hc, if_neg hne]
    exact h.parent_of_mem hd
  nodup := by simpa using h.nodup
  irrefl := by simpa using h.irrefl
  root_parent := by
    rw [parent?_setParent hc, if_neg (Ne.symm hr)]
    exact h.root_parent

theorem Linked.adopt (h : a.Linked) {target c : Nat} (hfree : ∀ x, c ∉ a.children x)
    (hr : c ≠ root) (hc : c < a.size) (ht : target < a.size) (hne : c ≠ target) :
    (adopt target a c).Linked :=
  (h.setParent hfree hr hc none).append (by simpa using ht) (by simpa using hc) hne hr

theorem children_adopt (h : a.Linked) {target c : Nat} (hfree : ∀ x, c ∉ a.children x)
    (hr : c ≠ root) (hc : c < a.size) (ht : target < a.size) (x : Nat) :
    (adopt target a c).children x = a.children x ++ if x = target then [c] else [] := by
  unfold Arena.adopt
  rw [children_append (h.setParent hfree hr hc none) (by simpa using ht), children_setParent,
    List.erase_of_not_mem (hfree x)]

theorem parent?_adopt {target c : Nat} (hc : c < a.size) (x : Nat) :
    (adopt target a c).parent? x = if x = c then some target else a.parent? x := by
  unfold Arena.adopt
  rw [parent?_append (by simpa using hc), parent?_setParent hc]
  split <;> rfl

/-- What a move of several nodes does: they follow the children the target had before. -/
theorem foldl_adopt {target : Nat} (cs : List Nat) : ∀ {a : Arena}, a.Linked →
    (∀ c ∈ cs, (∀ x, c ∉ a.children x) ∧ c ≠ root ∧ c < a.size ∧ c ≠ target) → cs.Nodup →
    target < a.size →
      (cs.foldl (adopt target) a).Linked ∧
      (cs.foldl (adopt target) a).size = a.size ∧
      (∀ x, (cs.foldl (adopt target) a).info? x = a.info? x) ∧
      (∀ x, (cs.foldl (adopt target) a).children x =
        a.children x ++ if x = target then cs else []) ∧
      (∀ x, (cs.foldl (adopt target) a).parent? x =
        if x ∈ cs then some target else a.parent? x) := by
  induction cs with
  | nil => intro a h _ _ _; exact ⟨h, rfl, fun _ => rfl, by simp, by simp⟩
  | cons c cs ih =>
    intro a h hcs hn ht
    obtain ⟨hfree, hr, hc, hne⟩ := hcs c (by simp)
    have hn' := List.nodup_cons.mp hn
    -- those still to be adopted are not the one just adopted
    have hrest : ∀ d ∈ cs, (∀ x, d ∉ (adopt target a c).children x) ∧ d ≠ root ∧
        d < (adopt target a c).size ∧ d ≠ target := by
      intro d hd
      obtain ⟨hf, hr', hs, ht'⟩ := hcs d (by simp [hd])
      refine ⟨?_, hr', by simpa using hs, ht'⟩
      intro x hx
      rw [children_adopt h hfree hr hc ht] at hx
      rcases List.mem_append.mp hx with hx | hx
      · exact hf x hx
      · split at hx
        · exact hn'.1 (List.mem_singleton.mp hx ▸ hd)
        · cases hx
    obtain ⟨h1, h2, h3, h4, h5⟩ := ih (h.adopt hfree hr hc ht hne) hrest hn'.2 (by simpa using ht)
    refine ⟨h1, by simpa using h2, fun x => by simpa using h3 x, ?_, ?_⟩
    · intro x
      rw [List.foldl_cons, h4 x, children_adopt h hfree hr hc ht]
      split <;> simp
    · intro x
      rw [List.foldl_cons, h5 x, parent?_adopt hc]
      by_cases hx : x = c
      · simp [hx]
      · simp [hx]

/-- A node whose list is emptied leaves its children without a list. -/
theorem Linked.emptied (h : a.Linked) {source : Nat} (hs : source < a.size) :
    (a.setChildList source []).Linked ∧
      ∀ c ∈ a.children source, ∀ x, c ∉ (a.setChildList source []).children x := by
  have hmem : ∀ {x c}, c ∈ (a.setChildList source []).children x → c ∈ a.children x ∧ x ≠ source := by
    intro x c hc
    rw [children_setChildList hs] at hc
    split at hc
    · cases hc
    · rename_i hne
      exact ⟨hc, hne⟩
  refine ⟨⟨?_, ?_, fun p hp => h.irrefl p (hmem hp).1, by simpa using h.root_parent⟩, ?_⟩
  · intro p c hc
    rw [parent?_setChildList]
    exact h.parent_of_mem (hmem hc).1
  · intro p
    rw [children_setChildList hs]
    split
    · exact List.nodup_nil
    · exact h.nodup p
  · intro c hc x hx
    exact (hmem hx).2 (h.unique (hmem hx).1 hc)

/-- A move takes all children of one node to the end of the children of another. -/
theorem moveChildren_spec (h : a.Linked) {source target : Nat} (hs : source < a.size)
    (ht : target < a.size) (hne : source ≠ target) (hnot : target ∉ a.children source) :
    (a.moveChildren source target).Linked ∧
    (a.moveChildren source target).size = a.size ∧
    (∀ x, (a.moveChildren source target).info? x = a.info? x) ∧
    (∀ x, (a.moveChildren source target).children x =
      if x = target then a.children target ++ a.children source
      else if x = source then [] else a.children x) := by
  obtain ⟨hl, hfree⟩ := h.emptied hs
  have hcs : ∀ c ∈ a.children source, (∀ x, c ∉ (a.setChildList source []).children x) ∧
      c ≠ root ∧ c < (a.setChildList source []).size ∧ c ≠ target := by
    intro c hc
    refine ⟨hfree c hc, ?_, by simpa using h.lt_size hc, fun he => hnot (he ▸ hc)⟩
    rintro rfl
    exact h.root_not_mem source hc
  obtain ⟨h1, h2, h3, h4, -⟩ := foldl_adopt (a.children source) hl hcs (h.nodup source)
    (by simpa using ht)
  -- emptying the source and adopting its children is what the move comes to
  rw [← moveChildren_eq_foldl] at h1 h2 h3 h4
  refine ⟨h1, by simpa using h2, fun x => by simpa using h3 x, ?_⟩
  intro x
  rw [h4 x, children_setChildList hs]
  by_cases hx : x = target
  · subst hx
    simp [Ne.symm hne]
  · by_cases hx' : x = source
    · simp [hx', hne]
    · simp [hx, hx']

end ScriptKit.Arena
