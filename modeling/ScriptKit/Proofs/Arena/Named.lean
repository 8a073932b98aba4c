import Mathlib.Data.List.Nodup
import ScriptKit.Arena.Normal
import ScriptKit.Proofs.Arena.Holds

namespace ScriptKit.Arena

/-- A tree whose nodes carry the ids that they have in an arena. -/
inductive Named
  | node (key : Nat) (kind : Tree.Kind) (text : String) (evaluated : Bool) (line : Nat)
      (children : List Named)

namespace Named

def key : Named → Nat
  | node id _ _ _ _ _ => id

def kind : Named → Tree.Kind
  | node _ k _ _ _ _ => k

def text : Named → String
  | node _ _ x _ _ _ => x

def line : Named → Nat
  | node _ _ _ _ l _ => l

def children : Named → List Named
  | node _ _ _ _ _ cs => cs

mutual

/-- The tree without the ids. -/
def tree : Named → Tree
  | node _ k x e l cs => .node k x e l (treeAll cs)

def treeAll : List Named → List Tree
  | [] => []
  | t :: ts => t.tree :: treeAll ts

end

mutual

/-- The ids of a tree, each before those below it. -/
def ids : Named → List Nat
  | node id _ _ _ _ cs => id :: idsAll cs

def idsAll : List Named → List Nat
  | [] => []
  | t :: ts => t.ids ++ idsAll ts

end

theorem treeAll_eq (ts : List Named) : treeAll ts = ts.map tree := by
  induction ts with
  | nil => rfl
  | cons t ts ih => rw [treeAll, ih, List.map_cons]

@[simp] theorem tree_node (id : Nat) (k : Tree.Kind) (x : String) (e : Bool) (l : Nat)
    (cs : List Named) : (node id k x e l cs).tree = .node k x e l (cs.map tree) := by
  rw [tree, treeAll_eq]

@[simp] theorem kind_tree (t : Named) : t.tree.kind = t.kind := by
  cases t
  rfl

@[simp] theorem text_tree (t : Named) : t.tree.text = t.text := by
  cases t
  rfl

@[simp] theorem line_tree (t : Named) : t.tree.line = t.line := by
  cases t
  rfl

theorem ids_eq (t : Named) : t.ids = t.key :: idsAll t.children := by
  cases t
  rfl

theorem key_mem_ids (t : Named) : t.key ∈ t.ids := by
  rw [ids_eq]
  exact List.mem_cons_self

@[simp] theorem idsAll_append (ts us : List Named) : idsAll (ts ++ us) = idsAll ts ++ idsAll us := by
  induction ts with
  | nil => rfl
  | cons t ts ih => rw [List.cons_append, idsAll, idsAll, ih, List.append_assoc]

theorem mem_idsAll {x : Nat} {ts : List Named} : x ∈ idsAll ts ↔ ∃ t ∈ ts, x ∈ t.ids := by
  induction ts with
  | nil => simp [idsAll]
  | cons t ts ih => simp [idsAll, ih]

theorem idsAll_sublist {ts us : List Named} (h : ts.Sublist us) :
    (idsAll ts).Sublist (idsAll us) := by
  induction h with
  | slnil => exact List.Sublist.refl _
  | cons t h ih => exact ih.trans (List.sublist_append_right _ _)
  | cons_cons t h ih => exact (List.Sublist.refl _).append ih

theorem keys_sublist (ts : List Named) : (ts.map key).Sublist (idsAll ts) := by
  induction ts with
  | nil => exact List.Sublist.refl _
  | cons t ts ih =>
    rw [List.map_cons, idsAll, ids_eq, List.cons_append]
    exact (ih.trans (List.sublist_append_right _ _)).cons_cons _

/-- Of trees without a common id, the one that an id is in is determined by it. -/
theorem eq_of_mem_ids {ts : List Named} (hnodup : (idsAll ts).Nodup) {t u : Named} (ht : t ∈ ts)
    (hu : u ∈ ts) {x : Nat} (hxt : x ∈ t.ids) (hxu : x ∈ u.ids) : t = u := by
  induction ts with
  | nil => cases ht
  | cons v vs ih =>
    have happend := List.nodup_append.mp hnodup
    have hapart : ∀ {w}, w ∈ vs → x ∈ v.ids → x ∈ w.ids → False := by
      intro w hw hv hx
      exact happend.2.2 x hv x (mem_idsAll.mpr ⟨w, hw, hx⟩) rfl
    rcases List.mem_cons.mp ht with htv | htv <;> rcases List.mem_cons.mp hu with huv | huv
    · rw [htv, huv]
    · exact (hapart huv (htv ▸ hxt) hxu).elim
    · exact (hapart htv (huv ▸ hxu) hxt).elim
    · exact ih happend.2.1 htv huv

end Named

open Named

mutual

/-- A tree stands in an arena, its first node below a parent, if it has one. -/
def Stands (a : Arena) : Option Nat → Named → Prop
  | parent, .node id kind text evaluated line children =>
    a.node? id = some ⟨kind, parent, children.map key, text, evaluated, line⟩ ∧
      StandAll a (some id) children

def StandAll (a : Arena) : Option Nat → List Named → Prop
  | _, [] => True
  | parent, t :: ts => Stands a parent t ∧ StandAll a parent ts

end

variable {a b : Arena} {parent : Option Nat}

theorem standAll_iff {ts : List Named} : StandAll a parent ts ↔ ∀ t ∈ ts, Stands a parent t := by
  induction ts with
  | nil => simp [StandAll]
  | cons t ts ih => simp [StandAll, ih]

mutual

/-- A tree stands where none of its nodes changes. -/
theorem Stands.transfer : ∀ {t : Named} {parent : Option Nat}, Stands a parent t →
    (∀ x ∈ t.ids, b.node? x = a.node? x) → Stands b parent t
  | .node id kind text evaluated line children, parent, h, hsame => by
    simp only [Named.ids, List.mem_cons, forall_eq_or_imp] at hsame
    rw [Stands] at h ⊢
    rw [hsame.1]
    exact ⟨h.1, StandAll.transfer h.2 hsame.2⟩

theorem StandAll.transfer : ∀ {ts : List Named} {parent : Option Nat}, StandAll a parent ts →
    (∀ x ∈ idsAll ts, b.node? x = a.node? x) → StandAll b parent ts
  | [], _, _, _ => trivial
  | t :: ts, parent, h, hsame => by
    simp only [idsAll, List.mem_append] at hsame
    exact ⟨h.1.transfer fun x hx => hsame x (Or.inl hx),
      StandAll.transfer h.2 fun x hx => hsame x (Or.inr hx)⟩

end

mutual

theorem Stands.lt_size : ∀ {t : Named} {parent : Option Nat}, Stands a parent t →
    ∀ x ∈ t.ids, x < a.size
  | .node id kind text evaluated line children, parent, h, x, hx => by
    rw [Stands] at h
    simp only [Named.ids, List.mem_cons] at hx
    rcases hx with rfl | hx
    · apply Nat.lt_of_not_le
      intro hle
      rw [node?_eq_none_iff.mpr hle] at h
      cases h.1
    · exact StandAll.lt_size h.2 x hx

theorem StandAll.lt_size : ∀ {ts : List Named} {parent : Option Nat}, StandAll a parent ts →
    ∀ x ∈ idsAll ts, x < a.size
  | [], _, _, x, hx => by cases hx
  | t :: ts, parent, h, x, hx => by
    rcases List.mem_append.mp hx with hx | hx
    · exact h.1.lt_size x hx
    · exact StandAll.lt_size h.2 x hx

end

namespace Stands

variable {t : Named}

theorem node?_key (h : Stands a parent t) : ∃ n, a.node? t.key = some n ∧ n.kind = t.kind ∧
    n.parent = parent ∧ n.children = t.children.map key ∧ n.text = t.text ∧ n.line = t.line := by
  cases t with
  | node id kind text evaluated line children =>
    rw [Stands] at h
    exact ⟨_, h.1, rfl, rfl, rfl, rfl, rfl⟩

theorem kind?_key (h : Stands a parent t) : a.kind? t.key = some t.kind := by
  obtain ⟨n, hn, hk, -⟩ := h.node?_key
  simp [kind?, hn, hk]

theorem hasKind_key (h : Stands a parent t) (k : Tree.Kind) :
    a.hasKind t.key k = decide (t.kind = k) := by
  simp [hasKind, h.kind?_key]

theorem parent?_key (h : Stands a parent t) : a.parent? t.key = parent := by
  obtain ⟨n, hn, -, hp, -⟩ := h.node?_key
  simp [parent?, hn, hp]

theorem children_key (h : Stands a parent t) : a.children t.key = t.children.map key := by
  obtain ⟨n, hn, -, -, hc, -⟩ := h.node?_key
  simp [Arena.children, hn, hc]

theorem text_key (h : Stands a parent t) : a.text t.key = t.text := by
  obtain ⟨n, hn, -, -, -, hx, -⟩ := h.node?_key
  simp [Arena.text, hn, hx]

theorem line_key (h : Stands a parent t) : a.line t.key = t.line := by
  obtain ⟨n, hn, -, -, -, -, hl⟩ := h.node?_key
  simp [Arena.line, hn, hl]

theorem stand_children (h : Stands a parent t) : StandAll a (some t.key) t.children := by
  cases t with
  | node id kind text evaluated line children =>
    rw [Stands] at h
    exact h.2

/-- A tree that gets another parent stands below that one. -/
theorem retarget {q : Option Nat} (h : Stands a parent t)
    (htop : b.node? t.key = (a.node? t.key).map fun n => { n with parent := q })
    (hbelow : ∀ x ∈ idsAll t.children, b.node? x = a.node? x) : Stands b q t := by
  cases t with
  | node id kind text evaluated line children =>
    rw [Stands] at h ⊢
    simp only [Named.key] at htop
    rw [htop, h.1]
    exact ⟨rfl, h.2.transfer hbelow⟩

end Stands

section Edits

theorem node?_setParent (id x : Nat) (q : Option Nat) : (a.setParent id q).node? x =
    if x = id then (a.node? x).map fun n => { n with parent := q } else a.node? x :=
  node?_update id x _

theorem node?_setChildList (id x : Nat) (cs : List Nat) : (a.setChildList id cs).node? x =
    if x = id then (a.node? x).map fun n => { n with children := cs } else a.node? x :=
  node?_update id x _

theorem node?_detach_of_ne {c x : Nat} (hc : x ≠ c) (hp : a.parent? c ≠ some x) :
    (a.detach c).node? x = a.node? x := by
  unfold detach
  split
  · rfl
  · rename_i p hpc
    have hx : x ≠ p := by
      rintro rfl
      exact hp hpc
    split
    · rfl
    · rw [node?_setParent, if_neg hc, node?_setChildList, if_neg hx]

/-- A node without its children. -/
def bare? (a : Arena) (x : Nat) : Option Node :=
  (a.node? x).map fun n => { n with children := [] }

theorem parent?_of_bare? {x : Nat} (h : b.bare? x = a.bare? x) : b.parent? x = a.parent? x := by
  have hp : ∀ c : Arena, c.parent? x = (c.bare? x).bind (·.parent) := by
    intro c
    rw [parent?, bare?]
    cases c.node? x <;> rfl
  rw [hp, hp, h]

theorem bare?_detach {c x : Nat} (hx : x ≠ c) : (a.detach c).bare? x = a.bare? x := by
  unfold detach
  split
  · rfl
  · split
    · rfl
    · simp only [bare?, node?_setParent, if_neg hx, node?_setChildList]
      split <;> cases a.node? x <;> rfl

/-- A node that is detached keeps all but its parent. -/
theorem node?_detach_self {c : Nat} (hp : a.parent? c ≠ some c) (q : Option Nat) :
    ((a.detach c).node? c).map (fun n => { n with parent := q }) =
      (a.node? c).map fun n => { n with parent := q } := by
  unfold detach
  split
  · rfl
  · rename_i p hpc
    have hne : p ≠ c := by
      rintro rfl
      exact hp hpc
    rw [if_neg hne, node?_setParent, if_pos rfl, node?_setChildList, if_neg hne.symm, Option.map_map]
    rfl

/-- What happens to one of the nodes that come below another: it leaves its parent, unless that is
the other already. -/
def freed (a : Arena) (n c : Nat) : Arena :=
  if a.parent? c = some n then a else a.detach c

theorem detachOthers_cons (n c : Nat) (cs : List Nat) :
    a.detachOthers n (c :: cs) = (a.freed n c).detachOthers n cs := rfl

section Freed

variable {n c x : Nat}

@[simp] theorem size_freed : (a.freed n c).size = a.size := by
  unfold freed
  split <;> simp

theorem bare?_freed (hx : x ≠ c) : (a.freed n c).bare? x = a.bare? x := by
  unfold freed
  split
  · rfl
  · exact bare?_detach hx

theorem parent?_freed (hx : x ≠ c) : (a.freed n c).parent? x = a.parent? x :=
  parent?_of_bare? (bare?_freed hx)

theorem node?_freed_of_ne (hx : x ≠ c) (h : x = n ∨ a.parent? c ≠ some x) :
    (a.freed n c).node? x = a.node? x := by
  unfold freed
  split
  · rfl
  · rename_i hne
    refine node?_detach_of_ne hx ?_
    rcases h with rfl | hp
    · exact hne
    · exact hp

theorem node?_freed_self (hp : a.parent? c ≠ some c) (q : Option Nat) :
    ((a.freed n c).node? c).map (fun m => { m with parent := q }) =
      (a.node? c).map fun m => { m with parent := q } := by
  unfold freed
  split
  · rfl
  · exact node?_detach_self hp q

end Freed

section DetachOthers

variable {n x : Nat} {ids : List Nat}

@[simp] theorem size_detachOthers : (a.detachOthers n ids).size = a.size := by
  induction ids generalizing a with
  | nil => rfl
  | cons c cs ih => rw [detachOthers_cons, ih, size_freed]

theorem bare?_detachOthers (hx : x ∉ ids) : (a.detachOthers n ids).bare? x = a.bare? x := by
  induction ids generalizing a with
  | nil => rfl
  | cons c cs ih =>
    obtain ⟨hxc, hxcs⟩ := List.ne_and_not_mem_of_not_mem_cons hx
    rw [detachOthers_cons, ih hxcs, bare?_freed hxc]

/-- What is not detached and not the parent of what is stays as it is. -/
theorem node?_detachOthers_of_not_mem (hnodup : ids.Nodup) (hx : x ∉ ids)
    (h : x = n ∨ ∀ c ∈ ids, a.parent? c ≠ some x) :
    (a.detachOthers n ids).node? x = a.node? x := by
  induction ids generalizing a with
  | nil => rfl
  | cons c cs ih =>
    obtain ⟨hc, hcs⟩ := List.nodup_cons.mp hnodup
    obtain ⟨hxc, hxcs⟩ := List.ne_and_not_mem_of_not_mem_cons hx
    have hrest : x = n ∨ ∀ d ∈ cs, (a.freed n c).parent? d ≠ some x := by
      refine h.imp_right fun hall d hd => ?_
      rw [parent?_freed (ne_of_mem_of_not_mem hd hc)]
      exact hall d (List.mem_cons_of_mem c hd)
    rw [detachOthers_cons, ih hcs hxcs hrest,
      node?_freed_of_ne hxc (h.imp_right fun hall => hall c List.mem_cons_self)]

/-- Nodes that are detached, none below another of them, keep all but their parents. -/
theorem node?_detachOthers_of_mem (hnodup : ids.Nodup)
    (hparents : ∀ c ∈ ids, ∀ q, a.parent? c = some q → q ∉ ids) (hx : x ∈ ids) (q : Option Nat) :
    ((a.detachOthers n ids).node? x).map (fun m => { m with parent := q }) =
      (a.node? x).map fun m => { m with parent := q } := by
  induction ids generalizing a with
  | nil => cases hx
  | cons c cs ih =>
    obtain ⟨hc, hcs⟩ := List.nodup_cons.mp hnodup
    have hkept : ∀ d ∈ cs, (a.freed n c).parent? d = a.parent? d :=
      fun d hd => parent?_freed (ne_of_mem_of_not_mem hd hc)
    have hapart : ∀ d ∈ c :: cs, a.parent? c ≠ some d :=
      fun d hd hp => hparents c List.mem_cons_self d hp hd
    rw [detachOthers_cons]
    rcases List.mem_cons.mp hx with rfl | hx
    · -- once it is detached, it is none of those that are, nor the parent of one
      rw [node?_detachOthers_of_not_mem hcs hc]
      · exact node?_freed_self (hapart x List.mem_cons_self) q
      · refine Or.inr fun d hd hp => ?_
        rw [hkept d hd] at hp
        exact hparents d (List.mem_cons_of_mem x hd) x hp List.mem_cons_self
    · rw [ih hcs ?_ hx, node?_freed_of_ne (ne_of_mem_of_not_mem hx hc)
        (Or.inr (hapart x (List.mem_cons_of_mem c hx)))]
      intro d hd r hr hm
      rw [hkept d hd] at hr
      exact hparents d (List.mem_cons_of_mem c hd) r hr (List.mem_cons_of_mem c hm)

end DetachOthers

theorem size_foldl_setParent (n : Nat) (ids : List Nat) :
    (ids.foldl (fun a c => a.setParent c (some n)) a).size = a.size := by
  induction ids generalizing a with
  | nil => rfl
  | cons c cs ih => rw [List.foldl_cons, ih, size_setParent]

theorem node?_foldl_setParent (n x : Nat) (ids : List Nat) :
    (ids.foldl (fun a c => a.setParent c (some n)) a).node? x =
      if x ∈ ids then (a.node? x).map fun m => { m with parent := some n } else a.node? x := by
  induction ids generalizing a with
  | nil => rfl
  | cons c cs ih =>
    rw [List.foldl_cons, ih, node?_setParent]
    by_cases hxc : x = c
    · subst hxc
      by_cases hx : x ∈ cs
      · simp [hx, Function.comp_def]
      · simp [hx]
    · simp [hxc]

theorem size_setChildren (n : Nat) (ids : List Nat) : (a.setChildren n ids).size = a.size := by
  rw [setChildren, size_foldl_setParent, size_setChildList, size_detachOthers]

theorem node?_setChildren (n x : Nat) (ids : List Nat) : (a.setChildren n ids).node? x =
    if x ∈ ids
    then (((a.detachOthers n ids).setChildList n ids).node? x).map fun m =>
      { m with parent := some n }
    else ((a.detachOthers n ids).setChildList n ids).node? x :=
  node?_foldl_setParent n x ids

/-- Giving a node new children, none of which is the parent of another: they lose their old
parents, and nothing else changes but the child lists of these. -/
theorem setChildren_spec {n : Nat} {ids : List Nat} (hnodup : ids.Nodup)
    (hparents : ∀ c ∈ ids, ∀ q, a.parent? c = some q → q ∉ ids) (hn : n ∉ ids) :
    (a.setChildren n ids).size = a.size ∧
    (∀ c ∈ ids, (a.setChildren n ids).node? c =
      (a.node? c).map fun m => { m with parent := some n }) ∧
    (a.setChildren n ids).node? n = ((a.node? n).map fun m => { m with children := ids }) ∧
    (∀ x, x ∉ ids → x ≠ n → (∀ c ∈ ids, a.parent? c ≠ some x) →
      (a.setChildren n ids).node? x = a.node? x) ∧
    ∀ x, x ∉ ids → (a.setChildren n ids).bare? x = a.bare? x := by
  refine ⟨size_setChildren n ids, ?_, ?_, ?_, ?_⟩
  · intro c hc
    have hne : c ≠ n := ne_of_mem_of_not_mem hc hn
    rw [node?_setChildren, if_pos hc, node?_setChildList, if_neg hne,
      node?_detachOthers_of_mem hnodup hparents hc]
  · rw [node?_setChildren, if_neg hn, node?_setChildList, if_pos rfl,
      node?_detachOthers_of_not_mem hnodup hn (Or.inl rfl)]
  · intro x hx hne hp
    rw [node?_setChildren, if_neg hx, node?_setChildList, if_neg hne,
      node?_detachOthers_of_not_mem hnodup hx (Or.inr hp)]
  · intro x hx
    have hkept : (a.detachOthers n ids).bare? x = a.bare? x := bare?_detachOthers hx
    rw [← hkept, bare?, bare?, node?_setChildren, if_neg hx, node?_setChildList]
    split
    · cases (a.detachOthers n ids).node? x <;> rfl
    · rfl

theorem replaceFirst_eq {old new : Nat} {pre post : List Nat} (h : old ∉ pre) :
    replaceFirst old new (pre ++ old :: post) = pre ++ new :: post := by
  induction pre with
  | nil => simp [replaceFirst]
  | cons c pre ih =>
    obtain ⟨hne, hpre⟩ := not_or.mp fun he => h (List.mem_cons.mpr he)
    rw [List.cons_append, replaceFirst, if_neg (Ne.symm hne), ih hpre, List.cons_append]

/-- Putting a node in the place of another that it is below, or of any other if it is detached. -/
theorem replace_spec {old new p : Nat} (hold : a.parent? old = some p) (hne : old ≠ new)
    (hpold : p ≠ old) (hpnew : p ≠ new) (hnew : a.parent? new = none ∨ a.parent? new = some old) :
    (a.replace old new).size = a.size ∧
    (a.replace old new).node? p = ((a.node? p).map fun n =>
      { n with children := replaceFirst old new n.children }) ∧
    (a.replace old new).node? new = ((a.node? new).map fun n => { n with parent := some p }) ∧
    ∀ x, x ≠ p → x ≠ new → x ≠ old → (a.replace old new).node? x = a.node? x := by
  let b := (a.setChildList p (replaceFirst old new (a.children p))).setParent new (some p)
  -- the old node still names its parent when the new one has been put in its place
  have hparent : b.parent? old = some p := by
    simp only [b, parent?, node?_setParent, if_neg hne, node?_setChildList, if_neg hpold.symm]
    exact hold
  have hunfold : a.replace old new = b.setParent old none := by
    unfold replace
    rw [hold]
    simp only [if_neg hne]
    rcases hnew with hnew | hnew <;> rw [hnew]
    · exact if_pos hparent
    · simp only [if_true]
      exact if_pos hparent
  rw [hunfold]
  refine ⟨by simp [b], ?_, ?_, ?_⟩
  · simp only [b, node?_setParent, if_neg hpold, if_neg hpnew, node?_setChildList, if_true]
    cases hp : a.node? p <;> simp [Arena.children, hp]
  · simp only [b, node?_setParent, if_neg hne.symm, if_true, node?_setChildList, if_neg hpnew.symm]
  · intro x hxp hxnew hxold
    simp only [b, node?_setParent, if_neg hxold, if_neg hxnew, node?_setChildList, if_neg hxp]

/-- Taking a node out of the child list of its parent. -/
theorem detach_spec {c p : Nat} (hp : a.parent? c = some p) (hne : p ≠ c) :
    (a.detach c).size = a.size ∧
    (a.detach c).node? p = ((a.node? p).map fun n => { n with children := n.children.erase c }) ∧
    ∀ x, x ≠ p → x ≠ c → (a.detach c).node? x = a.node? x := by
  have hunfold : a.detach c = (a.setChildList p ((a.children p).erase c)).setParent c none := by
    unfold detach
    rw [hp]
    exact if_neg hne
  refine ⟨size_detach c, ?_, ?_⟩
  · rw [hunfold, node?_setParent, if_neg hne, node?_setChildList, if_pos rfl]
    cases h : a.node? p <;> simp [Arena.children, h]
  · intro x hxp hxc
    rw [hunfold, node?_setParent, if_neg hxc, node?_setChildList, if_neg hxp]

end Edits

end ScriptKit.Arena
