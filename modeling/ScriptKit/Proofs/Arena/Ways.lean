import Mathlib.Data.List.Induction
import Mathlib.Logic.Relation
import ScriptKit.Proofs.Arena.Sweep

namespace ScriptKit.Arena

open Named

/-- A node is below another if child lists lead to it from there, and below itself. -/
def Below (a : Arena) : NodeId → NodeId → Prop :=
  Relation.ReflTransGen fun p c => c ∈ a.children p

/-- The node at the end of a way down, which says at each node how many children to pass over. -/
def descend (a : Arena) (id : NodeId) (way : List Nat) : Option NodeId :=
  way.foldlM a.child? id

/-- The nodes that the root leads to form a tree: there is one way to each, and its parent is the
node that lists it. The root is its own parent. -/
structure IsTree (a : Arena) : Prop where
  root_parent : a.parent? root = some root
  parent_of_mem : ∀ {p c}, a.Below root p → c ∈ a.children p → a.parent? c = some p
  way : ∀ {x}, a.Below root x → ∃! way, a.descend root way = some x

variable {a : Arena} {t : Named} {x : NodeId}

theorem not_below_of_childless {c p : NodeId} (hc : a.children c = []) (hne : p ≠ c) :
    ¬ a.Below c p := by
  intro h
  rcases Relation.ReflTransGen.cases_head h with he | ⟨d, hd, -⟩
  · exact hne he.symm
  · rw [hc] at hd
    cases hd

theorem descend_concat (id : NodeId) (way : List Nat) (i : Nat) :
    a.descend id (way ++ [i]) = (a.descend id way).bind (a.child? · i) := by
  rw [descend, List.foldlM_append]
  cases h : way.foldlM a.child? id <;> simp [descend, h]

theorem below_of_descend {id : NodeId} (way : List Nat) :
    ∀ {x}, a.descend id way = some x → a.Below id x := by
  induction way using List.reverseRecOn with
  | nil =>
    rintro x ⟨⟩
    exact .refl
  | append_singleton way i ih =>
    intro x hx
    rw [descend_concat] at hx
    obtain ⟨p, hp, hc⟩ := Option.bind_eq_some_iff.mp hx
    exact (ih hp).tail (List.mem_of_getElem? hc)

theorem exists_descend {id : NodeId} (h : a.Below id x) : ∃ way, a.descend id way = some x := by
  induction h with
  | refl => exact ⟨[], rfl⟩
  | tail _ hc ih =>
    obtain ⟨way, hway⟩ := ih
    obtain ⟨i, hi⟩ := List.mem_iff_getElem?.mp hc
    exact ⟨way ++ [i], by rw [descend_concat, hway]; exact hi⟩

/-- Where every child has its parent and is listed once, and the root is no child, the way to a node
can be read off from its end. -/
theorem descend_unique (hroot : ∀ {p}, a.Below root p → root ∉ a.children p)
    (hparent : ∀ {p c}, a.Below root p → c ∈ a.children p → a.parent? c = some p)
    (hnodup : ∀ {p}, a.Below root p → (a.children p).Nodup) (way : List Nat) :
    ∀ {x way'}, a.descend root way = some x → a.descend root way' = some x → way' = way := by
  -- a way is taken back from its end: the last step leads from a child's parent to it
  have hstep : ∀ {x : NodeId} {v : List Nat} {i : Nat}, a.descend root (v ++ [i]) = some x →
      ∃ p, a.descend root v = some p ∧ a.Below root p ∧ (a.children p)[i]? = some x := by
    intro x v i hx
    rw [descend_concat] at hx
    obtain ⟨p, hp, hc⟩ := Option.bind_eq_some_iff.mp hx
    exact ⟨p, hp, below_of_descend v hp, hc⟩
  have hnot : ∀ {v : List Nat} {i : Nat}, a.descend root (v ++ [i]) ≠ some root := by
    intro v i hx
    obtain ⟨p, -, hbelow, hc⟩ := hstep hx
    exact hroot hbelow (List.mem_of_getElem? hc)
  -- the induction is on the first way, from its end
  induction way using List.reverseRecOn with
  | nil =>
    rintro x way' ⟨⟩ hx'
    rcases List.eq_nil_or_concat way' with rfl | ⟨v, j, rfl⟩
    · rfl
    · rw [List.concat_eq_append] at hx'
      exact absurd hx' hnot
  | append_singleton way i ih =>
    intro x way' hx hx'
    rcases List.eq_nil_or_concat way' with rfl | ⟨v, j, rfl⟩
    · cases hx'
      exact absurd hx hnot
    · rw [List.concat_eq_append] at hx' ⊢
      obtain ⟨p, hp, hbelow, hc⟩ := hstep hx
      obtain ⟨q, hq, hbelow', hc'⟩ := hstep hx'
      -- the child has one parent, so both ways come from the same node
      have hpq : q = p := Option.some.inj
        ((hparent hbelow' (List.mem_of_getElem? hc')).symm.trans
          (hparent hbelow (List.mem_of_getElem? hc)))
      subst hpq
      have hi : i < (a.children q).length := (List.getElem?_eq_some_iff.mp hc).1
      -- and its parent has it once, so both take the same step
      have hij : i = j := (List.getElem?_inj hi (hnodup hbelow)).mp (hc.trans hc'.symm)
      rw [ih hp hq, hij]

/-- Below every node that the root leads to stands a part of the tree of the whole program. -/
theorem Rooted.part (h : Rooted a t) (hx : a.Below root x) : ∃ u q, u.key = x ∧ Stands a q u ∧
    (idsAll u.children).Nodup ∧ root ∉ idsAll u.children := by
  induction hx with
  | refl =>
    exact ⟨t, some root, h.key_eq, h.stands, h.spot.nodup, h.root_notMem⟩
  | tail _ hc ih =>
    obtain ⟨u, q, rfl, hu, hnodup, hroot⟩ := ih
    rw [hu.children_key] at hc
    obtain ⟨v, hv, rfl⟩ := List.mem_map.mp hc
    have hsub : (idsAll v.children).Sublist (idsAll u.children) := by
      have hids := idsAll_sublist (List.singleton_sublist.mpr hv)
      rw [idsAll, idsAll, List.append_nil, ids_eq] at hids
      exact (List.sublist_cons_self _ _).trans hids
    exact ⟨v, some u.key, rfl, standAll_iff.mp hu.stand_children v hv, hsub.nodup hnodup,
      fun hm => hroot (hsub.subset hm)⟩

theorem Rooted.isTree (h : Rooted a t) : a.IsTree := by
  have hparent : ∀ {p c}, a.Below root p → c ∈ a.children p → a.parent? c = some p := by
    intro p c hp hc
    obtain ⟨u, q, rfl, hu, -⟩ := h.part hp
    rw [hu.children_key] at hc
    obtain ⟨v, hv, rfl⟩ := List.mem_map.mp hc
    exact (standAll_iff.mp hu.stand_children v hv).parent?_key
  have hnodup : ∀ {p}, a.Below root p → (a.children p).Nodup := by
    intro p hp
    obtain ⟨u, q, rfl, hu, hnodup, -⟩ := h.part hp
    rw [hu.children_key]
    exact (keys_sublist _).nodup hnodup
  have hroot : ∀ {p}, a.Below root p → root ∉ a.children p := by
    intro p hp hm
    obtain ⟨u, q, rfl, hu, -, hroot⟩ := h.part hp
    rw [hu.children_key] at hm
    exact hroot ((keys_sublist _).subset hm)
  refine ⟨?_, hparent, ?_⟩
  · have hkey := h.stands.parent?_key
    rwa [h.key_eq] at hkey
  · intro x hx
    obtain ⟨way, hway⟩ := exists_descend hx
    exact ⟨way, hway, fun way' hway' => descend_unique hroot hparent hnodup way hway hway'⟩

end ScriptKit.Arena
