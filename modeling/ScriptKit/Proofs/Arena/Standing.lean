import Mathlib.Data.Fintype.Card
import ScriptKit.Proofs.Arena.Ways

namespace ScriptKit.Arena

open Named

variable {a : Arena} {t : Named} {p x : NodeId} {way : List Nat}

section Below

mutual

/-- A tree stands below its first node. -/
theorem Stands.below : ∀ {t : Named} {q : Option Nat}, Stands a q t → ∀ y ∈ t.ids, a.Below t.key y
  | .node id kind text evaluated line cs, q, h, y, hy => by
    rcases List.mem_cons.mp hy with rfl | hy
    · exact .refl
    · obtain ⟨t, ht, hbelow⟩ := StandAll.below h.stand_children y hy
      have hchildren : a.children id = cs.map key := h.children_key
      have hmem : t.key ∈ a.children id := by
        rw [hchildren]
        exact List.mem_map_of_mem ht
      exact .head hmem hbelow

theorem StandAll.below : ∀ {ts : List Named} {q : Option Nat}, StandAll a q ts →
    ∀ y ∈ idsAll ts, ∃ t ∈ ts, a.Below t.key y
  | [], _, _, y, hy => by cases hy
  | t :: ts, q, h, y, hy => by
    rcases List.mem_append.mp hy with hy | hy
    · exact ⟨t, List.mem_cons_self, h.1.below y hy⟩
    · obtain ⟨u, hu, hbelow⟩ := StandAll.below h.2 y hy
      exact ⟨u, List.mem_cons_of_mem _ hu, hbelow⟩

end

/-- Trees that stand below a node, one for each of its children, stand there together. -/
theorem exists_standAll {q : Option Nat} : ∀ {cs : List NodeId},
    (∀ c ∈ cs, ∃ t : Named, t.key = c ∧ Stands a q t) →
      ∃ ts : List Named, ts.map key = cs ∧ StandAll a q ts
  | [], _ => ⟨[], rfl, trivial⟩
  | c :: cs, h => by
    obtain ⟨⟨t, rfl, ht⟩, hcs⟩ := List.forall_mem_cons.mp h
    obtain ⟨ts, rfl, hts⟩ := exists_standAll hcs
    exact ⟨t :: ts, rfl, ht, hts⟩

end Below

theorem descend_append (id : NodeId) (v w : List Nat) :
    a.descend id (v ++ w) = (a.descend id v).bind fun y => a.descend y w := by
  rw [descend, List.foldlM_append]
  rfl

namespace IsTree

/-- What the root leads to exists. -/
theorem lt_size (h : a.IsTree) (hx : a.Below root x) : x < a.size := by
  have hparent : ∃ q, a.parent? x = some q := by
    rcases Relation.ReflTransGen.cases_tail hx with rfl | ⟨q, hq, hmem⟩
    · exact ⟨root, h.root_parent⟩
    · exact ⟨q, h.parent_of_mem hq hmem⟩
  obtain ⟨q, hq⟩ := hparent
  by_contra hle
  rw [parent?, node?_eq_none_iff.mpr (Nat.not_lt.mp hle)] at hq
  cases hq

theorem nodup_children (h : a.IsTree) (hp : a.Below root p) : (a.children p).Nodup := by
  refine List.nodup_iff_getElem?_ne_getElem?.mpr fun i j hij hj hsame => ?_
  obtain ⟨v, hv⟩ := exists_descend hp
  have hc : (a.children p)[j]? = some (a.children p)[j] := List.getElem?_eq_getElem hj
  have hi : a.descend root (v ++ [i]) = some (a.children p)[j] := by
    rw [descend_concat, hv]
    exact hsame.trans hc
  have hj : a.descend root (v ++ [j]) = some (a.children p)[j] := by
    rw [descend_concat, hv]
    exact hc
  have hway := (h.way (below_of_descend _ hi)).unique hi hj
  have hlast : [i] = [j] := List.append_cancel_left hway
  exact Nat.ne_of_lt hij (List.singleton_inj.mp hlast)

/-- A way down passes through nodes that are all different, so it is shorter than the arena. -/
theorem length_lt (h : a.IsTree) (hx : a.descend root way = some x) : way.length < a.size := by
  have hprefix : ∀ i, ∃ y, a.descend root (way.take i) = some y := by
    intro i
    rw [← List.take_append_drop i way, descend_append] at hx
    obtain ⟨y, hy, -⟩ := Option.bind_eq_some_iff.mp hx
    exact ⟨y, hy⟩
  choose passed hpassed using hprefix
  let node : Fin (way.length + 1) → Fin a.size :=
    fun i => ⟨passed i, h.lt_size (below_of_descend _ (hpassed i))⟩
  have hinjective : Function.Injective node := by
    intro i j hij
    have hsame : passed i = passed j := congrArg Fin.val hij
    have hj := hpassed j
    rw [← hsame] at hj
    have htake := (h.way (below_of_descend _ hj)).unique (hpassed i) hj
    have hlength := congrArg List.length htake
    rw [List.length_take, List.length_take] at hlength
    have hi := i.isLt
    have hj := j.isLt
    exact Fin.ext (by omega)
  have hcard := Fintype.card_le_of_injective node hinjective
  rwa [Fintype.card_fin, Fintype.card_fin] at hcard

/-- A tree stands below every node that the root leads to. The induction is on how much longer a way
can become. -/
theorem exists_stands (h : a.IsTree) (room : Nat) : ∀ {way x},
    a.descend root way = some x → a.size ≤ way.length + room →
      ∃ t : Named, t.key = x ∧ Stands a (a.parent? x) t := by
  -- a way visits no node twice, so that the room left bounds how deep it may still go
  induction room with
  | zero =>
    intro way x hx hroom
    have hlength := h.length_lt hx
    omega
  | succ room ih =>
    intro way x hx hroom
    have hbelow := below_of_descend way hx
    obtain ⟨n, hn⟩ : ∃ n, a.node? x = some n := by
      refine Option.ne_none_iff_exists'.mp fun hnone => ?_
      exact absurd (node?_eq_none_iff.mp hnone) (Nat.not_le.mpr (h.lt_size hbelow))
    have hchildren : a.children x = n.children := by rw [Arena.children, hn, Option.elim_some]
    have hparent : a.parent? x = n.parent := by rw [Arena.parent?, hn, Option.bind_some]
    -- every child is at the end of a way that is longer by one
    have hall : ∀ c ∈ n.children, ∃ t : Named, t.key = c ∧ Stands a (some x) t := by
      intro c hc
      rw [← hchildren] at hc
      obtain ⟨i, hi⟩ := List.mem_iff_getElem?.mp hc
      have hdown : a.descend root (way ++ [i]) = some c := by
        rw [descend_concat, hx]
        exact hi
      have hlonger : a.size ≤ (way ++ [i]).length + room := by
        rw [List.length_append, List.length_singleton]
        omega
      obtain ⟨t, hkey, ht⟩ := ih hdown hlonger
      rw [h.parent_of_mem hbelow hc] at ht
      exact ⟨t, hkey, ht⟩
    obtain ⟨ts, hkeys, hts⟩ := exists_standAll hall
    refine ⟨.node x n.kind n.text n.evaluated n.line ts, rfl, ?_⟩
    rw [Stands, hkeys, hparent]
    exact ⟨hn, hts⟩

/-- Where the nodes that the root leads to form a tree, this tree stands there. -/
theorem exists_rooted (h : a.IsTree) : ∃ t, Rooted a t := by
  obtain ⟨t, hkey, ht⟩ := @exists_stands a h a.size [] root rfl (Nat.le_add_left _ _)
  rw [h.root_parent] at ht
  refine ⟨t, hkey, ht, ht.nodup_ids fun x hx => h.nodup_children ?_⟩
  have hbelow := ht.below x hx
  rwa [hkey] at hbelow

end IsTree

end ScriptKit.Arena
