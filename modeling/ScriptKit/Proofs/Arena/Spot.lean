import ScriptKit.Proofs.Arena.Named

namespace ScriptKit.Arena

open Named

variable {a b : Arena} {p old : Nat} {pre post owned : List Nat} {t u : Named}
  {us : List Named}

section Whole

mutual

theorem Stands.unique : ∀ {t u : Named} {q r : Option Nat}, Stands a q t → Stands a r u →
    t.key = u.key → t = u
  | .node id _ _ _ _ cs, .node _ _ _ _ _ ds, q, r, h, h', he => by
    rw [Stands] at h h'
    simp only [Named.key] at he
    subst he
    have hn := Option.some.inj (h.1.symm.trans h'.1)
    simp only [Node.mk.injEq] at hn
    obtain ⟨rfl, rfl, hkeys, rfl, rfl, rfl⟩ := hn
    rw [StandAll.unique h.2 h'.2 hkeys]

theorem StandAll.unique : ∀ {ts us : List Named} {q r : Option Nat}, StandAll a q ts →
    StandAll a r us → ts.map key = us.map key → ts = us
  | [], [], _, _, _, _, _ => rfl
  | [], u :: us, _, _, _, _, he => by simp at he
  | t :: ts, [], _, _, _, _, he => by simp at he
  | t :: ts, u :: us, _, _, h, h', he => by
    simp only [List.map_cons, List.cons.injEq] at he
    rw [Stands.unique h.1 h'.1 he.1, StandAll.unique h.2 h'.2 he.2]

end

mutual

/-- Every id of a tree is the first of a part of it that stands by itself. -/
theorem Stands.part : ∀ {t : Named} {q : Option Nat}, Stands a q t → ∀ {x : Nat}, x ∈ t.ids →
    ∃ u r, Stands a r u ∧ u.key = x ∧ sizeOf u ≤ sizeOf t ∧
      (u = t ∨ ∃ y ∈ t.ids, r = some y)
  | .node id kind text evaluated line cs, q, h, x, hx => by
    rcases List.mem_cons.mp hx with rfl | hx
    · exact ⟨_, q, h, rfl, Nat.le_refl _, Or.inl rfl⟩
    · rw [Stands] at h
      obtain ⟨u, r, hu, hkey, hsize, y, hy, hr⟩ := StandAll.part h.2 hx
      refine ⟨u, r, hu, hkey, ?_, Or.inr ⟨y, ?_, hr⟩⟩
      · simp only [Named.node.sizeOf_spec]
        omega
      · rcases hy with rfl | hy
        · exact List.mem_cons_self
        · exact List.mem_cons_of_mem _ hy

theorem StandAll.part : ∀ {ts : List Named} {id : Nat}, StandAll a (some id) ts →
    ∀ {x : Nat}, x ∈ idsAll ts →
    ∃ u r, Stands a r u ∧ u.key = x ∧ sizeOf u < sizeOf ts ∧
      ∃ y, (y = id ∨ y ∈ idsAll ts) ∧ r = some y
  | [], _, _, x, hx => by cases hx
  | t :: ts, id, h, x, hx => by
    rcases List.mem_append.mp hx with hx | hx
    · obtain ⟨u, r, hu, hkey, hsize, hor⟩ := h.1.part hx
      refine ⟨u, r, hu, hkey, by simp only [List.cons.sizeOf_spec]; omega, ?_⟩
      rcases hor with rfl | ⟨y, hy, hr⟩
      · refine ⟨id, Or.inl rfl, ?_⟩
        rw [← hu.parent?_key]
        exact h.1.parent?_key
      · exact ⟨y, Or.inr (List.mem_append_left _ hy), hr⟩
    · obtain ⟨u, r, hu, hkey, hsize, y, hy, hr⟩ := StandAll.part h.2 hx
      refine ⟨u, r, hu, hkey, by simp only [List.cons.sizeOf_spec]; omega, y, ?_, hr⟩
      exact hy.imp_right fun hy => List.mem_append_right _ hy

end

theorem Stands.climb {q : Option Nat} {x : Nat} (h : Stands a q t) (hx : x ∈ t.ids) :
    x = t.key ∨ ∃ y ∈ t.ids, a.parent? x = some y := by
  obtain ⟨u, r, hu, rfl, -, rfl | ⟨y, hy, rfl⟩⟩ := h.part hx
  · exact Or.inl rfl
  · exact Or.inr ⟨y, hy, hu.parent?_key⟩

mutual

/-- What holds of the first node and of every node whose parent it holds of, holds of all. -/
theorem Stands.descend {P : Nat → Prop} : ∀ {t : Named} {q : Option Nat}, Stands a q t →
    P t.key → (∀ x y, y ∈ t.ids → a.parent? x = some y → P y → P x) → ∀ x ∈ t.ids, P x
  | .node id kind text evaluated line cs, q, h, htop, hdown, x, hx => by
    rcases List.mem_cons.mp hx with rfl | hx
    · exact htop
    · rw [Stands] at h
      exact StandAll.descend h.2 htop (hdown · id List.mem_cons_self)
        (fun x y hy => hdown x y (List.mem_cons_of_mem _ hy)) x hx

theorem StandAll.descend {P : Nat → Prop} : ∀ {ts : List Named} {id : Nat},
    StandAll a (some id) ts → P id → (∀ x, a.parent? x = some id → P id → P x) →
    (∀ x y, y ∈ idsAll ts → a.parent? x = some y → P y → P x) → ∀ x ∈ idsAll ts, P x
  | [], _, _, _, _, _, x, hx => by cases hx
  | t :: ts, id, h, hid, htop, hdown, x, hx => by
    rcases List.mem_append.mp hx with hx | hx
    · exact Stands.descend h.1 (htop t.key h.1.parent?_key hid)
        (fun x y hy => hdown x y (List.mem_append_left _ hy)) x hx
    · exact StandAll.descend h.2 hid htop
        (fun x y hy => hdown x y (List.mem_append_right _ hy)) x hx

end

/-- No node is below itself. -/
theorem Stands.key_not_below {q : Option Nat} (h : Stands a q t) : t.key ∉ idsAll t.children := by
  intro hm
  obtain ⟨u, r, hu, hkey, hsize, -⟩ := StandAll.part h.stand_children hm
  obtain rfl : u = t := hu.unique h hkey
  cases u with
  | node id kind text evaluated line cs =>
    simp only [Named.children, Named.node.sizeOf_spec] at hsize
    omega

theorem Stands.disjoint {q : Nat} (ht : Stands a (some q) t) (hu : Stands a (some q) u)
    (hne : t.key ≠ u.key) (hqt : q ∉ t.ids) (hqu : q ∉ u.ids) : ∀ x ∈ t.ids, x ∉ u.ids := by
  refine ht.descend ?_ ?_
  · intro hm
    rcases hu.climb hm with he | ⟨y, hy, hp⟩
    · exact hne he
    · rw [ht.parent?_key] at hp
      cases hp
      exact hqu hy
  · intro x y hy hp hnot hm
    rcases hu.climb hm with rfl | ⟨z, hz, hp'⟩
    · rw [hu.parent?_key] at hp
      cases hp
      exact hqt hy
    · rw [hp] at hp'
      cases hp'
      exact hnot hz

theorem StandAll.nodup {id : Nat} : ∀ {ts : List Named}, StandAll a (some id) ts →
    (ts.map key).Nodup → id ∉ idsAll ts → (∀ t ∈ ts, t.ids.Nodup) → (idsAll ts).Nodup
  | [], _, _, _, _ => List.nodup_nil
  | t :: ts, h, hkeys, hid, hall => by
    obtain ⟨hkey, hkeys⟩ := List.nodup_cons.mp hkeys
    rw [idsAll, List.mem_append, not_or] at hid
    have hts := StandAll.nodup h.2 hkeys hid.2 fun u hu => hall u (List.mem_cons_of_mem _ hu)
    refine List.nodup_append.mpr ⟨hall t List.mem_cons_self, hts, ?_⟩
    rintro x hx _ hy rfl
    obtain ⟨u, hu, hxu⟩ := mem_idsAll.mp hy
    have hne : t.key ≠ u.key := by
      intro he
      exact hkey (he ▸ List.mem_map_of_mem hu)
    have hqu : id ∉ u.ids := fun hm => hid.2 (mem_idsAll.mpr ⟨u, hu, hm⟩)
    exact h.1.disjoint (standAll_iff.mp h.2 u hu) hne hid.1 hqu x hx hxu

mutual

/-- Where no node lists a child twice, the ids of a tree are all different. -/
theorem Stands.nodup_ids : ∀ {t : Named} {q : Option Nat}, Stands a q t →
    (∀ x ∈ t.ids, (a.children x).Nodup) → t.ids.Nodup
  | .node id kind text evaluated line cs, q, h, hnodup => by
    have hcs := h.stand_children
    have hchildren : a.children id = cs.map key := h.children_key
    have hkeys : (cs.map key).Nodup := hchildren ▸ hnodup id List.mem_cons_self
    have hall := StandAll.nodup_ids hcs fun x hx => hnodup x (List.mem_cons_of_mem _ hx)
    exact List.nodup_cons.mpr ⟨h.key_not_below, StandAll.nodup hcs hkeys h.key_not_below hall⟩

theorem StandAll.nodup_ids : ∀ {ts : List Named} {q : Option Nat}, StandAll a q ts →
    (∀ x ∈ idsAll ts, (a.children x).Nodup) → ∀ t ∈ ts, t.ids.Nodup
  | [], _, _, _, t, ht => by cases ht
  | u :: us, q, h, hnodup, t, ht => by
    rcases List.mem_cons.mp ht with he | ht
    · rw [he]
      exact Stands.nodup_ids h.1 fun x hx => hnodup x (List.mem_append_left _ hx)
    · exact StandAll.nodup_ids h.2 (fun x hx => hnodup x (List.mem_append_right _ hx)) t ht

end

/-- In a linked arena the ids of a tree are all different. -/
theorem Linked.nodup_ids (hl : a.Linked) {q : Option Nat} (h : Stands a q t) : t.ids.Nodup :=
  h.nodup_ids fun x _ => hl.nodup x

mutual

/-- In a linked arena a tree that a node holds stands there. -/
theorem Linked.stands (hl : a.Linked) {I : Nat → Prop} : ∀ {t : Tree} {id : Nat},
    a.Holds I id t → ∃ u : Named, u.key = id ∧ u.tree = t ∧ Stands a (a.parent? id) u
  | .node kind text evaluated line ts, id, h => by
    rw [Holds] at h
    obtain ⟨us, hkeys, htrees, hstand⟩ := Linked.stand_all hl h.2 fun c hc => hl.parent_of_mem hc
    refine ⟨.node id kind text evaluated line us, rfl, by rw [tree_node, htrees], ?_⟩
    rw [Stands]
    refine ⟨?_, hstand⟩
    obtain ⟨n, hn, he⟩ := Option.map_eq_some_iff.mp h.1
    simp only [Prod.mk.injEq] at he
    obtain ⟨rfl, rfl, rfl, rfl⟩ := he
    rw [hkeys]
    simp [Arena.children, parent?, hn]

theorem Linked.stand_all (hl : a.Linked) {I : Nat → Prop} : ∀ {ts : List Tree} {cs : List Nat}
    {q : Nat}, a.HoldsAll I cs ts → (∀ c ∈ cs, a.parent? c = some q) →
    ∃ us : List Named, us.map key = cs ∧ us.map tree = ts ∧ StandAll a (some q) us
  | [], [], q, _, _ => ⟨[], rfl, rfl, trivial⟩
  | [], _ :: _, _, h, _ => by simp [HoldsAll] at h
  | _ :: _, [], _, h, _ => by simp [HoldsAll] at h
  | t :: ts, c :: cs, q, h, hp => by
    obtain ⟨-, ht, hts⟩ := h
    obtain ⟨u, hkey, htree, hu⟩ := Linked.stands hl ht
    obtain ⟨us, hkeys, htrees, hus⟩ := Linked.stand_all hl hts fun d hd => hp d (by simp [hd])
    rw [hp c (by simp)] at hu
    exact ⟨u :: us, by simp [hkey, hkeys], by simp [htree, htrees], hu, hus⟩

end

end Whole

/-- Trees that stand one after the other in the child list of a node, between other children. -/
structure Spot (a : Arena) (p : Nat) (pre : List Nat) (ts : List Named) (post : List Nat) :
    Prop where
  children : a.children p = pre ++ ts.map key ++ post
  lt : p < a.size
  stand : StandAll a (some p) ts
  nodup : (idsAll ts).Nodup
  above : p ∉ idsAll ts
  beside : ∀ x ∈ pre ++ post, x < a.size ∧ x ∉ idsAll ts

/-- The trees of a spot, whose ids were the owned ones, have been replaced by others. -/
structure Edit (a b : Arena) (p : Nat) (pre post owned : List Nat) (us : List Named) :
    Prop where
  spot : Spot b p pre us post
  size : a.size ≤ b.size
  same : ∀ x, x < a.size → x ≠ p → x ∉ owned → b.node? x = a.node? x
  parent : b.node? p = (a.node? p).map fun n => { n with children := pre ++ us.map key ++ post }
  ids : ∀ x ∈ idsAll us, x ∈ owned ∨ a.size ≤ x

/-- The place of a node in the child list of another, with the ids that may change with it. -/
structure Hole (a : Arena) (p : Nat) (pre : List Nat) (old : Nat)
    (post owned : List Nat) : Prop where
  children : a.children p = pre ++ old :: post
  lt : p < a.size
  parent : a.parent? old = some p
  mem : old ∈ owned
  above : p ∉ owned
  beside : ∀ x ∈ pre ++ post, x < a.size ∧ x ∉ owned

theorem Spot.hole (h : Spot a p pre [t] post) : Hole a p pre t.key post t.ids where
  children := by simpa using h.children
  lt := h.lt
  parent := h.stand.1.parent?_key
  mem := t.key_mem_ids
  above := by simpa [idsAll] using h.above
  beside := by simpa [idsAll] using h.beside

theorem Spot.nodup_ids (h : Spot a p pre [t] post) : t.ids.Nodup := by
  simpa [idsAll] using h.nodup

theorem Spot.stands (h : Spot a p pre [t] post) : Stands a (some p) t :=
  h.stand.1

/-- An edit is known from what stands after it and from the child list of the parent. -/
theorem Edit.of_node (hlt : p < a.size) (hsize : a.size ≤ b.size) (hstand : StandAll b (some p) us)
    (hnodup : (idsAll us).Nodup) (habove : p ∉ owned)
    (hbeside : ∀ x ∈ pre ++ post, x < a.size ∧ x ∉ owned)
    (hids : ∀ x ∈ idsAll us, x ∈ owned ∨ a.size ≤ x)
    (hparent : b.node? p = (a.node? p).map fun n =>
      { n with children := pre ++ us.map key ++ post })
    (hsame : ∀ x, x < a.size → x ≠ p → x ∉ owned → b.node? x = a.node? x) :
    Edit a b p pre post owned us := by
  have hout : ∀ x, x < a.size → x ∉ owned → x ∉ idsAll us := by
    intro x hx hno hm
    rcases hids x hm with hm | hle
    · exact hno hm
    · omega
  refine ⟨⟨?_, by omega, hstand, hnodup, hout p hlt habove, ?_⟩, hsize, hsame, hparent, hids⟩
  · cases hn : a.node? p with
    | none => exact absurd (node?_eq_none_iff.mp hn) (by omega)
    | some n =>
      rw [hn, Option.map_some] at hparent
      simp [Arena.children, hparent]
  · intro x hx
    obtain ⟨hlt', hno⟩ := hbeside x hx
    exact ⟨by omega, hout x hlt' hno⟩

theorem Spot.keep (h : Spot a p pre [t] post) : Edit a a p pre post t.ids [t] where
  spot := h
  size := Nat.le_refl _
  same := fun _ _ _ _ => rfl
  parent := by
    have := h.children
    cases hn : a.node? p with
    | none => rfl
    | some n =>
      rw [Arena.children, hn, Option.elim_some] at this
      rw [Option.map_some, ← this]
  ids := by
    intro x hx
    rw [idsAll, idsAll, List.append_nil] at hx
    exact Or.inl hx

namespace Hole

theorem ne (h : Hole a p pre old post owned) {x : Nat} (hx : x ∈ owned) : p ≠ x := by
  rintro rfl
  exact h.above hx

/-- The first of the children that is the old one is the one of the hole. -/
theorem not_mem_pre (h : Hole a p pre old post owned) : old ∉ pre := by
  intro hm
  exact (h.beside old (List.mem_append_left _ hm)).2 h.mem

/-- The node of a hole is taken out. -/
theorem remove (h : Hole a p pre old post owned) : Edit a (a.detach old) p pre post owned [] := by
  obtain ⟨hsize, hp, hsame⟩ := detach_spec h.parent (h.ne h.mem)
  refine Edit.of_node h.lt (by omega) trivial List.nodup_nil h.above h.beside (by simp [idsAll]) ?_ ?_
  · have hc := h.children
    rw [hp]
    cases hn : a.node? p with
    | none => rfl
    | some n =>
      rw [Arena.children, hn, Option.elim_some] at hc
      simp [hc, List.erase_append_right _ h.not_mem_pre]
  · intro x _ hxp hxo
    refine hsame x hxp ?_
    rintro rfl
    exact hxo h.mem

/-- A tree is put in the place of the node of a hole. -/
theorem fill {q : Option Nat} (h : Hole a p pre old post owned) (hu : Stands a q u)
    (hq : q = none ∨ q = some old) (hsub : ∀ x ∈ u.ids, x ∈ owned) (hold : old ∉ u.ids)
    (hnodup : u.ids.Nodup) : Edit a (a.replace old u.key) p pre post owned [u] := by
  have hmem := hsub u.key u.key_mem_ids
  -- the tree that moves up is one of those below the hole
  have hne : old ≠ u.key := by
    intro he
    exact hold (he ▸ u.key_mem_ids)
  obtain ⟨hsize, hp, hnew, hsame⟩ := replace_spec h.parent hne (h.ne h.mem) (h.ne hmem)
    (by rw [hu.parent?_key]; exact hq)
  -- it stands there as it stood, with the parent of the hole for its own
  have hstand : Stands (a.replace old u.key) (some p) u := by
    refine hu.retarget hnew ?_
    intro x hx
    have hxu : x ∈ u.ids := by
      rw [ids_eq]
      exact List.mem_cons_of_mem _ hx
    refine hsame x (h.ne (hsub x hxu)).symm ?_ ?_
    · rintro rfl
      rw [ids_eq] at hnodup
      exact (List.nodup_cons.mp hnodup).1 hx
    · rintro rfl
      exact hold hxu
  refine Edit.of_node h.lt (by omega) ⟨hstand, trivial⟩ (by simpa [idsAll] using hnodup) h.above
    h.beside ?_ ?_ ?_
  · intro x hx
    exact Or.inl (hsub x (by simpa [idsAll] using hx))
  · have hc := h.children
    rw [hp]
    cases hn : a.node? p with
    | none => rfl
    | some n =>
      rw [Arena.children, hn, Option.elim_some] at hc
      simp [hc, replaceFirst_eq h.not_mem_pre]
  -- what is not below the hole is neither the old tree nor the new one
  · intro x _ hxp hxo
    refine hsame x hxp ?_ ?_
    · rintro rfl
      exact hxo hmem
    · rintro rfl
      exact hxo h.mem

end Hole

/-- Trees that can become the children of one node: no two have an id in common, and none has its
parent among the ids. -/
structure Movable (a : Arena) (owned : List Nat) (us : List Named) : Prop where
  nodup : (idsAll us).Nodup
  sub : ∀ x ∈ idsAll us, x ∈ owned
  stand : ∀ u ∈ us, ∃ q, Stands a q u ∧ ∀ x, q = some x → x ∉ idsAll us ∧ x ∈ owned

namespace Movable

theorem parents (h : Movable a owned us) : ∀ c ∈ us.map key, ∀ q, a.parent? c = some q →
    q ∉ idsAll us ∧ q ∈ owned := by
  intro c hc q hq
  obtain ⟨u, hu, rfl⟩ := List.mem_map.mp hc
  obtain ⟨r, hr, hout⟩ := h.stand u hu
  rw [hr.parent?_key] at hq
  exact hout q hq

theorem not_mem_keys {x : Nat} (hx : x ∉ idsAll us) : x ∉ us.map key :=
  fun hm => hx ((keys_sublist us).subset hm)

theorem setChildren (h : Movable a owned us) {n : Nat} (hn : n ∉ idsAll us) :
    (a.setChildren n (us.map key)).size = a.size ∧
    StandAll (a.setChildren n (us.map key)) (some n) us ∧
    (a.setChildren n (us.map key)).node? n =
      ((a.node? n).map fun m => { m with children := us.map key }) ∧
    (∀ x, x ∉ us.map key → x ≠ n → (∀ c ∈ us.map key, a.parent? c ≠ some x) →
      (a.setChildren n (us.map key)).node? x = a.node? x) ∧
    ∀ x, x ∉ us.map key → (a.setChildren n (us.map key)).bare? x = a.bare? x := by
  obtain ⟨hsize, hkeys, hnode, hsame, hbare⟩ := setChildren_spec
    ((keys_sublist us).nodup h.nodup)
    (fun c hc q hq hm => (h.parents c hc q hq).1 ((keys_sublist us).subset hm)) (not_mem_keys hn)
  refine ⟨hsize, standAll_iff.mpr ?_, hnode, hsame, hbare⟩
  intro u hu
  obtain ⟨q, hstand, -⟩ := h.stand u hu
  refine hstand.retarget (hkeys u.key (List.mem_map_of_mem hu)) ?_
  intro x hx
  have hxu : x ∈ u.ids := by
    rw [ids_eq]
    exact List.mem_cons_of_mem _ hx
  have hxus : x ∈ idsAll us := mem_idsAll.mpr ⟨u, hu, hxu⟩
  -- an id below one of the trees is the first id of none of them
  have hbelow : x ∉ us.map key := by
    intro hm
    obtain ⟨v, hv, rfl⟩ := List.mem_map.mp hm
    obtain rfl : v = u := eq_of_mem_ids h.nodup hv hu v.key_mem_ids hxu
    exact hstand.key_not_below hx
  refine hsame x hbelow ?_ ?_
  · rintro rfl
    exact hn hxus
  · intro c hc hp
    exact (h.parents c hc x hp).1 hxus

end Movable

/-- A new node above some trees, with no parent itself. -/
def gather (a : Arena) (kind : Tree.Kind) (text : String) (line : Nat) (ids : List Nat) : Arena :=
  (a.add kind text line).setChildren a.size ids

theorem Stands.add {q : Option Nat} (h : Stands a q t) (kind : Tree.Kind) (text : String)
    (line : Nat) : Stands (a.add kind text line) q t := by
  refine h.transfer ?_
  intro x hx
  rw [node?_add, if_neg (Nat.ne_of_lt (h.lt_size x hx))]

theorem Movable.lt_size (h : Movable a owned us) {x : Nat} (hx : x ∈ idsAll us) : x < a.size := by
  obtain ⟨u, hu, hxu⟩ := mem_idsAll.mp hx
  obtain ⟨q, hstand, -⟩ := h.stand u hu
  exact hstand.lt_size x hxu

theorem Movable.gather (h : Movable a owned us) (kind : Tree.Kind) (text : String) (line : Nat) :
    (a.gather kind text line (us.map key)).size = a.size + 1 ∧
    Stands (a.gather kind text line (us.map key)) none (.node a.size kind text false line us) ∧
    (∀ x, x < a.size → x ∉ us.map key → (∀ c ∈ us.map key, a.parent? c ≠ some x) →
      (a.gather kind text line (us.map key)).node? x = a.node? x) ∧
    ∀ x, x < a.size → x ∉ us.map key →
      (a.gather kind text line (us.map key)).bare? x = a.bare? x := by
  have hadd : Movable (a.add kind text line) owned us := by
    refine ⟨h.nodup, h.sub, ?_⟩
    intro u hu
    obtain ⟨q, hstand, hout⟩ := h.stand u hu
    exact ⟨q, hstand.add kind text line, hout⟩
  have hnew : a.size ∉ idsAll us := fun hm => Nat.lt_irrefl _ (h.lt_size hm)
  obtain ⟨hsize, hstand, hnode, hsame, hbare⟩ := hadd.setChildren hnew
  rw [size_add] at hsize
  simp only [parent?_add] at hsame
  refine ⟨hsize, ?_, ?_, ?_⟩
  · rw [Stands]
    refine ⟨?_, hstand⟩
    rw [Arena.gather, hnode, node?_add, if_pos rfl]
    rfl
  · intro x hx hkeys hp
    rw [Arena.gather, hsame x hkeys (Nat.ne_of_lt hx) hp, node?_add, if_neg (Nat.ne_of_lt hx)]
  · intro x hx hkeys
    rw [Arena.gather, hbare x hkeys, bare?, bare?, node?_add, if_neg (Nat.ne_of_lt hx)]

/-- A tree that has nothing to do with those that are gathered stays as it is. -/
theorem Movable.stands_gather {owned : List Nat} (h : Movable a owned us) {v : Named}
    {q : Option Nat} (hv : Stands a q v) (hapart : ∀ x ∈ v.ids, x ∉ idsAll us)
    (hparents : ∀ u ∈ us, ∀ y, a.parent? u.key = some y → y ∉ v.ids) (kind : Tree.Kind)
    (text : String) (line : Nat) : Stands (a.gather kind text line (us.map key)) q v := by
  obtain ⟨-, -, hsame, -⟩ := h.gather kind text line
  refine hv.transfer ?_
  intro x hx
  refine hsame x (hv.lt_size x hx) (Movable.not_mem_keys (hapart x hx)) ?_
  intro c hc hp
  obtain ⟨w, hw, rfl⟩ := List.mem_map.mp hc
  exact hparents w hw x hp hx

theorem Movable.sublist {vs : List Named} (h : Movable a owned us) (hvs : vs.Sublist us) :
    Movable a owned vs := by
  have hsub := idsAll_sublist hvs
  refine ⟨hsub.nodup h.nodup, fun x hx => h.sub x (hsub.subset hx), ?_⟩
  intro v hv
  obtain ⟨q, hstand, hout⟩ := h.stand v (hvs.subset hv)
  exact ⟨q, hstand, fun x hx => ⟨fun hm => (hout x hx).1 (hsub.subset hm), (hout x hx).2⟩⟩

section Gathered

variable {before after : List Named} {kind : Tree.Kind} {text : String} {line : Nat}

theorem idsAll_gathered {n : Nat} :
    (idsAll (before ++ .node n kind text false line us :: after)).Perm
      (n :: idsAll (before ++ us ++ after)) := by
  simp only [idsAll_append, idsAll, Named.ids, List.append_assoc, List.cons_append]
  exact List.perm_middle

theorem mem_idsAll_gathered {n x : Nat} :
    x ∈ idsAll (before ++ .node n kind text false line us :: after) ↔
      x = n ∨ x ∈ idsAll (before ++ us ++ after) := by
  rw [idsAll_gathered.mem_iff, List.mem_cons]

/-- Trees some of which have been gathered below a new node can still be moved together. -/
theorem Movable.gathered (h : Movable a owned (before ++ us ++ after))
    (hlt : ∀ x ∈ owned, x < a.size) (kind : Tree.Kind) (text : String) (line : Nat) :
    Movable (a.gather kind text line (us.map key)) (a.size :: owned)
      (before ++ .node a.size kind text false line us :: after) := by
  have hus : Movable a owned us :=
    h.sublist ((List.sublist_append_right before us).trans (List.sublist_append_left _ after))
  have hsize : a.size ∉ idsAll (before ++ us ++ after) :=
    fun hm => Nat.lt_irrefl _ (h.lt_size hm)
  have hdisjoint : ∀ x ∈ idsAll us, x ∉ idsAll (before ++ after) := by
    have hnodup := h.nodup
    rw [idsAll_append, idsAll_append, List.append_assoc] at hnodup
    have hswap := (List.perm_append_comm_assoc _ _ _).nodup_iff.mp hnodup
    intro x hx hm
    rw [idsAll_append] at hm
    exact (List.nodup_append.mp hswap).2.2 x hx x hm rfl
  refine ⟨idsAll_gathered.nodup_iff.mpr (List.nodup_cons.mpr ⟨hsize, h.nodup⟩), ?_, ?_⟩
  · intro x hx
    rcases mem_idsAll_gathered.mp hx with rfl | hx
    · exact List.mem_cons_self
    · exact List.mem_cons_of_mem _ (h.sub x hx)
  · intro v hv
    have hcases : v = .node a.size kind text false line us ∨ v ∈ before ++ after := by
      simpa [or_left_comm] using hv
    rcases hcases with rfl | hrest
    · exact ⟨none, (hus.gather kind text line).2.1, by simp⟩
    have hold : v ∈ before ++ us ++ after := by
      rcases List.mem_append.mp hrest with hm | hm
      · exact List.mem_append_left _ (List.mem_append_left _ hm)
      · exact List.mem_append_right _ hm
    obtain ⟨q, hstand, hout⟩ := h.stand v hold
    refine ⟨q, hus.stands_gather hstand ?_ ?_ kind text line, ?_⟩
    · intro x hx hm
      exact hdisjoint x hm (mem_idsAll.mpr ⟨v, hrest, hx⟩)
    · intro u hu y hy hm
      have hmem : u ∈ before ++ us ++ after :=
        List.mem_append_left _ (List.mem_append_right _ hu)
      exact (h.parents u.key (List.mem_map_of_mem hmem) y hy).1 (mem_idsAll.mpr ⟨v, hold, hm⟩)
    · intro x hx
      obtain ⟨hno, hown⟩ := hout x hx
      refine ⟨fun hm => ?_, List.mem_cons_of_mem _ hown⟩
      rcases mem_idsAll_gathered.mp hm with rfl | hm
      · exact Nat.lt_irrefl _ (hlt _ hown)
      · exact hno hm

end Gathered

namespace Hole

theorem gather (h : Hole a p pre old post owned) (hlt : old < a.size) (hus : Movable a owned us)
    (hold : old ∉ idsAll us) (kind : Tree.Kind) (text : String) (line : Nat) :
    Hole (a.gather kind text line (us.map key)) p pre old post (a.size :: owned) := by
  obtain ⟨hsize, -, hsame, hbare⟩ := hus.gather kind text line
  have hnode := hsame p h.lt (Movable.not_mem_keys fun hm => h.above (hus.sub p hm))
    fun c hc hp => h.above (hus.parents c hc p hp).2
  refine ⟨?_, by have := h.lt; omega, ?_, List.mem_cons_of_mem _ h.mem, ?_, ?_⟩
  · rw [Arena.children, hnode]
    exact h.children
  · rw [parent?_of_bare? (hbare old hlt (Movable.not_mem_keys hold))]
    exact h.parent
  · intro hm
    rcases List.mem_cons.mp hm with he | hm
    · exact Nat.ne_of_lt h.lt he
    · exact h.above hm
  · intro x hx
    obtain ⟨hlt', hno⟩ := h.beside x hx
    refine ⟨by omega, fun hm => ?_⟩
    rcases List.mem_cons.mp hm with he | hm
    · omega
    · exact hno hm

/-- What is edited after some trees have been put below a new node. -/
theorem edit_of_gather (h : Hole a p pre old post owned) (hus : Movable a owned us)
    {kind : Tree.Kind} {text : String} {line : Nat} {c : Arena} {vs : List Named}
    (he : Edit (a.gather kind text line (us.map key)) c p pre post (a.size :: owned) vs) :
    Edit a c p pre post owned vs := by
  obtain ⟨hsize, -, hsame, -⟩ := hus.gather kind text line
  have hout : ∀ x, x < a.size → x ∉ owned →
      (a.gather kind text line (us.map key)).node? x = a.node? x := by
    intro x hx hxo
    refine hsame x hx (Movable.not_mem_keys fun hm => hxo (hus.sub x hm)) ?_
    intro c hc hp
    exact hxo (hus.parents c hc x hp).2
  have hsize' := he.size
  refine Edit.of_node h.lt (by omega) he.spot.stand he.spot.nodup h.above h.beside ?_ ?_ ?_
  · intro x hx
    rcases he.ids x hx with hm | hle
    · rcases List.mem_cons.mp hm with rfl | hm
      · exact Or.inr (Nat.le_refl _)
      · exact Or.inl hm
    · exact Or.inr (by omega)
  · rw [he.parent, hout p h.lt h.above]
  · intro x hx hxp hxo
    rw [he.same x (by omega) hxp, hout x hx hxo]
    intro hm
    rcases List.mem_cons.mp hm with rfl | hm
    · exact Nat.lt_irrefl _ hx
    · exact hxo hm

/-- A new node above movable trees takes the place of the node of a hole. -/
theorem regroup (h : Hole a p pre old post owned) (hlt : old < a.size) (hus : Movable a owned us)
    (hold : old ∉ idsAll us) (kind : Tree.Kind) (text : String) :
    Edit a (a.regroup old kind text (us.map key)).1 p pre post owned
      [.node a.size kind text false (a.line old) us] := by
  obtain ⟨-, hstand, -, -⟩ := hus.gather kind text (a.line old)
  refine h.edit_of_gather hus ((h.gather hlt hus hold kind text (a.line old)).fill hstand
    (Or.inl rfl) ?_ ?_ ?_)
  · intro x hx
    rcases List.mem_cons.mp hx with rfl | hx
    · exact List.mem_cons_self
    · exact List.mem_cons_of_mem _ (hus.sub x hx)
  · intro hm
    rcases List.mem_cons.mp hm with he | hm
    · omega
    · exact hold hm
  · exact List.nodup_cons.mpr ⟨fun hm => Nat.lt_irrefl _ (hus.lt_size hm), hus.nodup⟩

/-- The node of a hole stays and gets new children. -/
theorem setChildren {n : Node} (h : Hole a p pre old post owned) (hn : a.node? old = some n)
    (hus : Movable a owned us) (hold : old ∉ idsAll us) :
    Edit a (a.setChildren old (us.map key)) p pre post owned
      [.node old n.kind n.text n.evaluated n.line us] := by
  obtain ⟨hsize, hstand, hnode, hsame, -⟩ := hus.setChildren hold
  have hout : ∀ x, x ∉ owned → x ≠ old →
      (a.setChildren old (us.map key)).node? x = a.node? x := by
    intro x hx hne
    refine hsame x (Movable.not_mem_keys fun hm => hx (hus.sub x hm)) hne ?_
    intro c hc hp
    exact hx (hus.parents c hc x hp).2
  have hpar : n.parent = some p := by
    have := h.parent
    rwa [parent?, hn] at this
  refine Edit.of_node h.lt (by omega) ⟨?_, trivial⟩ ?_ h.above h.beside ?_ ?_ ?_
  · rw [Stands]
    refine ⟨?_, hstand⟩
    rw [hnode, hn, Option.map_some, ← hpar]
  · rw [idsAll, idsAll, List.append_nil]
    exact List.nodup_cons.mpr ⟨hold, hus.nodup⟩
  · intro x hx
    rw [idsAll, idsAll, List.append_nil] at hx
    rcases List.mem_cons.mp hx with rfl | hx
    · exact Or.inl h.mem
    · exact Or.inl (hus.sub x hx)
  · rw [hout p h.above (h.ne h.mem)]
    have hc := h.children
    cases hnp : a.node? p with
    | none => rfl
    | some m =>
      rw [Arena.children, hnp, Option.elim_some] at hc
      simp [Named.key, ← hc]
  · intro x _ _ hxo
    refine hout x hxo ?_
    rintro rfl
    exact hxo h.mem

end Hole

end ScriptKit.Arena
