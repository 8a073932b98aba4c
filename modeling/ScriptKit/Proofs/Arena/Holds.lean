import Mathlib.Data.List.Perm.Subperm
import ScriptKit.Proofs.Arena.Links

namespace ScriptKit

mutual

/-- The number of nodes on the longest way down a tree. -/
def Tree.depth : Tree → Nat
  | .node _ _ _ _ children => depthAll children + 1

def Tree.depthAll : List Tree → Nat
  | [] => 0
  | t :: ts => max t.depth (depthAll ts)

end

theorem Tree.sizeOf_lt_of_mem {t : Tree} {ts : List Tree} (h : t ∈ ts) (kind : Tree.Kind)
    (text : String) (evaluated : Bool) (line : Nat) :
    sizeOf t < sizeOf (Tree.node kind text evaluated line ts) := by
  have := List.sizeOf_lt_of_mem h
  simp only [Tree.node.sizeOf_spec]
  omega

namespace Arena

mutual

/-- The tree below a node is the given one, and all nodes in it below the first have a property. -/
def Holds (a : Arena) (I : Nat → Prop) : Nat → Tree → Prop
  | id, .node kind text evaluated line children =>
    a.info? id = some (kind, text, evaluated, line) ∧ HoldsAll a I (a.children id) children

def HoldsAll (a : Arena) (I : Nat → Prop) : List Nat → List Tree → Prop
  | [], [] => True
  | c :: cs, t :: ts => I c ∧ Holds a I c t ∧ HoldsAll a I cs ts
  | _, _ => False

end

variable {a a' : Arena} {I J : Nat → Prop}

theorem holdsAll_cons_iff {c : Nat} {cs : List Nat} {ts : List Tree} :
    HoldsAll a I (c :: cs) ts ↔
      ∃ t ts', ts = t :: ts' ∧ I c ∧ Holds a I c t ∧ HoldsAll a I cs ts' := by
  cases ts with
  | nil => simp [HoldsAll]
  | cons t ts =>
    simp only [HoldsAll, List.cons.injEq]
    constructor
    · intro h
      exact ⟨t, ts, ⟨rfl, rfl⟩, h⟩
    · rintro ⟨_, _, ⟨rfl, rfl⟩, h⟩
      exact h

@[simp] theorem holdsAll_nil_iff {ts : List Tree} : HoldsAll a I [] ts ↔ ts = [] := by
  cases ts <;> simp [HoldsAll]

theorem holdsAll_append {cs ds : List Nat} {ts us : List Tree} (h : HoldsAll a I cs ts)
    (h' : HoldsAll a I ds us) : HoldsAll a I (cs ++ ds) (ts ++ us) := by
  induction cs generalizing ts with
  | nil => rw [holdsAll_nil_iff.mp h]; exact h'
  | cons c cs ih =>
    obtain ⟨t, ts', rfl, hi, ht, hts⟩ := holdsAll_cons_iff.mp h
    exact ⟨hi, ht, ih hts⟩

theorem HoldsAll.mem {cs : List Nat} {ts : List Tree} (h : HoldsAll a I cs ts) {c : Nat}
    (hc : c ∈ cs) : I c ∧ ∃ t ∈ ts, Holds a I c t := by
  induction cs generalizing ts with
  | nil => cases hc
  | cons d cs ih =>
    obtain ⟨t, ts', rfl, hi, ht, hts⟩ := holdsAll_cons_iff.mp h
    rcases List.mem_cons.mp hc with rfl | hc
    · exact ⟨hi, t, by simp, ht⟩
    · obtain ⟨hi', u, hu, hh⟩ := ih hts hc
      exact ⟨hi', u, by simp [hu], hh⟩

theorem HoldsAll.length_eq {cs : List Nat} {ts : List Tree} (h : HoldsAll a I cs ts) :
    cs.length = ts.length := by
  induction cs generalizing ts with
  | nil => rw [holdsAll_nil_iff.mp h]; rfl
  | cons c cs ih =>
    obtain ⟨t, ts', rfl, -, -, hts⟩ := holdsAll_cons_iff.mp h
    simp [ih hts]

theorem Holds.lt_size {id : Nat} {t : Tree} (h : a.Holds I id t) : id < a.size := by
  cases t with
  | node kind text evaluated line children =>
    apply Nat.lt_of_not_le
    intro hle
    rw [Holds, info?_eq_none_iff.mpr hle] at h
    cases h.1

theorem Holds.line_eq {id : Nat} {t : Tree} (h : a.Holds I id t) : a.line id = t.line := by
  cases t with
  | node kind text evaluated line children =>
    rw [Holds] at h
    obtain ⟨n, hn, he⟩ := Option.map_eq_some_iff.mp h.1
    simp only [Prod.mk.injEq] at he
    rw [Arena.line, hn, Tree.line, ← he.2.2.2]
    rfl

mutual

/-- A tree stays where no node of it changes. The property `P` marks the nodes that do not. -/
theorem Holds.transfer {P : Nat → Prop}
    (hinfo : ∀ x, x < a.size → P x → a'.info? x = a.info? x)
    (hchildren : ∀ x, P x → (∀ c ∈ a.children x, I c) → a'.children x = a.children x)
    (hdown : ∀ x c, P x → c ∈ a.children x → I c → P c ∧ J c) :
    ∀ {t : Tree} {id : Nat}, P id → a.Holds I id t → a'.Holds J id t
  | .node kind text evaluated line children, id, hp, h => by
    have hlt := h.lt_size
    rw [Holds] at h ⊢
    have hc := hchildren id hp fun c hc => (h.2.mem hc).1
    rw [hinfo id hlt hp, hc]
    refine ⟨h.1, HoldsAll.transfer hinfo hchildren hdown ?_ h.2⟩
    intro c hc
    exact hdown id c hp hc (h.2.mem hc).1

theorem HoldsAll.transfer {P : Nat → Prop}
    (hinfo : ∀ x, x < a.size → P x → a'.info? x = a.info? x)
    (hchildren : ∀ x, P x → (∀ c ∈ a.children x, I c) → a'.children x = a.children x)
    (hdown : ∀ x c, P x → c ∈ a.children x → I c → P c ∧ J c) :
    ∀ {ts : List Tree} {cs : List Nat}, (∀ c ∈ cs, P c ∧ J c) → a.HoldsAll I cs ts →
      a'.HoldsAll J cs ts
  | [], cs, hp, h => by
    cases cs with
    | nil => simp [HoldsAll]
    | cons c cs => simp [HoldsAll] at h
  | t :: ts, cs, hp, h => by
    cases cs with
    | nil => simp [HoldsAll] at h
    | cons c cs =>
      obtain ⟨hi, ht, hts⟩ := h
      obtain ⟨hpc, hj⟩ := hp c (by simp)
      exact ⟨hj, Holds.transfer hinfo hchildren hdown hpc ht,
        HoldsAll.transfer hinfo hchildren hdown (fun d hd => hp d (by simp [hd])) hts⟩

end

theorem Holds.mono {id : Nat} {t : Tree} (h : a.Holds I id t) (hij : ∀ x, I x → J x) :
    a.Holds J id t :=
  Holds.transfer (P := fun _ => True) (fun _ _ _ => rfl) (fun _ _ _ => rfl)
    (fun _ c _ _ hc => ⟨trivial, hij c hc⟩) trivial h

theorem HoldsAll.mono {cs : List Nat} {ts : List Tree} (h : a.HoldsAll I cs ts)
    (hij : ∀ x, I x → J x) : a.HoldsAll J cs ts :=
  HoldsAll.transfer (P := fun _ => True) (fun _ _ _ => rfl) (fun _ _ _ => rfl)
    (fun _ c _ _ hc => ⟨trivial, hij c hc⟩) (fun c hc => ⟨trivial, hij c (h.mem hc).1⟩) h

mutual

/-- A node holds one tree only. -/
theorem Holds.unique : ∀ {t u : Tree} {id : Nat}, a.Holds I id t → a.Holds J id u → t = u
  | .node _ _ _ _ _, .node _ _ _ _ _, id, h, h' => by
    rw [Holds] at h h'
    have he := Option.some.inj (h.1.symm.trans h'.1)
    simp only [Prod.mk.injEq] at he
    obtain ⟨rfl, rfl, rfl, rfl⟩ := he
    rw [HoldsAll.unique h.2 h'.2]

theorem HoldsAll.unique : ∀ {ts us : List Tree} {cs : List Nat}, a.HoldsAll I cs ts →
    a.HoldsAll J cs us → ts = us
  | [], us, cs, h, h' => by
    cases cs with
    | nil => rw [holdsAll_nil_iff.mp h']
    | cons c cs => simp [HoldsAll] at h
  | t :: ts, us, cs, h, h' => by
    cases cs with
    | nil => simp [HoldsAll] at h
    | cons c cs =>
      obtain ⟨u, us', rfl, -, hu, hus⟩ := holdsAll_cons_iff.mp h'
      rw [Holds.unique h.2.1 hu, HoldsAll.unique h.2.2 hus]

end

mutual

/-- No tree holds the first node of a larger one, since that node holds the larger tree. -/
theorem Holds.avoids {n : Nat} {t : Tree} (hn : a.Holds I n t) :
    ∀ {u : Tree} {id : Nat}, sizeOf u ≤ sizeOf t → a.Holds I id u →
      a.Holds (fun c => I c ∧ c ≠ n) id u
  | .node kind text evaluated line children, id, hle, h => by
    rw [Holds] at h ⊢
    refine ⟨h.1, HoldsAll.avoids hn ?_ h.2⟩
    intro v hv
    have := Tree.sizeOf_lt_of_mem hv kind text evaluated line
    omega

theorem HoldsAll.avoids {n : Nat} {t : Tree} (hn : a.Holds I n t) :
    ∀ {us : List Tree} {cs : List Nat}, (∀ v ∈ us, sizeOf v < sizeOf t) → a.HoldsAll I cs us →
      a.HoldsAll (fun c => I c ∧ c ≠ n) cs us
  | [], cs, _, h => by
    cases cs with
    | nil => simp [HoldsAll]
    | cons c cs => simp [HoldsAll] at h
  | u :: us, cs, hlt, h => by
    cases cs with
    | nil => simp [HoldsAll] at h
    | cons c cs =>
      obtain ⟨hi, hu, hus⟩ := h
      have hsize := hlt u (by simp)
      refine ⟨⟨hi, ?_⟩, Holds.avoids hn (by omega) hu,
        HoldsAll.avoids hn (fun v hv => hlt v (by simp [hv])) hus⟩
      rintro rfl
      rw [Holds.unique hu hn] at hsize
      omega

end

/-- The nodes on a longest way down a tree are as many as the tree is deep, and all different. -/
theorem Holds.exists_path : ∀ {t : Tree} {id : Nat}, a.Holds I id t →
    ∃ path : List Nat, path.length = t.depth ∧ path.Nodup ∧
      ∀ x ∈ path, x < a.size ∧ ∃ u, a.Holds I x u ∧ sizeOf u ≤ sizeOf t
  | .node kind text evaluated line children, id, h => by
    have hlt := h.lt_size
    have h' := h
    rw [Holds] at h'
    -- the path through the deepest of the children
    have hdeep : ∀ {ts : List Tree} {cs : List Nat}, (∀ v ∈ ts, v ∈ children) →
        a.HoldsAll I cs ts → ∃ path : List Nat, path.length = Tree.depthAll ts ∧ path.Nodup ∧
          ∀ x ∈ path, x < a.size ∧ ∃ u, a.Holds I x u ∧
            sizeOf u < sizeOf (Tree.node kind text evaluated line children) := by
      intro ts
      induction ts with
      | nil => intro cs _ _; exact ⟨[], rfl, List.nodup_nil, by simp⟩
      | cons v vs ih =>
        intro cs hsub hcs
        cases cs with
        | nil => simp [HoldsAll] at hcs
        | cons c cs =>
          obtain ⟨-, hv, hvs⟩ := hcs
          have hmem := hsub v (by simp)
          have hsize := Tree.sizeOf_lt_of_mem hmem kind text evaluated line
          obtain ⟨path, hl, hnd, hall⟩ := hv.exists_path
          obtain ⟨path', hl', hnd', hall'⟩ := ih (fun w hw => hsub w (by simp [hw])) hvs
          simp only [Tree.depthAll]
          rcases Nat.le_total (Tree.depthAll vs) v.depth with hle | hle
          · refine ⟨path, by omega, hnd, ?_⟩
            intro x hx
            obtain ⟨hxs, u, hu, hle'⟩ := hall x hx
            exact ⟨hxs, u, hu, by omega⟩
          · exact ⟨path', by omega, hnd', hall'⟩
    obtain ⟨path, hl, hnd, hall⟩ := hdeep (fun v hv => hv) h'.2
    refine ⟨id :: path, by simp [Tree.depth, hl], List.nodup_cons.mpr ⟨?_, hnd⟩, ?_⟩
    -- the node is not on a path below it, since the trees there are smaller
    · intro hm
      obtain ⟨-, u, hu, hsize⟩ := hall id hm
      rw [hu.unique h] at hsize
      omega
    · intro x hx
      rcases List.mem_cons.mp hx with rfl | hx
      · exact ⟨hlt, _, h, Nat.le_refl _⟩
      · obtain ⟨hxs, u, hu, hsize⟩ := hall x hx
        exact ⟨hxs, u, hu, by omega⟩

theorem Holds.depth_le_size {t : Tree} {id : Nat} (h : a.Holds I id t) : t.depth ≤ a.size := by
  obtain ⟨path, hl, hnd, hall⟩ := h.exists_path
  have hsub : path ⊆ List.range a.size := by
    intro x hx
    exact List.mem_range.mpr (hall x hx).1
  have := (List.subperm_of_subset hnd hsub).length_le
  rw [List.length_range] at this
  omega

/-- The tree that is read off an arena is the one the node holds. -/
theorem Holds.toTree?_eq : ∀ {t : Tree} {id fuel : Nat}, a.Holds I id t → t.depth ≤ fuel →
    a.toTree? fuel id = some t
  | .node kind text evaluated line children, id, 0, _, hd => by simp [Tree.depth] at hd
  | .node kind text evaluated line children, id, fuel + 1, h, hd => by
    simp only [Tree.depth] at hd
    rw [Holds] at h
    obtain ⟨hi, hc⟩ := h
    obtain ⟨n, hn, he⟩ := Option.map_eq_some_iff.mp hi
    simp only [Prod.mk.injEq] at he
    obtain ⟨rfl, rfl, rfl, rfl⟩ := he
    have hch : a.children id = n.children := by simp [Arena.children, hn]
    -- the children are read one after the other, each with enough fuel for its depth
    have hall : ∀ {ts : List Tree} {cs : List Nat}, (∀ v ∈ ts, v ∈ children) →
        Tree.depthAll ts ≤ fuel → a.HoldsAll I cs ts → cs.filterMap (a.toTree? fuel) = ts := by
      intro ts
      induction ts with
      | nil =>
        intro cs _ _ hcs
        cases cs with
        | nil => rfl
        | cons c cs => simp [HoldsAll] at hcs
      | cons v vs ih =>
        intro cs hsub hdeep hcs
        cases cs with
        | nil => simp [HoldsAll] at hcs
        | cons c cs =>
          simp only [Tree.depthAll] at hdeep
          have hmem := hsub v (by simp)
          have hv : a.toTree? fuel c = some v := Holds.toTree?_eq hcs.2.1 (by omega)
          rw [List.filterMap_cons_some hv,
            ih (fun w hw => hsub w (by simp [hw])) (by omega) hcs.2.2]
    rw [toTree?, hn, Option.map_some, ← hch, hall (fun v hv => hv) (by omega) hc]

theorem Holds.toTree_eq {t : Tree} {id : Nat} (h : a.Holds I id t) : a.toTree id = some t :=
  h.toTree?_eq (Nat.le_succ_of_le h.depth_le_size)

end Arena

end ScriptKit
