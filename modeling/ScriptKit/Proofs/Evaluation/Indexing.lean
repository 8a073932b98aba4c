import Mathlib.Data.List.Forall2
import Mathlib.Order.Filter.AtTopBot.Basic
import ScriptKit.Evaluation.Evaluate
import ScriptKit.Proofs.Value.Cells

namespace ScriptKit

open Filter (atTop)

/-- A run that leaves the machine as it is, and gives a value or fails with a fault. -/
def Resolves (m : Machine) : Except Fault Value → Outcome Value × Machine → Prop
  | .ok v, r => r = (.value v, m)
  | .error f, r => ∃ place, r = (.failure (.fault f place), m)

/-- What a node comes to with all the fuel it takes. -/
def Yields (host : Host) (frame : Frame) (m : Machine) (t : Tree) (x : Except Fault Value) : Prop :=
  ∀ᶠ fuel in atTop, Resolves m x (evaluate host fuel frame (some t) m)

variable {host : Host} {frame : Frame} {m : Machine} {x : Except Fault Value} {t base : Tree}
  {ts : List Tree} {v : Value} {vs : List Value}

namespace Resolves

theorem locating {c : Eval Value} (place : Location) (h : Resolves m x (c m)) :
    Resolves m x (Eval.locating place c m) := by
  cases x with
  | ok v =>
    have hc : c m = (.value v, m) := h
    rw [Eval.locating, hc]
    rfl
  | error f =>
    obtain ⟨place', hc⟩ := h
    rw [Eval.locating, hc]
    exact ⟨_, rfl⟩

theorem after {α : Type} {a : α} {c : Eval α} {f : α → Eval Value} (hc : c m = (.value a, m))
    (h : Resolves m x (f a m)) : Resolves m x ((c >>= f) m) := by
  change Resolves m x (Eval.andThen c f m)
  rw [Eval.andThen, hc]
  exact h

theorem bind {c : Eval Value} {f : Value → Eval Value} {g : Value → Except Fault Value}
    (hc : Resolves m x (c m)) (hf : ∀ v, Resolves m (g v) (f v m)) :
    Resolves m (x >>= g) ((c >>= f) m) := by
  cases x with
  | ok v => exact after hc (hf v)
  | error e =>
    obtain ⟨place, hc⟩ := hc
    change Resolves m _ (Eval.andThen c f m)
    rw [Eval.andThen, hc]
    exact ⟨place, rfl⟩

theorem ofExcept (m : Machine) (x : Except Fault Value) : Resolves m x (Eval.ofExcept x m) := by
  cases x with
  | ok v => rfl
  | error f => exact ⟨_, rfl⟩

theorem query (m : Machine) (f : Store → Except Fault Value) :
    Resolves m (f m.store) ((Eval.query f >>= Eval.ofExcept) m) :=
  after rfl (ofExcept m (f m.store))

end Resolves

/-- A node comes to one result. -/
theorem Yields.unique {y : Except Fault Value} (hx : Yields host frame m t x)
    (hy : Yields host frame m t y) : x = y := by
  obtain ⟨fuel, hx, hy⟩ := (hx.and hy).exists
  cases x with
  | ok v =>
    cases y with
    | ok w => cases hx.symm.trans hy; rfl
    | error f =>
      obtain ⟨place, hy⟩ := hy
      cases hx.symm.trans hy
  | error e =>
    obtain ⟨place, hx⟩ := hx
    cases y with
    | ok w => cases hx.symm.trans hy
    | error f =>
      obtain ⟨place', hy⟩ := hy
      cases hx.symm.trans hy
      rfl

theorem Yields.of_node
    (h : ∀ᶠ fuel in atTop, Resolves m x (Evaluator.node (evaluate host fuel) host fuel frame t m)) :
    Yields host frame m t x := by
  rw [Yields, ← Filter.map_add_atTop_eq_nat 1, Filter.eventually_map]
  exact h.mono fun fuel hfuel => hfuel.locating _

theorem Evaluator.each_value {ev : Evaluator Eval}
    (h : List.Forall₂ (fun t v => ev frame (some t) m = (.value v, m)) ts vs) :
    ev.each frame ts m = (.value vs, m) := by
  induction h with
  | nil => rfl
  | cons hv _ ih =>
    simp only [Evaluator.each, Bind.bind, Eval.andThen, hv, ih]
    rfl

theorem eventually_each (h : List.Forall₂ (fun t v => Yields host frame m t (.ok v)) ts vs) :
    ∀ᶠ fuel in atTop, (evaluate host fuel).each frame ts m = (.value vs, m) := by
  have hall : ∀ᶠ fuel in atTop, List.Forall₂
      (fun t v => evaluate host fuel frame (some t) m = (.value v, m)) ts vs := by
    induction h with
    | nil => exact .of_forall fun _ => .nil
    | cons hv _ ih => exact (hv.and ih).mono fun _ h => .cons h.1 h.2
  exact hall.mono fun _ => Evaluator.each_value

/-- The node that reads an element. -/
def indexNode (line : Nat) (target index : Tree) : Tree :=
  .branch .index line [target, index]

/-- Reads one inside of the other, the first of the base. Every index comes with the line of the
node that reads at it. -/
def nestedReads (base : Tree) (indices : List (Tree × Nat)) : Tree :=
  indices.foldl (fun target index => indexNode index.2 target index.1) base

/-- The node that calls the base with the indices as arguments. -/
def indexCall (line listLine : Nat) (base : Tree) (indices : List (Tree × Nat)) : Tree :=
  .branch .call line [base, .branch .expressionList listLine (indices.map Prod.fst)]

/-- The node that writes at the indices. -/
def indexWrite (line listLine : Nat) (base : Tree) (indices : List (Tree × Nat)) (value : Tree) :
    Tree :=
  .branch .indexWrite line
    [base, .branch .expressionList listLine (indices.map Prod.fst), value]

theorem Yields.indexNode {index : Tree} {i : Value} (line : Nat)
    (hx : Yields host frame m base x) (hi : Yields host frame m index (.ok i)) :
    Yields host frame m (indexNode line base index) (x >>= fun v => m.store.index v i) := by
  refine .of_node ((hx.and hi).mono fun fuel ⟨hx, hi⟩ => ?_)
  exact hx.bind fun v => Resolves.after hi (Resolves.query m fun s => s.index v i)

theorem Yields.nestedReads {indices : List (Tree × Nat)} (hx : Yields host frame m base x)
    (h : List.Forall₂ (fun index i => Yields host frame m index.1 (.ok i)) indices vs) :
    Yields host frame m (nestedReads base indices) (x >>= fun v => m.store.indexAll v vs) := by
  induction h generalizing base x with
  | nil =>
    cases x <;> exact hx
  | @cons index i indices is hi _ ih =>
    have hrest := ih (hx.indexNode index.2 hi)
    cases x <;> exact hrest

theorem eventually_indices {indices : List (Tree × Nat)}
    (h : List.Forall₂ (fun index i => Yields host frame m index.1 (.ok i)) indices vs) :
    ∀ᶠ fuel in atTop,
      (evaluate host fuel).each frame (indices.map Prod.fst) m = (.value vs, m) :=
  eventually_each (List.forall₂_map_left_iff.mpr h)

/-- A name has a value only if it is bound. -/
theorem lookup_of_value {fuel : Nat} (hkind : t.kind = .identifier)
    (h : evaluate host fuel frame (some t) m = (.value v, m)) :
    m.store.lookup? frame.scope t.text = some v := by
  obtain ⟨kind, text, evaluated, line, children⟩ := t
  obtain rfl : kind = .identifier := hkind
  cases fuel with
  | zero => cases h
  | succ fuel =>
    have hread : Eval.locating ⟨frame.file.name, line⟩
        (Eval.query (fun s => s.read frame.scope text) >>= Eval.ofExcept) m = (.value v, m) := h
    simp only [Eval.locating, Bind.bind, Eval.andThen, Eval.query, Store.read] at hread
    change m.store.lookup? frame.scope text = some v
    cases hlookup : m.store.lookup? frame.scope text with
    | none =>
      rw [hlookup] at hread
      cases hread
    | some w =>
      rw [hlookup] at hread
      cases hread
      rfl

theorem Evaluator.callValue_array (ev : Evaluator Eval) (id : ArrayId) (description : String)
    (vs : List Value) :
    Resolves m (m.store.indexAll (.array id) vs) (ev.callValue (.array id) description vs m) :=
  Resolves.query m fun s => s.indexAll (.array id) vs

/-- A call of what has an array as its value reads in it. The name that stands for the built-in
functions is no such thing, whatever is bound to it. -/
theorem Yields.indexCall {indices : List (Tree × Nat)} {id : ArrayId} (line listLine : Nat)
    (hbase : Yields host frame m base (.ok (.array id)))
    (hescape : base.kind = .identifier → base.text ≠ builtinEscape)
    (h : List.Forall₂ (fun index i => Yields host frame m index.1 (.ok i)) indices vs) :
    Yields host frame m (indexCall line listLine base indices)
      (m.store.indexAll (.array id) vs) := by
  refine .of_node ((hbase.and (eventually_indices h)).mono fun fuel ⟨hbase, hindices⟩ => ?_)
  refine Resolves.after hindices ?_
  change Resolves m _ ((evaluate host fuel).callNode host frame (some base) vs m)
  simp only [Evaluator.callNode]
  by_cases hkind : base.kind = .identifier
  · -- a bound name is looked up and not evaluated
    rw [if_neg (not_not.mpr hkind), if_neg (hescape hkind)]
    refine Resolves.after rfl ?_
    simp only [lookup_of_value hkind hbase]
    exact Evaluator.callValue_array _ id _ vs
  · rw [if_pos hkind]
    exact Resolves.after hbase (Evaluator.callValue_array _ id _ vs)

/-- A write resolves all of its indices, and only then changes the cell that they mean. -/
theorem eventually_indexWrite {indices : List (Tree × Nat)} {target i : Value} {rest : List Value}
    {value : Tree} (line listLine : Nat) (hbase : Yields host frame m base (.ok target))
    (h : List.Forall₂ (fun index i => Yields host frame m index.1 (.ok i)) indices (i :: rest))
    (hvalue : Yields host frame m value (.ok v)) :
    ∀ᶠ fuel in atTop,
      match m.store.innerCell target i rest with
      | .error f =>
        Resolves m (.error f)
          (evaluate host fuel frame (some (indexWrite line listLine base indices value)) m)
      | .ok cell =>
        evaluate host fuel frame (some (indexWrite line listLine base indices value)) m =
          (.value v, { m with store := m.store.setElement cell.1 cell.2 v }) := by
  rw [← Filter.map_add_atTop_eq_nat 1, Filter.eventually_map]
  refine (hbase.and (hvalue.and (eventually_indices h))).mono
    fun fuel ⟨hbase, hvalue, hindices⟩ => ?_
  -- the parts have all had their values, so the write is what is done in the store
  have hnode : Evaluator.node (evaluate host fuel) host fuel frame
      (indexWrite line listLine base indices value) m =
        Eval.attempt (fun s => s.innerCell target i rest)
          (fun cell s => (v, s.setElement cell.1 cell.2 v)) m := by
    change Eval.andThen ((evaluate host fuel).each frame (indices.map Prod.fst)) _ m = _
    rw [Eval.andThen, hindices]
    change Eval.andThen (evaluate host fuel frame (some value)) _ m = _
    rw [Eval.andThen, hvalue]
    change Eval.andThen (evaluate host fuel frame (some base)) _ m = _
    rw [Eval.andThen, hbase]
    rfl
  cases hcell : m.store.innerCell target i rest with
  | error f =>
    refine Resolves.locating _ ⟨.nowhere, ?_⟩
    exact hnode.trans (by rw [Eval.attempt, hcell])
  | ok cell =>
    change Eval.locating _ (Evaluator.node (evaluate host fuel) host fuel frame _) m = _
    rw [Eval.locating, hnode, Eval.attempt, hcell]
    rfl

/-- Reads one inside of the other, a call with the indices as arguments, and a write agree: both
ways to read come to one result, and the write fails exactly if they do, with the same fault and
without any change. Otherwise it changes one cell of one array, the one that the last read has
looked at. -/
theorem index_agrees {indices : List (Tree × Nat)} {is : List Value} {id : ArrayId} {value : Tree}
    (hbase : Yields host frame m base (.ok (.array id)))
    (hescape : base.kind = .identifier → base.text ≠ builtinEscape)
    (hsome : indices ≠ [])
    (hindices : List.Forall₂ (fun index i => Yields host frame m index.1 (.ok i)) indices is)
    (hvalue : Yields host frame m value (.ok v)) (line listLine : Nat) :
    ∃ result : Except Fault Value,
      Yields host frame m (nestedReads base indices) result ∧
      Yields host frame m (indexCall line listLine base indices) result ∧
      match result with
      | .error f => Yields host frame m (indexWrite line listLine base indices value) (.error f)
      | .ok old =>
        ∃ (a : ArrayId) (k : Nat) (s : Store),
          (Yields host frame m (nestedReads base indices.dropLast) (.ok (.array a)) ∧
            ∃ last, is.getLast? = some last ∧
              Store.position (m.store.elements a).size last = .ok k) ∧
          (m.store.elements a)[k]? = some old ∧
          (∀ᶠ fuel in atTop,
            evaluate host fuel frame (some (indexWrite line listLine base indices value)) m =
              (.value v, { m with store := s })) ∧
          (∀ b j, (s.elements b)[j]? =
            if b = a ∧ j = k then some v else (m.store.elements b)[j]?) ∧
          s = { m.store with arrays := s.arrays } := by
  obtain ⟨i, rest, rfl⟩ : ∃ i rest, is = i :: rest :=
    List.exists_cons_of_ne_nil fun h => hsome (List.forall₂_nil_right_iff.mp (h ▸ hindices))
  have hwrite := eventually_indexWrite line listLine hbase hindices hvalue
  have hreads : Yields host frame m (nestedReads base indices)
      (m.store.indexAll (.array id) (i :: rest)) := hbase.nestedReads hindices
  refine ⟨_, hreads, hbase.indexCall line listLine hescape hindices, ?_⟩
  -- reading and writing go through the same cells
  rw [Store.indexAll_eq_innerCell]
  cases hcell : m.store.innerCell (.array id) i rest with
  | error f =>
    rw [hcell] at hwrite
    exact hwrite
  | ok cell =>
    obtain ⟨a, k⟩ := cell
    rw [hcell] at hwrite
    have hlt := Store.innerCell_lt hcell
    obtain ⟨hread, hlast⟩ := Store.innerCell_eq_ok hcell
    refine ⟨a, k, m.store.setElement a k v, ⟨?_, hlast⟩, Store.getElem?_elements hlt, hwrite,
      Store.getElem?_setElement hlt, rfl⟩
    have hfront : List.Forall₂ (fun index i => Yields host frame m index.1 (.ok i))
        indices.dropLast (i :: rest).dropLast := by
      rw [List.dropLast_eq_take, List.dropLast_eq_take, hindices.length_eq]
      exact List.forall₂_take _ hindices
    rw [← hread]
    exact hbase.nestedReads hfront

theorem position_zero : Store.position 2 (.number (Number.literalValue "0")) = .ok 0 := by
  have hfirst : (Store.position 2 (.number (Number.literalValue "0"))).toOption = some 0 := by
    decide +kernel
  generalize Store.position 2 _ = x at hfirst
  cases x <;> cases hfirst
  rfl

/-- `a[0][0]`, `a(0, 0)` and `a[0][0] = null`, where `a` is an array that is its own first element.
The cell that is written is one that the write has gone through. -/
theorem index_agrees_knot :
    let m : Machine := { Machine.start [] with
      store := ⟨#[#[.array 0, .string "x"]], #[], #[], #[], #[⟨⟨[("a", .array 0)]⟩, none, false⟩]⟩ }
    let host : Host := {}
    let frame : Frame := ⟨⟨"", "f", "", "", true⟩, 0⟩
    let base := Tree.leaf .identifier "a" 1
    let indices := [(Tree.leaf .number "0" 1, 1), (Tree.leaf .number "0" 1, 1)]
    Yields host frame m (nestedReads base indices) (.ok (.array 0)) ∧
      Yields host frame m (indexCall 1 1 base indices) (.ok (.array 0)) ∧
      ∃ s : Store, (∀ᶠ fuel in atTop, evaluate host fuel frame
          (some (indexWrite 1 1 base indices (.leaf .null "" 1))) m =
            (.value .null, { m with store := s })) ∧
        ∀ b j, (s.elements b)[j]? =
          if b = 0 ∧ j = 0 then some .null else (m.store.elements b)[j]? := by
  intro m host frame base indices
  have hbase : Yields host frame m base (.ok (.array 0)) := .of_node (.of_forall fun _ => rfl)
  obtain ⟨zero, hzero, hposition⟩ : ∃ zero,
      Yields host frame m (.leaf .number "0" 1) (.ok zero) ∧ Store.position 2 zero = .ok 0 :=
    ⟨_, .of_node (.of_forall fun _ => rfl), position_zero⟩
  have hvalue : Yields host frame m (.leaf .null "" 1) (.ok .null) :=
    .of_node (.of_forall fun _ => rfl)
  have hindices : List.Forall₂ (fun index i => Yields host frame m index.1 (.ok i)) indices
      [zero, zero] := .cons hzero (.cons hzero .nil)
  have hfirst : m.store.index (.array 0) zero = .ok (.array 0) := by
    change ((Store.position 2 zero).map _).map _ = _
    rw [hposition]
    rfl
  have hinner : Yields host frame m (nestedReads base indices.dropLast) (.ok (.array 0)) := by
    have h := hbase.indexNode 1 hzero
    change Yields host frame m _ (m.store.index (.array 0) zero) at h
    rwa [hfirst] at h
  have hread : Yields host frame m (nestedReads base indices) (.ok (.array 0)) := by
    have h := hinner.indexNode 1 hzero
    change Yields host frame m _ (m.store.index (.array 0) zero) at h
    rwa [hfirst] at h
  obtain ⟨result, hresult, hcall, hwrite⟩ :=
    index_agrees hbase (fun _ => by decide) (List.cons_ne_nil _ _) hindices hvalue 1 1
  obtain rfl := hresult.unique hread
  obtain ⟨a, k, s, ⟨hfront, last, hlast, hk⟩, -, hwrite, hcells, -⟩ := hwrite
  -- the cell is the first one of the only array
  obtain rfl : a = 0 := Value.array.inj (Except.ok.inj (hfront.unique hinner))
  obtain rfl : zero = last := Option.some_inj.mp hlast
  obtain rfl : k = 0 := Except.ok.inj (hk.symm.trans hposition)
  exact ⟨hread, hcall, s, hwrite, hcells⟩

end ScriptKit
