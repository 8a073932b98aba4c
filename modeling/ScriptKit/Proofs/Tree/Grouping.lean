import ScriptKit.Proofs.Tree.Translation

namespace ScriptKit.Tree

/-- The kinds of which grouping makes nodes of other kinds. -/
def Kind.isUngrouped (k : Kind) : Bool :=
  k = .expression || k = .statement || k = .array

/-- What the grouping step does with a tree: it is kept, removed, replaced by its only part, or
reduced to its list; or some of its parts are put below a new node, or an assignment to a chain of
index reads becomes a write. -/
inductive Grouped (t : Tree) : List Tree × Bool → Prop
  | keep : Grouped t ([t], false)
  | remove (hkind : t.kind = .statement) (hchildren : t.children = []) : Grouped t ([], true)
  | collapse {u : Tree} (hkind : t.kind = .statement) (hchildren : t.children = [u])
      (hu : u.isOperand = true) : Grouped t ([u], true)
  | unwrap {text : String} {evaluated : Bool} {l list r : Tree} (hkind : t.kind = .array)
      (hchildren : t.children = [l, list, r]) :
      Grouped t ([.node .array text evaluated t.line [list]], true)
  | regroup {kind : Kind} {text : String} {us : List Tree}
      (hkind : t.kind = .expression ∨ t.kind = .statement) (hus : us.Sublist t.children)
      (hnew : kind.isUngrouped = false)
      (hindex : kind = .index → ∃ u v, us = [u, v] ∧ u.isOperand = true ∧ v.isOperand = true) :
      Grouped t (Tree.regroup t.line kind text us)
  | write {target sign value : Tree} (hkind : t.kind = .expression)
      (hchildren : t.children = [target, sign, value]) :
      Grouped t (Tree.regroup t.line .indexWrite ""
        [(target.indexChain []).1, .node .expressionList "" false target.line
          (target.indexChain []).2, value])

variable {t : Tree}

theorem Grouped.ite {c : Prop} [Decidable c] {r s : List Tree × Bool} (hr : c → Grouped t r)
    (hs : Grouped t s) : Grouped t (if c then r else s) := by
  split
  · exact hr ‹_›
  · exact hs

theorem grouped_groupAssignment {target sign value : Tree} (hkind : t.kind = .expression)
    (hchildren : t.children = [target, sign, value]) :
    Grouped t (groupAssignment t target value) := by
  have hpair : [target, value].Sublist t.children := by simp [hchildren]
  unfold groupAssignment
  split
  · exact .regroup (Or.inl hkind) hpair rfl fun h => absurd h (by decide)
  · exact .regroup (Or.inl hkind) hpair rfl fun h => absurd h (by decide)
  · exact .write hkind hchildren
  · exact .keep

theorem grouped_groupExpression (hkind : t.kind = .expression) : Grouped t (groupExpression t) := by
  have hregroup : ∀ {k text us}, us.Sublist t.children → k.isUngrouped = false → k ≠ .index →
      Grouped t (Tree.regroup t.line k text us) :=
    fun hus hnew hindex => .regroup (Or.inl hkind) hus hnew fun h => absurd h hindex
  unfold groupExpression
  split
  · rename_i l mid r hchildren
    have hpair : [l, r].Sublist t.children := by simp [hchildren]
    exact .ite (fun _ => hregroup hpair rfl (by decide)) (.ite (fun _ => hregroup hpair rfl (by decide))
      (.ite (fun _ => grouped_groupAssignment hkind hchildren)
        (.ite (fun _ => hregroup hpair rfl (by decide)) .keep)))
  · rename_i target l inner r hchildren
    have hpair : [target, inner].Sublist t.children := by simp [hchildren]
    refine .ite (fun _ => hregroup hpair rfl (by decide)) (.ite (fun hc => ?_) .keep)
    -- both parts of an index read are operands
    simp only [Bool.and_eq_true] at hc
    exact .regroup (Or.inl hkind) hpair rfl fun _ => ⟨target, inner, rfl, hc.1.1.1, hc.2⟩
  · rename_i word name l body r hchildren
    exact .ite (fun _ => hregroup (by simp [hchildren]) rfl (by decide)) .keep
  · rename_i word lp params rp lc body rc hchildren
    exact .ite (fun _ => hregroup (by simp [hchildren]) rfl (by decide)) .keep
  · rename_i word name lp params rp lc body rc hchildren
    have hparts : [params, body].Sublist t.children := by
      rw [hchildren]
      exact .cons _ (.cons _ (.cons _ (.cons_cons _ (.cons _ (.cons _ (.cons_cons _
        (.cons _ .slnil)))))))
    exact .ite (fun _ => hregroup hparts rfl (by decide)) .keep
  · exact .keep

theorem grouped_groupStatement (hkind : t.kind = .statement) : Grouped t (groupStatement t) := by
  have hregroup : ∀ {k text us}, us.Sublist t.children → k.isUngrouped = false → k ≠ .index →
      Grouped t (Tree.regroup t.line k text us) :=
    fun hus hnew hindex => .regroup (Or.inr hkind) hus hnew fun h => absurd h hindex
  unfold groupStatement
  split
  · rename_i hchildren
    exact .remove hkind hchildren
  · rename_i word name eq value hchildren
    exact .ite (fun _ => hregroup (by simp [hchildren]) rfl (by decide)) .keep
  · rename_i word name hchildren
    exact .ite (fun _ => hregroup (by simp [hchildren]) rfl (by decide)) .keep
  · rename_i word lp test rp lc body rc rest hchildren
    have hpair : [test, body].Sublist t.children := by simp [hchildren]
    have hthree : ∀ {other}, [other].Sublist rest → [test, body, other].Sublist t.children := by
      intro other hother
      rw [hchildren]
      exact .cons _ (.cons _ (.cons_cons _ (.cons _ (.cons _ (.cons_cons _ (.cons _ hother))))))
    -- a conditional with something else behind its body than an else stays
    refine .ite (fun _ => .ite (fun _ => .keep) ?_)
      (.ite (fun _ => hregroup hpair rfl (by decide)) .keep)
    split
    · exact hregroup hpair rfl (by decide)
    · exact .ite (fun _ => hregroup (hthree (by simp)) rfl (by decide)) .keep
    · exact .ite (fun _ => hregroup (hthree (by simp)) rfl (by decide)) .keep
    · exact .keep
  · rename_i only hchildren
    have hone : [only].Sublist t.children := by simp [hchildren]
    exact .ite (fun _ => hregroup hone rfl (by decide)) (.ite (fun _ => hregroup hone rfl (by decide))
      (.ite (fun hu => .collapse hkind hchildren hu) .keep))
  · exact .keep

theorem grouped_groupStep (t : Tree) : Grouped t (groupStep t) := by
  unfold groupStep
  split
  · exact grouped_groupExpression ‹_›
  · exact grouped_groupStatement ‹_›
  · split
    · rename_i kind text evaluated line l list r hkind
      obtain rfl : kind = .array := hkind
      exact .ite (fun _ => .unwrap rfl rfl) .keep
    · exact .keep
  · exact .keep

section Firm

mutual

/-- Whether grouping leaves nothing of a tree: a statement of whose parts nothing is left. -/
def vanishes : Tree → Bool
  | .node kind _ _ _ children => decide (kind = .statement) && vanishAll children

def vanishAll : List Tree → Bool
  | [] => true
  | t :: ts => vanishes t && vanishAll ts

end

mutual

/-- Every index read has two parts, and neither of them is gone. -/
def Firm (gone : Tree → Bool) : Tree → Prop
  | .node kind _ _ _ children =>
    (kind = .index → ∃ l r, children = [l, r] ∧ gone l = false ∧ gone r = false) ∧
      FirmAll gone children

def FirmAll (gone : Tree → Bool) : List Tree → Prop
  | [] => True
  | t :: ts => Firm gone t ∧ FirmAll gone ts

end

variable {gone : Tree → Bool} {ts us : List Tree} {kind : Kind} {text : String} {evaluated : Bool}
  {line : Nat}

theorem firmAll_iff : FirmAll gone ts ↔ ∀ t ∈ ts, t.Firm gone := by
  induction ts with
  | nil => simp [FirmAll]
  | cons t ts ih => simp [FirmAll, ih]

theorem FirmAll.append (h : FirmAll gone ts) (h' : FirmAll gone us) : FirmAll gone (ts ++ us) := by
  rw [firmAll_iff] at *
  intro t ht
  exact (List.mem_append.mp ht).elim (h t) (h' t)

theorem Firm.children (h : t.Firm gone) : FirmAll gone t.children := by
  cases t
  exact h.2

theorem firm_of_kind (h : kind ≠ .index) (hts : FirmAll gone ts) :
    Firm gone (.node kind text evaluated line ts) :=
  ⟨fun he => absurd he h, hts⟩

theorem vanishes_of_kind (h : t.kind ≠ .statement) : t.vanishes = false := by
  cases t with
  | node kind text evaluated line children =>
    have hkind : kind ≠ .statement := h
    rw [vanishes, decide_eq_false hkind, Bool.false_and]

theorem vanishes_of_isOperand (h : t.isOperand = true) : t.vanishes = false := by
  refine vanishes_of_kind fun hkind => ?_
  rw [isOperand, hkind] at h
  cases h

/-- The parts of a chain of index reads are firm if the chain is. -/
theorem firm_indexChain (t : Tree) (indices : List Tree) (ht : t.Firm gone)
    (hindices : FirmAll gone indices) :
    (t.indexChain indices).1.Firm gone ∧ FirmAll gone (t.indexChain indices).2 := by
  fun_induction indexChain t indices with
  | case1 text evaluated line base index rest indices ih =>
    obtain ⟨hbase, hindex, -⟩ := ht.children
    exact ih hbase ⟨hindex, hindices⟩
  | case2 => exact ⟨ht, hindices⟩

theorem Grouped.firm {result : List Tree × Bool} (h : Grouped t result)
    (ht : t.Firm vanishes) : FirmAll vanishes result.1 := by
  have hall := firmAll_iff.mp ht.children
  cases h with
  | keep => exact ⟨ht, trivial⟩
  | remove => trivial
  | collapse _ hchildren _ => exact ⟨hall _ (by simp [hchildren]), trivial⟩
  | unwrap _ hchildren =>
    exact ⟨firm_of_kind (by decide) ⟨hall _ (by simp [hchildren]), trivial⟩, trivial⟩
  | regroup _ hus _ hindex =>
    refine ⟨⟨fun hkind => ?_, firmAll_iff.mpr fun u hu => hall u (hus.subset hu)⟩, trivial⟩
    obtain ⟨u, v, rfl, hu, hv⟩ := hindex hkind
    exact ⟨u, v, rfl, vanishes_of_isOperand hu, vanishes_of_isOperand hv⟩
  | @write target sign value _ hchildren =>
    obtain ⟨hbase, hindices⟩ :=
      firm_indexChain target [] (hall target (by simp [hchildren])) trivial
    exact ⟨firm_of_kind (by decide) ⟨hbase, firm_of_kind (by decide) hindices,
      hall value (by simp [hchildren]), trivial⟩, trivial⟩

theorem Grouped.stays {result : List Tree × Bool} (h : Grouped t result)
    (ht : t.vanishes = false) : ∃ u, result.1 = [u] ∧ u.vanishes = false := by
  cases h with
  | keep => exact ⟨t, rfl, ht⟩
  | remove hkind hchildren =>
    cases t with
    | node kind text evaluated line children =>
      obtain rfl : kind = .statement := hkind
      obtain rfl : children = [] := hchildren
      cases ht
  | collapse _ _ hu => exact ⟨_, rfl, vanishes_of_isOperand hu⟩
  | unwrap => exact ⟨_, rfl, vanishes_of_kind (show Kind.array ≠ .statement by decide)⟩
  | @regroup kind text us _ _ hnew _ =>
    have hkind : kind ≠ .statement := by
      rintro rfl
      cases hnew
    exact ⟨_, rfl, vanishes_of_kind hkind⟩
  | write => exact ⟨_, rfl, vanishes_of_kind (show Kind.indexWrite ≠ .statement by decide)⟩

mutual

/-- Of a tree that does not vanish one is left after a sweep, and does not vanish either. -/
theorem sweep_stays : ∀ t : Tree, t.vanishes = false →
    ∃ u, (sweep groupStep t).1 = [u] ∧ u.vanishes = false
  | .node kind text evaluated line children, h => by
    rw [vanishes, Bool.and_eq_false_iff] at h
    have hswept : vanishes (.node kind text evaluated line (sweepAll groupStep children).1) =
        false := by
      rw [vanishes, Bool.and_eq_false_iff]
      exact h.imp_right (sweepAll_stays children)
    rw [sweep]
    exact (grouped_groupStep _).stays hswept

theorem sweepAll_stays : ∀ ts : List Tree, vanishAll ts = false →
    vanishAll (sweepAll groupStep ts).1 = false
  | t :: ts, h => by
    have happend : ∀ us vs, vanishAll (us ++ vs) = (vanishAll us && vanishAll vs) := by
      intro us vs
      induction us with
      | nil => rfl
      | cons u us ih => rw [List.cons_append, vanishAll, vanishAll, ih, Bool.and_assoc]
    rw [vanishAll, Bool.and_eq_false_iff] at h
    rw [sweepAll]
    dsimp only
    rw [happend, Bool.and_eq_false_iff]
    rcases h with h | h
    · obtain ⟨u, hu, hstays⟩ := sweep_stays t h
      rw [hu, vanishAll, hstays]
      exact Or.inl rfl
    · exact Or.inr (sweepAll_stays ts h)

end

/-- A firm tree is so when its children have been swept. -/
theorem Firm.swept {children : List Tree}
    (h : Firm vanishes (.node kind text evaluated line children))
    (hall : FirmAll vanishes (sweepAll groupStep children).1) :
    Firm vanishes (.node kind text evaluated line (sweepAll groupStep children).1) := by
  refine ⟨fun hkind => ?_, hall⟩
  obtain ⟨l, r, rfl, hl, hr⟩ := h.1 hkind
  obtain ⟨l', hsweepl, hl'⟩ := sweep_stays l hl
  obtain ⟨r', hsweepr, hr'⟩ := sweep_stays r hr
  refine ⟨l', r', ?_, hl', hr'⟩
  rw [sweepAll, sweepAll, sweepAll]
  dsimp only
  rw [hsweepl, hsweepr]
  rfl

mutual

/-- Sweeps keep trees firm. -/
theorem Firm.sweep : ∀ {t : Tree}, t.Firm vanishes → FirmAll vanishes (Tree.sweep groupStep t).1
  | .node kind text evaluated line children, h => by
    rw [Tree.sweep]
    exact (grouped_groupStep _).firm (h.swept (FirmAll.sweepAll h.2))

theorem FirmAll.sweepAll : ∀ {ts : List Tree}, FirmAll vanishes ts →
    FirmAll vanishes (Tree.sweepAll groupStep ts).1
  | [], _ => trivial
  | _ :: _, h => by
    rw [Tree.sweepAll]
    exact h.1.sweep.append (FirmAll.sweepAll h.2)

end

theorem Firm.sweepBelow (h : t.Firm vanishes) :
    (Tree.sweepBelow groupStep t).1.Firm vanishes := by
  cases t with
  | node kind text evaluated line children => exact h.swept (FirmAll.sweepAll h.2)

end Firm

section Clear

mutual

/-- A sweep meets no tree at which a step fails. -/
def Clear (step : Step) (fails : Tree → Bool) : Tree → Prop
  | .node kind text evaluated line children => ClearAll step fails children ∧
      fails (.node kind text evaluated line (sweepAll step children).1) = false

def ClearAll (step : Step) (fails : Tree → Bool) : List Tree → Prop
  | [] => True
  | t :: ts => Clear step fails t ∧ ClearAll step fails ts

end

/-- Whether a chain of index reads comes to one that lacks its base or its index. -/
def chainFails : Tree → Bool
  | .node .index _ _ _ (base :: _ :: _) => chainFails base
  | t => t.hasKind .index

/-- Whether a tree is an assignment that cannot be grouped, since an index of its target is
missing. -/
def groupFails (t : Tree) : Bool :=
  t.hasKind .expression &&
    match t.children with
    | [target, sign, value] => sign.hasKind .assignment && value.isOperand && target.chainFails
    | _ => false

theorem Firm.chainFails_eq (h : t.Firm gone) : t.chainFails = false := by
  fun_induction chainFails t with
  | case1 text evaluated line base index rest ih =>
    obtain ⟨hbase, -⟩ := h.children
    exact ih hbase
  | case2 t hshort =>
    rw [hasKind, decide_eq_false]
    intro hkind
    cases t with
    | node kind text evaluated line children =>
      obtain rfl : kind = .index := hkind
      obtain ⟨l, r, rfl, -⟩ := h.1 rfl
      exact hshort _ _ _ _ _ _ rfl

theorem Firm.groupFails_eq (h : t.Firm gone) : t.groupFails = false := by
  have hall := firmAll_iff.mp h.children
  rw [groupFails]
  split
  · rename_i target sign value hchildren
    have htarget : target.chainFails = false :=
      (hall target (by simp [hchildren])).chainFails_eq
    rw [htarget, Bool.and_false, Bool.and_false]
  · exact Bool.and_false _

mutual

/-- A sweep over a firm tree meets no assignment that cannot be grouped. -/
theorem Firm.clear : ∀ {t : Tree}, t.Firm vanishes → Clear groupStep groupFails t
  | .node _ _ _ _ _, h => ⟨FirmAll.clear h.2, (h.swept (FirmAll.sweepAll h.2)).groupFails_eq⟩

theorem FirmAll.clear : ∀ {ts : List Tree}, FirmAll vanishes ts →
    ClearAll groupStep groupFails ts
  | [], _ => trivial
  | _ :: _, h => ⟨h.1.clear, FirmAll.clear h.2⟩

end

/-- No sweep below the first node meets a tree at which a step fails, however often sweeps are
repeated. -/
def ClearSweeps (step : Step) (fails : Tree → Bool) (t : Tree) : Prop :=
  ∀ n, ClearAll step fails ((fun u => (sweepBelow step u).1)^[n] t).children

/-- Grouping never comes to an assignment whose target lacks a part. -/
def Groupable (t : Tree) : Prop :=
  ClearSweeps groupStep groupFails t

theorem Firm.groupable (h : t.Firm vanishes) : t.Groupable := by
  have hfirm : ∀ n, ((fun u => (Tree.sweepBelow groupStep u).1)^[n] t).Firm vanishes := by
    intro n
    induction n with
    | zero => exact h
    | succ n ih =>
      rw [Function.iterate_succ_apply']
      exact ih.sweepBelow
  exact fun n => (hfirm n).children.clear

mutual

/-- A step that never fails is never in the way. -/
theorem clear_of_never {step : Step} : ∀ t, Clear step (fun _ => false) t
  | .node _ _ _ _ children => ⟨clearAll_of_never children, rfl⟩

theorem clearAll_of_never {step : Step} : ∀ ts, ClearAll step (fun _ => false) ts
  | [] => trivial
  | t :: ts => ⟨clear_of_never t, clearAll_of_never ts⟩

end

theorem clearSweeps_of_never {step : Step} (t : Tree) : ClearSweeps step (fun _ => false) t :=
  fun _ => clearAll_of_never _

end Clear

end ScriptKit.Tree
