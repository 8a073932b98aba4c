import ScriptKit.Proofs.Evaluation.Runs
import ScriptKit.Proofs.Program.Shapes

namespace ScriptKit

namespace Tree

/-- A node in the shape of a program that has a value, is a statement or a block. -/
structure Evaluable (t : Tree) : Prop where
  shaped : t.shaped = true
  kind : t.isValue = true ∨ t.kind.isStatement = true ∨ t.kind = .block

variable {t u : Tree}

theorem shaped_of_mem : ∀ {ts : List Tree}, shapedAll ts = true → u ∈ ts → u.shaped = true
  | t :: ts, h, hu => by
    rw [shapedAll, Bool.and_eq_true] at h
    rcases List.mem_cons.mp hu with rfl | hu
    · exact h.1
    · exact shaped_of_mem h.2 hu

theorem fits_of_children {k : Kind} {x : String} {e : Bool} {l : Nat} {ts : List Tree}
    (h : (node k x e l ts).shaped = true) :
    (node k x e l ts).fits = true ∧ ∀ u ∈ ts, u.shaped = true := by
  rw [shaped, Bool.and_eq_true] at h
  exact ⟨h.1, fun u hu => shaped_of_mem h.2 hu⟩

/-- The statements of a block and the values of a list can be evaluated. -/
theorem evaluable_of_mem (h : t.shaped = true) (hk : t.kind = .block ∨ t.kind = .expressionList) :
    ∀ u ∈ t.children, u.Evaluable := by
  obtain ⟨kind, text, evaluated, line, children⟩ := t
  obtain ⟨hfits, hchildren⟩ := fits_of_children h
  intro u hu
  rcases hk with hk | hk
  · obtain rfl : kind = .block := hk
    exact ⟨hchildren u hu, Or.inr (Or.inl (List.all_eq_true.mp hfits u hu))⟩
  · obtain rfl : kind = .expressionList := hk
    exact ⟨hchildren u hu, Or.inl (List.all_eq_true.mp hfits u hu)⟩

theorem evaluable_of_body (h : t.shaped = true) (hk : t.kind = .function ∨ t.kind = .classLiteral) :
    ∀ u ∈ Evaluator.body t, u.Evaluable := by
  have hbody : ∃ b ∈ t.children, b.kind = .block ∧ Evaluator.body t = b.children := by
    obtain ⟨kind, text, evaluated, line, children⟩ := t
    obtain ⟨hfits, -⟩ := fits_of_children h
    unfold fits at hfits
    dsimp only at hfits
    split at hfits <;> try { rcases hk with hk | hk <;> cases hk }
    case h_11 parameters b =>
      exact ⟨b, by simp [Tree.children], hasKind_iff.mp (Bool.and_eq_true_iff.mp hfits).2, rfl⟩
    case h_12 b => exact ⟨b, by simp [Tree.children], hasKind_iff.mp hfits, rfl⟩
    case h_30 => cases hfits
  obtain ⟨b, hb, hkind, hbody⟩ := hbody
  obtain ⟨kind, text, evaluated, line, children⟩ := t
  rw [hbody]
  exact evaluable_of_mem ((fits_of_children h).2 b hb) (Or.inl hkind)

end Tree

/-- A fault that is not about the shape of a program, or that is about an expression. -/
def Fault.Regular (f : Fault) : Prop :=
  (∀ k, f ≠ .cannotAssign k) ∧ ∀ k, f = .cannotEvaluate k → k = .expression

namespace Tree

variable {t : Tree}

/-- What is found in the place of a node that is evaluated. -/
def Dispatched (node : Option Tree) : Prop := ∃ t, node = some t ∧ t.Evaluable

theorem dispatched_of_value {u : Tree} (h : u.shaped = true) (hv : u.isValue = true) :
    Dispatched (some u) :=
  ⟨u, rfl, h, Or.inl hv⟩

theorem dispatched_object (h : t.shaped = true) (hk : t.kind = .member) :
    Dispatched (t.child? 0) := by
  obtain ⟨kind, text, evaluated, line, children⟩ := t
  obtain ⟨hfits, hchildren⟩ := fits_of_children h
  obtain rfl : kind = .member := hk
  rcases children with _ | ⟨object, _ | ⟨name, _ | ⟨d, rest⟩⟩⟩
  · cases hfits
  · cases hfits
  · exact dispatched_of_value (hchildren object (by simp)) (Bool.and_eq_true_iff.mp hfits).1
  · cases hfits

theorem dispatched_of_mem {b : Tree} (h : b.shaped = true)
    (hk : b.kind = .block ∨ b.kind = .expressionList) :
    ∀ u ∈ b.children, Dispatched (some u) :=
  fun u hu => ⟨u, rfl, evaluable_of_mem h hk u hu⟩

theorem Evaluable.parts (h : t.Evaluable) : Evaluator.PartsIn Dispatched Fault.Regular t := by
  obtain ⟨kind, text, evaluated, line, children⟩ := t
  obtain ⟨hfits, hchildren⟩ := fits_of_children h.shaped
  have hkind := h.kind
  unfold fits at hfits
  dsimp only at hfits
  -- one case for each shape that fits, in their order there
  split at hfits <;> try simp only [Bool.and_eq_true, Bool.or_eq_true, hasKind_iff] at hfits
  -- the kinds that are not evaluated
  case h_1 | h_2 | h_21 | h_22 | h_28 => rcases hkind with hkind | hkind | hkind <;> cases hkind
  case h_3 => exact dispatched_of_mem h.shaped (Or.inl rfl)
  case h_4 l r | h_5 l r | h_10 l r =>
    exact ⟨dispatched_of_value (hchildren l (by simp)) hfits.1,
      dispatched_of_value (hchildren r (by simp)) hfits.2⟩
  case h_6 target value =>
    refine ⟨dispatched_of_value (hchildren value (by simp)) hfits.2, ?_⟩
    show Evaluator.TargetIn Dispatched Fault.Regular target
    unfold Evaluator.TargetIn
    rcases hfits.1 with hk | hk
    · rw [hk]
      trivial
    · rw [hk]
      exact dispatched_object (hchildren target (by simp)) hk
  case h_7 base list value =>
    obtain ⟨⟨⟨⟨hbase, -⟩, hlist⟩, -⟩, hvalue⟩ := hfits
    exact ⟨dispatched_of_mem (hchildren list (by simp)) (Or.inr hlist),
      dispatched_of_value (hchildren value (by simp)) hvalue,
      dispatched_of_value (hchildren base (by simp)) hbase⟩
  case h_8 callee list =>
    exact ⟨dispatched_of_mem (hchildren list (by simp)) (Or.inr hfits.2),
      dispatched_of_value (hchildren callee (by simp)) hfits.1⟩
  case h_9 object name => exact dispatched_of_value (hchildren object (by simp)) hfits.1
  case h_11 | h_12 =>
    exact fun u hu => ⟨u, rfl, evaluable_of_body h.shaped (by simp [Tree.kind]) u hu⟩
  case h_13 literal =>
    exact fun u hu => ⟨u, rfl, evaluable_of_body (hchildren literal (by simp)) (Or.inl hfits) u hu⟩
  case h_14 literal =>
    exact fun u hu => ⟨u, rfl, evaluable_of_body (hchildren literal (by simp)) (Or.inr hfits) u hu⟩
  case h_15 => trivial
  case h_16 name value => exact dispatched_of_value (hchildren value (by simp)) hfits.2
  case h_17 test body =>
    exact ⟨dispatched_of_value (hchildren test (by simp)) hfits.1,
      dispatched_of_mem (hchildren body (by simp)) (Or.inl hfits.2), fun u hu => by cases hu⟩
  case h_18 test body =>
    exact ⟨dispatched_of_value (hchildren test (by simp)) hfits.1,
      dispatched_of_mem (hchildren body (by simp)) (Or.inl hfits.2)⟩
  case h_19 test body other =>
    obtain ⟨⟨htest, hbody⟩, hother⟩ := hfits
    refine ⟨dispatched_of_value (hchildren test (by simp)) htest,
      dispatched_of_mem (hchildren body (by simp)) (Or.inl hbody), ?_⟩
    rintro u hu -
    obtain rfl : other = u := Option.some_inj.mp hu
    refine ⟨other, rfl, hchildren other (by simp), ?_⟩
    rcases hother with hk | hk
    · exact Or.inr (Or.inr hk)
    · exact Or.inr (Or.inl (by rw [hk]; rfl))
  case h_20 list => exact dispatched_of_mem (hchildren list (by simp)) (Or.inr hfits)
  case h_23 | h_24 | h_25 | h_26 | h_27 => trivial
  case h_29 =>
    refine ⟨fun k hk => ?_, fun k hk => ?_⟩
    · cases hk
    · cases hk
      rfl
  case h_30 => cases hfits

end Tree

/-- The statements of a program that has been read can be evaluated. -/
theorem Program.dispatched_of_parse {file : SourceFile} {p : Program}
    (h : (Program.parse file).1 = .ok p) {b : Tree} (hb : p.tree.child? 0 = some b) :
    ∀ t ∈ b.children, Tree.Dispatched (some t) := by
  obtain ⟨hkind, hshaped⟩ := Program.shaped_of_parse h
  generalize p.tree = tree at hkind hshaped hb
  obtain ⟨kind, text, evaluated, line, children⟩ := tree
  obtain rfl : kind = .program := hkind
  obtain ⟨hfits, hchildren⟩ := Tree.fits_of_children hshaped
  rcases children with _ | ⟨body, _ | ⟨d, rest⟩⟩
  · cases hb
  · obtain rfl : body = b := Option.some_inj.mp hb
    exact Tree.dispatched_of_mem (hchildren body (by simp)) (Or.inl (Tree.hasKind_iff.mp hfits))
  · cases hfits

/-- A machine in which every name, every element of an array and every file has a value. -/
structure Machine.Present (m : Machine) : Prop where
  held : m.store.Holds (· ≠ .absent)
  recorded : ∀ e ∈ m.session.entries, e.2 ≠ .absent

/-- A value that is there, or a failure that is not the lack of a way to evaluate or to assign, but
for an expression that is not evaluated. -/
def Outcome.Regular (o : Outcome Value) : Prop := o.Meets (· ≠ .absent) Fault.Regular

/-- A node that is there is evaluated, of a kind that has a value, is a statement or a block. An
expression among them assigns to something that cannot be assigned to. -/
def Moment.Regular : Moment → Prop
  | .call _ node m => m.Present ∧ ∃ t, node = some t ∧
    (t.isValue = true ∨ t.kind.isStatement = true ∨ t.kind = .block) ∧
    (t.kind = .expression → t.IsStray)
  | .done _ _ outcome m => m.Present ∧ outcome.Regular

namespace Conduct

/-- What programs that have been read do. -/
def regular : Conduct where
  node := Tree.Dispatched
  value := (· ≠ .absent)
  fault := Fault.Regular
  value_of_ne _ h := h
  fault_of_ordinary _ h := ⟨fun k => (h k).1, fun k hk => absurd hk (h k).2⟩
  parts _ := fun ⟨_, ht, h⟩ => Option.some_inj.mp ht ▸ h.parts
  parsed _ _ h _ hb := Program.dispatched_of_parse h hb

theorem regular_of_orderly {moment : Moment} (h : regular.Orderly moment) : moment.Regular := by
  cases moment with
  | call frame node m =>
    obtain ⟨⟨t, rfl, ht⟩, hm⟩ := h
    refine ⟨⟨hm.store.values, hm.recorded⟩, t, rfl, ht.kind, fun hk => ?_⟩
    exact Tree.isStray_of_expression (Tree.fits_of_shaped ht.shaped t t.self_mem_subtrees) hk
  | done frame node outcome m => exact ⟨⟨h.2.store.values, h.2.recorded⟩, h.1⟩

theorem regular_start (input : Input) : regular.Sound (.start input) where
  store :=
    { values := Store.Holds.newScope ⟨nofun, nofun⟩ none
      functions := nofun
      classes := nofun }
  recorded := nofun

end Conduct

/-- Programs that have been read come to no moment that is not regular: a run that stops at any such
moment is the run itself. -/
theorem runs_regular {stop : Moment → Bool} (hstop : ∀ moment, moment.Regular → stop moment = false)
    {calls : List (List Program)}
    (hparsed : ∀ ps ∈ calls, ∀ p ∈ ps, ∃ file, (Program.parse file).1 = .ok p)
    (host : Host) (fuel : Nat) (input : Input) :
    let run := (evaluate host fuel).calls calls (.start input)
    (evaluateUpTo stop host fuel).calls calls (.start input) = run ∧ run.2.Present ∧
      ∀ outcomes, run.1 = .value outcomes → ∀ o ∈ outcomes, o.Regular := by
  have hfollows :
      Conduct.regular.Follows False (evaluateUpTo stop host fuel) (evaluate host fuel) := by
    rw [← evaluateUpTo_never]
    exact Conduct.follows_evaluateUpTo
      (fun moment hmoment => Or.inl (hstop moment (Conduct.regular_of_orderly hmoment))) host fuel
  have hadmits : ∀ ps ∈ calls, ∀ p ∈ ps, Conduct.regular.Admits p := by
    intro ps hps p hp b hb
    obtain ⟨file, hfile⟩ := hparsed ps hps p hp
    exact Program.dispatched_of_parse hfile hb
  obtain ⟨hsound, -, hmeets, hsame⟩ :=
    hfollows.calls hadmits (.start input) (Conduct.regular_start input)
  refine ⟨hsame.resolve_right fun h => h.1, ⟨hsound.store.values, hsound.recorded⟩, ?_⟩
  intro outcomes houtcomes
  rw [houtcomes] at hmeets
  exact hmeets

/-- A node that is not there, or a value. -/
def nothingThere : Moment → Bool
  | .call _ none _ | .done _ _ (.value .absent) _ => true
  | _ => false

/-- An assignment to a number is a program. -/
theorem runs_regular_stray :
    ∃ p, (Program.parse ⟨"1=b;", "", "", "", true⟩).1 = .ok p ∧
      (evaluateUpTo nothingThere {} 3).calls [[p]] (.start []) =
        (evaluate {} 3).calls [[p]] (.start []) := by
  have hscan : (Token.scan "1=b;").failure = none := by decide
  have hstop : ∀ moment : Moment, moment.Regular → nothingThere moment = false := by
    intro moment h
    unfold nothingThere
    split
    · obtain ⟨-, t, ht, -⟩ := h
      cases ht
    · exact absurd rfl h.2
    · rfl
  refine ⟨_, Program.parse_of_scanned hscan, (runs_regular hstop ?_ _ 3 []).1⟩
  intro ps hps p hp
  obtain rfl := List.mem_singleton.mp hps
  obtain rfl := List.mem_singleton.mp hp
  exact ⟨_, Program.parse_of_scanned hscan⟩

end ScriptKit
