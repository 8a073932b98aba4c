import ScriptKit.Proofs.Evaluation.Calls

namespace ScriptKit.Conduct

variable {D : Conduct} {cut : Prop} {ev ev' : Evaluator Eval}

theorem Governs.bound (scope : ScopeId) (name : String) :
    D.Governs cut (fun found => ∀ v, found = some v → D.value v)
      (Eval.query fun s => s.get? scope name) (Eval.query fun s => s.get? scope name) :=
  query fun _ hs _ h => hs.values.of_get? h

namespace Follows

theorem member (hev : D.Follows cut ev ev') (frame : Frame) {t : Tree} (h : D.node (t.child? 0)) :
    D.Governs cut (fun _ => True) (ev.member frame t) (ev'.member frame t) := by
  unfold Evaluator.member
  refine (hev frame _ h).bind fun v _ => ?_
  split
  · refine (Governs.anyQuery _).bind fun scope _ => ?_
    split
    · exact .pure trivial
    · exact .refuse nofun nofun
  · exact .refuse nofun nofun

theorem node (hev : D.Follows cut ev ev') (host : Host) (rounds : Nat) (frame : Frame) {t : Tree}
    (h : D.node (some t)) :
    D.Governs cut D.value (ev.node host rounds frame t) (ev'.node host rounds frame t) := by
  have hparts := D.parts t h
  unfold Evaluator.PartsIn at hparts
  unfold Evaluator.node
  dsimp only
  cases hk : t.kind <;> simp only [hk] at hparts ⊢
  case initialisation =>
    exact (hev frame _ hparts).bind fun v hv => .declare frame.scope _ hv
  case declaration => exact .declare frame.scope _ D.value_null
  -- the value goes to a name or to a member, and nothing else can be assigned to
  case assign =>
    refine (hev frame _ hparts.1).bind fun v hv => ?_
    have htarget := hparts.2
    unfold Evaluator.TargetIn at htarget
    cases hkind : (Evaluator.childOr t 0).kind <;> simp only [hkind] at htarget ⊢
    case identifier => exact .bindIn hv fun s => s.checked_writtenIn frame.scope _
    case member =>
      refine (hev.member frame htarget).bind fun place _ => ?_
      exact .bindIn hv fun s => s.checked_setIn place.1 place.2
    all_goals exact .raise htarget
  case indexWrite =>
    refine (hev.each frame hparts.1).bind fun indices _ => ?_
    refine (hev frame _ hparts.2.1).bind fun v hv => (hev frame _ hparts.2.2).bind fun base _ => ?_
    split
    · exact .pure hv
    · exact .attempt fun s hs => (s.checked_innerCell _ _ _).imp fun cell _ =>
        ⟨hs.setElement hv cell.1 cell.2, .of_eq rfl rfl, hv⟩
  case binary =>
    refine (hev frame _ hparts.1).bind fun l _ => (hev frame _ hparts.2).bind fun r _ => ?_
    exact .operate t.text l r
  case comparison =>
    refine (hev frame _ hparts.1).bind fun l _ => (hev frame _ hparts.2).bind fun r _ => ?_
    exact .checked fun s _ => (s.checked_compare t.text l r).imp D.value_of_ne
  case functionDefinition =>
    split
    · exact .pure D.value_null
    · refine (Governs.newFunction (f := Evaluator.function frame _) hparts).bind fun f hf => ?_
      exact .declare frame.scope _ hf
  case classDefinition =>
    refine (Governs.newClass (c := Evaluator.classOf frame _) hparts).bind fun c hc => ?_
    exact .declare frame.scope _ hc
  case call =>
    refine (hev.each frame hparts.1).bind fun vs hvs => ?_
    exact hev.callNode host frame hparts.2 hvs
  case member =>
    refine (hev.member frame hparts).bind fun place _ => ?_
    refine (Governs.bound place.1 place.2).bind fun found hfound => .pure ?_
    cases found with
    | none => exact D.value_null
    | some v => exact hfound v rfl
  case index =>
    refine (hev frame _ hparts.1).bind fun target _ => (hev frame _ hparts.2).bind fun i _ => ?_
    exact .checked fun s hs => Store.checked_index hs.values D.value_null target i
  case whileStatement => exact hev.loop hparts.1 hparts.2 rounds D.value_null
  case ifStatement =>
    obtain ⟨htest, hbody, hother⟩ := hparts
    refine (hev frame _ htest).bind fun v _ => ?_
    split
    · exact hev.innerBlock frame hbody
    -- the other branch is evaluated only if it is a block or a conditional
    split
    · rename_i other hthere
      split
      · rename_i hkinds
        exact hev frame _ (hother other hthere (by simpa using hkinds))
      · exact .pure D.value_null
    · exact .pure D.value_null
  case block => exact hev.innerBlock frame hparts
  case number => exact .pure (D.value_number _)
  case string => exact .pure (D.value_string _)
  case boolean => exact .pure (D.value_boolean _)
  case null => exact .pure D.value_null
  case identifier => exact .checked fun s hs => Store.checked_read hs.values frame.scope t.text
  case array => exact (hev.each frame hparts).bind fun vs hvs => .newArray hvs
  case function => exact .newFunction hparts
  case classLiteral => exact .newClass hparts
  all_goals exact .raise hparts

theorem visit (hev : D.Follows cut ev ev') (host : Host) (rounds : Nat) :
    D.Follows cut (ev.visit host rounds) (ev'.visit host rounds) := by
  intro frame node h
  cases node with
  | none => exact .pure D.value_null
  | some t => exact (hev.node host rounds frame h).locating _

end Follows

/-- What a run of orderly programs comes by. -/
def Orderly (D : Conduct) : Moment → Prop
  | .call _ node m => D.node node ∧ D.Sound m
  | .done _ _ outcome m => outcome.Meets D.value D.fault ∧ D.Sound m

section Stopping

variable {early late : Moment → Bool}

theorem Follows.upTo (hev : D.Follows cut ev ev')
    (hstop : ∀ moment, D.Orderly moment → early moment = late moment ∨ cut ∧ early moment = true) :
    D.Follows cut (ev.upTo early) (ev'.upTo late) := by
  intro frame node h
  have hcall (m : Machine) (hm : D.Sound m) := hstop (.call frame node m) ⟨h, hm⟩
  refine (Governs.stopping hcall).bind fun _ _ => ?_
  refine (hev frame node h).settled.bind fun outcome houtcome => ?_
  have hdone (m : Machine) (hm : D.Sound m) := hstop (.done frame node outcome m) ⟨houtcome, hm⟩
  exact (Governs.stopping hdone).bind fun _ _ => .give houtcome

/-- A run and one that is stopped earlier: what is true before a node is evaluated is so again after
it, and both go the same way until one of them stops. -/
theorem follows_evaluateUpTo
    (hstop : ∀ moment, D.Orderly moment → early moment = late moment ∨ cut ∧ early moment = true)
    (host : Host) : ∀ fuel,
    D.Follows cut (evaluateUpTo early host fuel) (evaluateUpTo late host fuel)
  | 0 => fun _ _ _ => .stop _
  | fuel + 1 => ((follows_evaluateUpTo hstop host fuel).visit host fuel).upTo hstop

end Stopping

theorem Follows.calls (hev : D.Follows cut ev ev') : ∀ {calls : List (List Program)},
    (∀ ps ∈ calls, ∀ p ∈ ps, D.Admits p) →
    D.Governs cut (fun outcomes => ∀ o ∈ outcomes, o.Meets D.value D.fault) (ev.calls calls)
      (ev'.calls calls)
  | [], _ => .pure nofun
  | ps :: rest, h => by
    refine (hev.programs (h ps List.mem_cons_self) D.value_null).settled.bind fun o ho => ?_
    refine (hev.calls fun qs hqs => h qs (List.mem_cons_of_mem _ hqs)).bind fun os hos => ?_
    exact .pure (List.forall_mem_cons.mpr ⟨ho, hos⟩)

end ScriptKit.Conduct
