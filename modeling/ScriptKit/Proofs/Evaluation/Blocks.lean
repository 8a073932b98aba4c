import ScriptKit.Proofs.Evaluation.Conduct

namespace ScriptKit.Conduct

variable {D : Conduct} {cut : Prop} {ev ev' : Evaluator Eval}

/-- An evaluator that governs the nodes of orderly programs, and one that may be cut short. -/
def Follows (D : Conduct) (cut : Prop) (ev ev' : Evaluator Eval) : Prop :=
  ∀ frame node, D.node node → D.Governs cut D.value (ev frame node) (ev' frame node)

theorem value_null (D : Conduct) : D.value .null := D.value_of_ne _ nofun

theorem value_number (D : Conduct) (x : Float) : D.value (.number x) := D.value_of_ne _ nofun

theorem value_string (D : Conduct) (t : String) : D.value (.string t) := D.value_of_ne _ nofun

theorem value_boolean (D : Conduct) (b : Bool) : D.value (.boolean b) := D.value_of_ne _ nofun

namespace Governs

variable {v : Value} {vs : List Value}

theorem declare (scope : ScopeId) (name : String) (hv : D.value v) :
    D.Governs cut D.value (Evaluator.declare scope name v) (Evaluator.declare scope name v) :=
  bindIn hv fun s => s.checked_declaredIn scope name

theorem newScope (parent : Option ScopeId) :
    D.Governs cut (fun _ => True) (Eval.allocate fun s => s.newScope parent)
      (Eval.allocate fun s => s.newScope parent) :=
  allocate fun s hs => ⟨hs.newScope parent, .newScope s parent, trivial⟩

theorem newArray (hvs : ∀ v ∈ vs, D.value v) :
    D.Governs cut D.value (Eval.allocate fun s => s.newArray vs.toArray)
      (Eval.allocate fun s => s.newArray vs.toArray) :=
  allocate fun _ hs => ⟨hs.newArray fun v hv => hvs v (List.mem_toArray.mp hv), .of_eq rfl rfl,
    D.value_of_ne _ nofun⟩

theorem newFunction {f : Function} (hf : D.Nodes f.body) :
    D.Governs cut D.value (Eval.allocate fun s => s.newFunction f)
      (Eval.allocate fun s => s.newFunction f) :=
  allocate fun _ hs => ⟨hs.newFunction hf, .of_eq rfl rfl, D.value_of_ne _ nofun⟩

theorem newClass {c : Class} (hc : D.Nodes c.body) :
    D.Governs cut D.value (Eval.allocate fun s => s.newClass c)
      (Eval.allocate fun s => s.newClass c) :=
  allocate fun _ hs => ⟨hs.newClass hc, .of_eq rfl rfl, D.value_of_ne _ nofun⟩

theorem anyQuery {α : Type} (f : Store → α) :
    D.Governs cut (fun _ => True) (Eval.query f) (Eval.query f) :=
  query fun _ _ => trivial

/-- What a check of the store gives is taken as the value. -/
theorem checked {f : Store → Except Fault Value} (h : ∀ s, D.Safe s → Checked D.value (f s)) :
    D.Governs cut D.value (do Eval.ofExcept (← Eval.query f)) (do Eval.ofExcept (← Eval.query f)) :=
  (query h).bind fun _ hr => ofExcept hr

end Governs

section Session

variable {m : Machine} {v : Value}

theorem Sound.record (h : D.Sound m) (path : String) (hv : D.value v) :
    D.Sound { m with session := m.session.record path v } :=
  ⟨h.store, fun e he => by
    rcases NameTable.mem_insert he with rfl | he
    · exact hv
    · exact h.recorded e he⟩

theorem Sound.forget (h : D.Sound m) (path : String) :
    D.Sound { m with session := m.session.forget path } :=
  ⟨h.store, fun e he => h.recorded e (NameTable.mem_erase he).1⟩

theorem Governs.record (path : String) (hv : D.value v) : D.Governs cut (fun _ => True)
    (Eval.update fun m => { m with session := m.session.record path v })
    (Eval.update fun m => { m with session := m.session.record path v }) :=
  .update (fun _ => rfl) fun _ hm => (hm.record path hv).recorded

theorem Governs.mark (path : String) (entry : Option Value) : D.Governs cut (fun _ => True)
    (Eval.update (Machine.mark path entry)) (Eval.update (Machine.mark path entry)) := by
  cases entry with
  | none => exact .record path D.value_null
  | some v => exact .pure trivial

theorem Governs.resetting {path : String} {entry : Option Value} {x y : Eval Value}
    (hentry : ∀ v, entry = some v → D.value v) (h : D.Governs cut D.value x y) :
    D.Governs cut D.value (Eval.undoing (Machine.reset path entry) x)
      (Eval.undoing (Machine.reset path entry) y) := by
  cases entry with
  | none => exact h.undoing (fun _ => rfl) fun _ hm => hm.forget path
  | some v => exact h.undoing (fun _ => rfl) fun _ hm => hm.record path (hentry v rfl)

end Session

namespace Follows

variable {frame : Frame} {ts : List Tree}

theorem each (hev : D.Follows cut ev ev') (frame : Frame) : ∀ {ts : List Tree},
    D.Nodes ts →
    D.Governs cut (fun vs => ∀ v ∈ vs, D.value v) (ev.each frame ts) (ev'.each frame ts)
  | [], _ => .pure nofun
  | t :: ts, h => by
    refine (hev frame _ (h t List.mem_cons_self)).bind fun v hv => ?_
    refine (hev.each frame fun u hu => h u (List.mem_cons_of_mem _ hu)).bind fun vs hvs => ?_
    exact .pure (List.forall_mem_cons.mpr ⟨hv, hvs⟩)

theorem statements (hev : D.Follows cut ev ev') (frame : Frame) : ∀ {ts : List Tree} {last : Value},
    D.Nodes ts → D.value last →
    D.Governs cut D.value (ev.statements frame last ts) (ev'.statements frame last ts)
  | [], _, _, hlast => .pure hlast
  | t :: ts, _, h, _ => by
    refine (hev frame _ (h t List.mem_cons_self)).bind fun v hv => ?_
    exact hev.statements frame (fun u hu => h u (List.mem_cons_of_mem _ hu)) hv

theorem block (hev : D.Follows cut ev ev') (frame : Frame) (h : D.Nodes ts) :
    D.Governs cut D.value (ev.block frame ts) (ev'.block frame ts) :=
  hev.statements frame h D.value_null

theorem innerBlock (hev : D.Follows cut ev ev') (frame : Frame) (h : D.Nodes ts) :
    D.Governs cut D.value (ev.innerBlock frame ts) (ev'.innerBlock frame ts) :=
  (Governs.newScope (some frame.scope)).bind fun _ _ => hev.block _ h

theorem loop (hev : D.Follows cut ev ev') {test : Option Tree} (htest : D.node test)
    (h : D.Nodes ts) : ∀ (rounds : Nat) {last : Value}, D.value last →
    D.Governs cut D.value (ev.loop frame test ts rounds last) (ev'.loop frame test ts rounds last)
  | 0, _, _ => .stop _
  | rounds + 1, last, hlast => by
    refine (hev frame test htest).bind fun t _ => ?_
    split
    · exact (hev.innerBlock frame h).bind fun v hv => hev.loop htest h rounds hv
    · exact .pure hlast

theorem program (hev : D.Follows cut ev ev') {p : Program} (hp : D.Admits p) (scope : ScopeId) :
    D.Governs cut D.value (ev.program p scope) (ev'.program p scope) := by
  unfold Evaluator.program
  split
  · exact .pure D.value_null
  · refine (Governs.note _).bind fun _ _ => ?_
    split
    · exact .pure D.value_null
    · rename_i body hbody
      refine (hev.block _ (hp body hbody)).bind fun v hv => ?_
      refine (Governs.anyQuery _).bind fun _ _ => ?_
      exact (Governs.note _).bind fun _ _ => .pure hv

theorem recorded (hev : D.Follows cut ev ev') (byRequire : Bool) {p : Program} (hp : D.Admits p)
    (path : String) :
    D.Governs cut D.value (ev.recorded byRequire p path) (ev'.recorded byRequire p path) := by
  unfold Evaluator.recorded
  refine Governs.session.bind fun session hsession => ?_
  have hentry : ∀ v, session.value? path = some v → D.value v :=
    fun v hv => hsession _ (NameTable.mem_of_find? hv)
  refine (Governs.mark path _).bind fun _ _ => ?_
  refine (Governs.resetting hentry (hev.program hp Machine.rootScope)).bind fun v hv => ?_
  exact (Governs.record path hv).bind fun _ _ => .pure hv

theorem programs (hev : D.Follows cut ev ev') : ∀ {ps : List Program} {last : Value},
    (∀ p ∈ ps, D.Admits p) → D.value last →
    D.Governs cut D.value (ev.programs last ps) (ev'.programs last ps)
  | [], _, _, hlast => .pure hlast
  | p :: ps, _, h, _ => by
    have hp : D.Admits p := h p List.mem_cons_self
    have hps : ∀ q ∈ ps, D.Admits q := fun q hq => h q (List.mem_cons_of_mem _ hq)
    unfold Evaluator.programs
    split
    · exact (hev.program hp _).bind fun v hv => hev.programs hps hv
    · exact (hev.recorded false hp _).bind fun v hv => hev.programs hps hv

theorem readModule (host : Host) (file : SourceFile) :
    D.Governs cut D.Admits (Evaluator.readModule host file) (Evaluator.readModule host file) := by
  unfold Evaluator.readModule
  rcases hparse : Program.parse file with ⟨result, entries⟩
  refine (Governs.noteAll _).bind fun _ _ => ?_
  cases result with
  | error e => exact .fail trivial
  | ok p =>
    have hp : D.Admits p := D.parsed file p (by rw [hparse])
    dsimp only
    split
    · exact .pure hp
    refine (Governs.note _).bind fun _ _ => ?_
    split
    · exact .fail trivial
    · exact .pure hp

theorem importModule (hev : D.Follows cut ev ev') (host : Host) (directory target : String)
    (cached : Bool) : D.Governs cut D.value (ev.importModule host directory target cached)
      (ev'.importModule host directory target cached) := by
  unfold Evaluator.importModule
  split
  · exact .refuse nofun nofun
  refine (Governs.resolve _ directory target).bind fun resolved _ => ?_
  refine (Governs.noteAll _).bind fun _ _ => ?_
  split
  · exact .refuse nofun nofun
  refine Governs.session.bind fun session hsession => ?_
  split
  · rename_i v hv
    have hv : D.value v := by
      split at hv
      · exact hsession _ (NameTable.mem_of_find? hv)
      · cases hv
    exact (Governs.note _).bind fun _ _ => .pure hv
  refine (Governs.load _ _).bind fun file _ => ?_
  split
  · exact .refuse nofun nofun
  refine (readModule host _).bind fun p hp => ?_
  exact (Governs.note _).bind fun _ _ => hev.recorded cached hp _

theorem evalText (hev : D.Follows cut ev ev') (host : Host) (frame : Frame) (text : String) :
    D.Governs cut D.value (ev.evalText host frame text) (ev'.evalText host frame text) :=
  (readModule host _).bind fun _ hp => hev.program hp frame.scope

end Follows

end ScriptKit.Conduct
