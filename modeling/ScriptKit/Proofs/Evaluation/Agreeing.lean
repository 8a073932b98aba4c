import ScriptKit.Evaluation.Evaluate
import ScriptKit.Proofs.Value.Names

namespace ScriptKit

theorem Asked.times_forFile (a : Asked) (path other : String) :
    (a.forFile path).times other = if other = path then a.times path + 1 else a.times other := by
  unfold forFile times
  rw [NameTable.find?_insert]
  split <;> rfl

/-- Two ways to have asked a host that it can tell apart only by how often it was asked for the
files of idle paths. -/
structure Asked.Agrees (idle : String → Prop) (a a' : Asked) : Prop where
  numbers : a.numbers = a'.numbers
  texts : a.texts = a'.texts
  targets : a.targets = a'.targets
  files : ∀ path, ¬ idle path → a.times path = a'.times path

namespace Asked.Agrees

variable {idle : String → Prop} {a a' : Asked}

theorem refl (a : Asked) : a.Agrees idle a := ⟨rfl, rfl, rfl, fun _ _ => rfl⟩

theorem symm (h : a.Agrees idle a') : a'.Agrees idle a :=
  ⟨h.numbers.symm, h.texts.symm, h.targets.symm, fun path hpath => (h.files path hpath).symm⟩

theorem forFile (h : a.Agrees idle a') (path : String) :
    (a.forFile path).Agrees idle (a'.forFile path) where
  numbers := h.numbers
  texts := h.texts
  targets := h.targets
  files other hother := by
    rw [times_forFile, times_forFile]
    split
    · rename_i he
      rw [h.files path (he ▸ hother)]
    · exact h.files other hother

theorem forIdle (h : a.Agrees idle a') {path : String} (hpath : idle path) :
    (a.forFile path).Agrees idle a' where
  numbers := h.numbers
  texts := h.texts
  targets := h.targets
  files other hother := by
    have hne : other ≠ path := fun he => hother (he ▸ hpath)
    rw [times_forFile, if_neg hne, h.files other hother]

end Asked.Agrees

/-- Machines that can be told apart only by what they have noted and, at some idle paths, by whether
the value null is recorded. -/
structure Machine.Agrees (idle : String → Prop) (m m' : Machine) : Prop where
  store : m.store = m'.store
  output : m.output = m'.output
  input : m.input = m'.input
  asked : m.asked.Agrees idle m'.asked
  recorded : ∀ path, ¬ idle path → m.session.value? path = m'.session.value? path
  left : ∀ path v, idle path → m.session.value? path = some v → v = .null
  right : ∀ path v, idle path → m'.session.value? path = some v → v = .null

theorem Machine.Agrees.symm {idle : String → Prop} {m m' : Machine} (h : m.Agrees idle m') :
    m'.Agrees idle m where
  store := h.store.symm
  output := h.output.symm
  input := h.input.symm
  asked := h.asked.symm
  recorded path hpath := (h.recorded path hpath).symm
  left := h.right
  right := h.left

/-- A computation that agreeing machines carry out in the same way. -/
def Eval.Steady {α : Type} (idle : String → Prop) (x : Eval α) : Prop :=
  ∀ m m', m.Agrees idle m' → (x m).1 = (x m').1 ∧ (x m).2.Agrees idle (x m').2

namespace Eval.Steady

variable {α β : Type} {idle : String → Prop} {x : Eval α}

/-- A computation that leaves the machine as it is. -/
theorem still {f : Machine → Outcome α} (hx : ∀ m, x m = (f m, m))
    (hf : ∀ m m', m.Agrees idle m' → f m = f m') : x.Steady idle := by
  intro m m' h
  rw [hx, hx]
  exact ⟨hf m m' h, h⟩

theorem pure (a : α) : (Pure.pure a : Eval α).Steady idle :=
  still (fun _ => rfl) fun _ _ _ => rfl

theorem fail (e : Failure) : (Eval.fail e : Eval α).Steady idle :=
  still (fun _ => rfl) fun _ _ _ => rfl

theorem raise (f : Fault) : (Eval.raise f : Eval α).Steady idle := fail _

theorem stop (s : Stop) : (Eval.stop s : Eval α).Steady idle :=
  still (fun _ => rfl) fun _ _ _ => rfl

theorem query (f : Store → α) : (Eval.query f).Steady idle :=
  still (fun _ => rfl) fun m m' h => by rw [h.store]

theorem ofExcept (r : Except Fault α) : (Eval.ofExcept r).Steady idle := by
  cases r with
  | ok a => exact pure a
  | error f => exact raise f

theorem update {f : Machine → Machine} (hf : ∀ m m', m.Agrees idle m' → (f m).Agrees idle (f m')) :
    (Eval.update f).Steady idle := fun m m' h => ⟨rfl, hf m m' h⟩

theorem put (text : String) : (Eval.put text).Steady idle :=
  update fun _ _ h => { h with output := congrArg (· ++ text) h.output }

theorem note (entry : Log.Entry) : (Eval.note entry).Steady idle :=
  update fun _ _ h => { h with }

theorem noteAll (entries : List Log.Entry) : (Eval.noteAll entries).Steady idle :=
  update fun _ _ h => { h with }

theorem allocate (f : Store → α × Store) : (Eval.allocate f).Steady idle := by
  intro m m' h
  have hx : ∀ m : Machine, Eval.allocate f m =
      (.value (f m.store).1, { m with store := (f m.store).2 }) := fun _ => rfl
  rw [hx, hx, h.store]
  exact ⟨rfl, { h with store := rfl }⟩

theorem attempt (check : Store → Except Fault α) (act : α → Store → β × Store) :
    (Eval.attempt check act).Steady idle := by
  intro m m' h
  have hcheck : check m'.store = check m.store := by rw [h.store]
  unfold Eval.attempt
  rw [hcheck]
  cases check m.store with
  | ok a => exact allocate (act a) m m' h
  | error f => exact ⟨rfl, h⟩

theorem bindIn (find : Store → Except Fault ScopeId) (name : String) (v : Value) :
    (Eval.bindIn find name v).Steady idle :=
  attempt _ _

theorem readLine : Eval.readLine.Steady idle := by
  intro m m' h
  unfold Eval.readLine
  rw [← h.input]
  split
  · exact ⟨rfl, h⟩
  · exact ⟨rfl, { h with input := rfl }⟩
  · exact ⟨rfl, { h with input := rfl }⟩

/-- What is answered in the same way, and counted in the same way. -/
theorem ask {answer : Asked → α} {next : Asked → Asked}
    (hanswer : ∀ a a', a.Agrees idle a' → answer a = answer a')
    (hnext : ∀ a a', a.Agrees idle a' → (next a).Agrees idle (next a')) :
    (Eval.ask answer next).Steady idle := by
  intro m m' h
  unfold Eval.ask
  rw [hanswer _ _ h.asked]
  exact ⟨rfl, { h with asked := hnext _ _ h.asked }⟩

theorem draw (host : Host) : (Eval.draw host).Steady idle :=
  ask (fun _ _ h => by rw [h.numbers])
    fun _ _ h => { h with numbers := congrArg (· + 1) h.numbers }

theorem resolve (loader : Loader) (directory target : String) :
    (Eval.resolve loader directory target).Steady idle :=
  ask (fun _ _ h => by rw [h.targets])
    fun _ _ h => { h with targets := congrArg (· + 1) h.targets }

theorem load (loader : Loader) {path : String} (hpath : ¬ idle path) :
    (Eval.load loader path).Steady idle :=
  ask (fun _ _ h => by rw [h.files path hpath]) fun _ _ h => h.forFile path

theorem bind {f : α → Eval β} (h : x.Steady idle) (hf : ∀ a, (f a).Steady idle) :
    (x >>= f).Steady idle := by
  intro m m' hm
  obtain ⟨hsame, hagrees⟩ := h m m' hm
  simp only [Bind.bind, Eval.andThen]
  rcases hx : x m with ⟨o, m₁⟩
  rcases hx' : x m' with ⟨o', m₁'⟩
  rw [hx, hx'] at hsame hagrees
  obtain rfl : o = o' := hsame
  cases o with
  | value a => exact hf a m₁ m₁' hagrees
  | failure e => exact ⟨rfl, hagrees⟩
  | stopped s => exact ⟨rfl, hagrees⟩

theorem locating (h : x.Steady idle) (place : Location) : (Eval.locating place x).Steady idle := by
  intro m m' hm
  obtain ⟨hsame, hagrees⟩ := h m m' hm
  unfold Eval.locating
  rcases hx : x m with ⟨o, m₁⟩
  rcases hx' : x m' with ⟨o', m₁'⟩
  rw [hx, hx'] at hsame hagrees
  obtain rfl : o = o' := hsame
  cases o <;> exact ⟨rfl, hagrees⟩

theorem undoing {undo : Machine → Machine} (h : x.Steady idle)
    (hundo : ∀ m m', m.Agrees idle m' → (undo m).Agrees idle (undo m')) :
    (Eval.undoing undo x).Steady idle := by
  intro m m' hm
  obtain ⟨hsame, hagrees⟩ := h m m' hm
  unfold Eval.undoing
  rcases hx : x m with ⟨o, m₁⟩
  rcases hx' : x m' with ⟨o', m₁'⟩
  rw [hx, hx'] at hsame hagrees
  obtain rfl : o = o' := hsame
  cases o with
  | value a => exact ⟨rfl, hagrees⟩
  | failure e => exact ⟨rfl, hundo _ _ hagrees⟩
  | stopped s => exact ⟨rfl, hagrees⟩

/-- What depends on the session. -/
theorem session_bind {f : Session → Eval α} (hf : ∀ m m', m.Agrees idle m' →
    (f m.session m).1 = (f m'.session m').1 ∧
      (f m.session m).2.Agrees idle (f m'.session m').2) : (Eval.session >>= f).Steady idle :=
  hf

/-- What gives null and ends in agreeing machines whatever the session is. -/
theorem session_null {f : Session → Eval Value} (hf : ∀ m m', m.Agrees idle m' →
    ∃ m₁, f m.session m = (.value .null, m₁) ∧ m₁.Agrees idle m') :
    (Eval.session >>= f).Steady idle := by
  refine session_bind fun m m' h => ?_
  obtain ⟨m₁, heq, h₁⟩ := hf m m' h
  obtain ⟨m₁', heq', h₁'⟩ := hf m' m₁ h₁.symm
  rw [heq, heq']
  exact ⟨rfl, h₁'.symm⟩

end Eval.Steady

namespace Evaluator

variable {idle : String → Prop} {ev : Evaluator Eval}

/-- An evaluator that agreeing machines follow in the same way. -/
def Steady (idle : String → Prop) (ev : Evaluator Eval) : Prop :=
  ∀ frame node, (ev frame node).Steady idle

section Blocks

theorem Steady.each (hev : ev.Steady idle) (frame : Frame) (ts : List Tree) :
    (ev.each frame ts).Steady idle := by
  induction ts with
  | nil => exact .pure []
  | cons t ts ih => exact (hev frame (some t)).bind fun _ => ih.bind fun _ => .pure _

theorem Steady.statements (hev : ev.Steady idle) (frame : Frame) : ∀ (last : Value) ts,
    (ev.statements frame last ts).Steady idle
  | last, [] => .pure last
  | _, t :: ts => (hev frame (some t)).bind fun v => hev.statements frame v ts

theorem Steady.innerBlock (hev : ev.Steady idle) (frame : Frame) (body : List Tree) :
    (ev.innerBlock frame body).Steady idle :=
  (Eval.Steady.allocate _).bind fun _ => hev.statements _ _ body

theorem Steady.loop (hev : ev.Steady idle) (frame : Frame) (test : Option Tree)
    (body : List Tree) : ∀ (rounds : Nat) (last : Value),
    (ev.loop frame test body rounds last).Steady idle
  | 0, _ => .stop _
  | rounds + 1, last => by
    refine (hev frame test).bind fun t => ?_
    split
    · exact (hev.innerBlock frame body).bind fun v => hev.loop frame test body rounds v
    · exact .pure last

end Blocks

section Calls

theorem steady_declare (scope : ScopeId) (name : String) (v : Value) :
    (declare scope name v).Steady idle :=
  .bindIn _ name v

theorem steady_bindParameters (scope : ScopeId) : ∀ (names : List String) (vs : List Value),
    (bindParameters scope names vs).Steady idle
  | [], _ => .pure ()
  | _ :: _, [] => .pure ()
  | p :: ps, v :: vs => (steady_declare scope p v).bind fun _ => steady_bindParameters scope ps vs

theorem Steady.callIn (hev : ev.Steady idle) (f : Function) (arguments : List Value)
    (scope : ScopeId) : (ev.callIn f arguments scope).Steady idle := by
  unfold Evaluator.callIn
  split
  · exact .raise _
  refine (steady_bindParameters scope f.parameters arguments).bind fun _ => ?_
  refine (Eval.Steady.allocate _).bind fun all => ?_
  exact (steady_declare scope _ all).bind fun _ => hev.statements _ _ f.body

theorem Steady.callConstructor (hev : ev.Steady idle) (c : Class) (arguments : List Value)
    (scope : ScopeId) : (ev.callConstructor c arguments scope).Steady idle := by
  unfold Evaluator.callConstructor
  refine (Eval.Steady.query _).bind fun found => ?_
  split
  · exact .pure ()
  · refine (Eval.Steady.query _).bind fun f => ?_
    split
    · exact (hev.callIn _ arguments scope).bind fun _ => .pure ()
    · exact .pure ()
  · exact .raise _

theorem Steady.construct (hev : ev.Steady idle) (id : ClassId) (c : Class)
    (arguments : List Value) : (ev.construct id c arguments).Steady idle := by
  refine (Eval.Steady.allocate _).bind fun scope => ?_
  refine (Eval.Steady.allocate _).bind fun object => ?_
  refine (steady_declare scope _ object).bind fun _ => ?_
  refine (hev.statements _ _ c.body).bind fun _ => ?_
  exact (hev.callConstructor c arguments scope).bind fun _ => .allocate _

theorem Steady.callValue (hev : ev.Steady idle) (callee : Value) (description : String)
    (arguments : List Value) : (ev.callValue callee description arguments).Steady idle := by
  unfold Evaluator.callValue
  split
  · refine (Eval.Steady.query _).bind fun found => ?_
    split
    · exact (Eval.Steady.allocate _).bind fun scope => hev.callIn _ arguments scope
    · exact .pure _
  · refine (Eval.Steady.query _).bind fun found => ?_
    split
    · exact hev.construct _ _ arguments
    · exact .pure _
  · exact (Eval.Steady.query _).bind fun r => .ofExcept r
  · exact .raise _

end Calls

section Builtins

theorem steady_colorize (host : Host) (text code : Value) :
    (colorize host text code).Steady idle := by
  have hcode : (styleCode code).Steady idle := by
    unfold styleCode
    split
    · exact .pure _
    refine (Eval.Steady.query _).bind fun t => ?_
    split
    · exact .pure _
    · exact .raise _
  refine (Eval.Steady.query _).bind fun t => hcode.bind fun n => ?_
  split <;> exact .pure _

theorem steady_write (host : Host) (text : String) : (Eval.write host text).Steady idle := by
  have hrefusal : (Eval.ask (fun a => host.refusal a.texts) .forText).Steady idle :=
    .ask (fun _ _ h => by rw [h.texts]) fun _ _ h => { h with texts := congrArg (· + 1) h.texts }
  refine hrefusal.bind fun refusal => ?_
  cases refusal with
  | none => exact .put text
  | some refusal => exact (Eval.Steady.put _).bind fun _ => .fail _

theorem steady_printLines (host : Host) : ∀ vs : List Value, (printLines host vs).Steady idle
  | [] => .pure ()
  | _ :: vs => (Eval.Steady.query _).bind fun _ => (steady_write host _).bind fun _ =>
    steady_printLines host vs

theorem steady_dumpAll (host : Host) : ∀ vs : List Value, (dumpAll host vs).Steady idle
  | [] => .pure ()
  | _ :: vs => (Eval.Steady.query _).bind fun _ => (steady_write host _).bind fun _ =>
    steady_dumpAll host vs

theorem steady_operate (op : String) (l r : Value) : (operate op l r).Steady idle := by
  refine (Eval.Steady.query _).bind fun result => (Eval.Steady.ofExcept result).bind fun c => ?_
  cases c with
  | value v => exact .pure v
  | elements vs => exact .allocate _
  | overflow => exact .stop _

theorem steady_toNumber (v : Value) : (toNumber v).Steady idle := by
  unfold toNumber
  split
  · exact .pure _
  · exact .pure _
  · exact .pure _
  · split
    · exact .pure _
    · exact .raise _
  · exact .raise _

theorem steady_arrayOfSize (size fill : Value) : (arrayOfSize size fill).Steady idle := by
  have hrefuse : (do Eval.raise (.notASize (← Eval.query fun s => s.text size)) :
      Eval Value).Steady idle :=
    (Eval.Steady.query _).bind fun _ => .raise _
  unfold arrayOfSize
  dsimp only
  split
  · split
    · exact hrefuse
    split
    · exact .raise _
    · exact .allocate _
  · exact hrefuse

theorem steady_textArgument (b : Builtin) (v : Value) : (textArgument b v).Steady idle := by
  unfold textArgument
  split
  · exact .pure _
  · exact .raise _

theorem steady_readModule (host : Host) (file : SourceFile) :
    (readModule host file).Steady idle := by
  unfold readModule
  rcases Program.parse file with ⟨result, entries⟩
  refine (Eval.Steady.noteAll _).bind fun _ => ?_
  cases result with
  | error e => exact .fail _
  | ok p =>
    dsimp only
    split
    · exact .pure p
    refine (Eval.Steady.note _).bind fun _ => ?_
    split
    · exact .fail _
    · exact .pure p

theorem Steady.program (hev : ev.Steady idle) (p : Program) (scope : ScopeId) :
    (ev.program p scope).Steady idle := by
  unfold Evaluator.program
  split
  · exact .pure _
  refine (Eval.Steady.note _).bind fun _ => ?_
  split
  · exact .pure _
  refine (hev.statements _ _ _).bind fun v => ?_
  exact (Eval.Steady.query _).bind fun _ => (Eval.Steady.note _).bind fun _ => .pure v

/-- Only modules are found in the session. -/
theorem Steady.builtin (hev : ev.Steady idle) (host : Host)
    (hmodule : ∀ directory target cached, (ev.importModule host directory target cached).Steady idle)
    (frame : Frame) (b : Builtin) (arguments : List Value) :
    (ev.builtin host frame b arguments).Steady idle := by
  unfold Evaluator.builtin
  -- one case for each arm of the definition, in its order
  split
  case h_1 => exact (steady_printLines host _).bind fun _ => .pure _
  case h_2 => exact (steady_dumpAll host _).bind fun _ => .pure _
  case h_3 => exact Eval.Steady.readLine.bind fun _ => .pure _
  case h_4 => exact (Eval.Steady.draw host).bind fun _ => .pure _
  case h_5 =>
    refine (steady_colorize host _ _).bind fun _ => ?_
    exact (steady_write host _).bind fun _ => .pure _
  case h_6 => exact (steady_colorize host _ _).bind fun _ => .pure _
  case h_7 => exact .pure _
  case h_8 => exact steady_toNumber _
  case h_9 => exact (Eval.Steady.query _).bind fun _ => .pure _
  case h_10 => exact (steady_textArgument _ _).bind fun _ => .pure _
  case h_11 =>
    split
    · exact .pure _
    · exact .raise _
  case h_12 =>
    split
    · exact (Eval.Steady.query _).bind fun _ => .pure _
    · exact .pure _
    · exact .pure _
    · exact .raise _
  case h_13 => exact steady_arrayOfSize _ _
  case h_14 => exact .pure _
  case h_15 =>
    exact (Eval.Steady.query _).bind fun name => (Eval.Steady.query _).bind fun r => .ofExcept r
  case h_16 => exact (steady_textArgument _ _).bind fun target => hmodule _ target true
  case h_17 => exact (steady_textArgument _ _).bind fun target => hmodule _ target false
  case h_18 =>
    refine (steady_textArgument _ _).bind fun text => ?_
    exact (steady_readModule host _).bind fun p => hev.program p frame.scope
  case h_19 =>
    split
    · refine (Eval.Steady.query _).bind fun found => ?_
      split
      · exact hev.construct _ _ _
      · exact .pure _
    · exact .raise _
  case h_20 => exact .raise _

end Builtins

section Nodes

variable {host : Host}

theorem Steady.callNode (hev : ev.Steady idle)
    (hmodule : ∀ directory target cached, (ev.importModule host directory target cached).Steady idle)
    (frame : Frame) (callee : Option Tree) (arguments : List Value) :
    (ev.callNode host frame callee arguments).Steady idle := by
  -- a builtin runs if it may be called, which both machines tell alike
  have hbuiltin : ∀ name vs, (ev.callBuiltin host frame name vs).Steady idle := by
    intro name vs
    unfold Evaluator.callBuiltin
    split
    · exact .raise _
    split
    · exact .raise _
    · exact hev.builtin host hmodule frame _ vs
  have hcomputed : (do let v ← ev frame callee; ev.callValue v v.kind.name arguments).Steady idle :=
    (hev frame callee).bind fun v => hev.callValue v _ arguments
  unfold Evaluator.callNode
  dsimp only
  split
  · split
    · exact hcomputed
    split
    · unfold Evaluator.callEscape
      split
      · exact .raise _
      · exact hbuiltin _ _
      · exact .raise _
    refine (Eval.Steady.query _).bind fun found => ?_
    split
    · exact hev.callValue _ _ arguments
    split
    · exact hbuiltin _ _
    · exact .raise _
  · exact hcomputed

theorem Steady.member (hev : ev.Steady idle) (frame : Frame) (t : Tree) :
    (ev.member frame t).Steady idle := by
  unfold Evaluator.member
  refine (hev frame _).bind fun v => ?_
  split
  · refine (Eval.Steady.query _).bind fun scope => ?_
    split
    · exact .pure _
    · exact .raise _
  · exact .raise _

theorem Steady.node (hev : ev.Steady idle)
    (hmodule : ∀ directory target cached, (ev.importModule host directory target cached).Steady idle)
    (rounds : Nat) (frame : Frame) (t : Tree) : (ev.node host rounds frame t).Steady idle := by
  unfold Evaluator.node
  dsimp only
  cases t.kind <;> dsimp only
  case initialisation => exact (hev frame _).bind fun v => steady_declare _ _ v
  case declaration => exact steady_declare _ _ _
  case assign =>
    refine (hev frame _).bind fun v => ?_
    cases (childOr t 0).kind <;> dsimp only
    case identifier => exact .bindIn _ _ v
    case member => exact (hev.member frame _).bind fun place => .bindIn _ _ v
    all_goals exact .raise _
  case indexWrite =>
    refine (hev.each frame _).bind fun indices => (hev frame _).bind fun v => ?_
    refine (hev frame _).bind fun base => ?_
    split
    · exact .pure v
    · exact .attempt _ _
  case binary => exact (hev frame _).bind fun l => (hev frame _).bind fun r => steady_operate _ l r
  case comparison =>
    refine (hev frame _).bind fun l => (hev frame _).bind fun r => ?_
    exact (Eval.Steady.query _).bind fun result => .ofExcept result
  case functionDefinition =>
    split
    · exact .pure _
    · exact (Eval.Steady.allocate _).bind fun f => steady_declare _ _ f
  case classDefinition => exact (Eval.Steady.allocate _).bind fun c => steady_declare _ _ c
  case call => exact (hev.each frame _).bind fun vs => hev.callNode hmodule frame _ vs
  case member =>
    exact (hev.member frame t).bind fun place => (Eval.Steady.query _).bind fun _ => .pure _
  case index =>
    refine (hev frame _).bind fun target => (hev frame _).bind fun i => ?_
    exact (Eval.Steady.query _).bind fun result => .ofExcept result
  case whileStatement => exact hev.loop frame _ _ rounds .null
  case ifStatement =>
    refine (hev frame _).bind fun v => ?_
    split
    · exact hev.innerBlock frame _
    split
    · split
      · exact hev frame _
      · exact .pure _
    · exact .pure _
  case block => exact hev.innerBlock frame _
  case identifier => exact (Eval.Steady.query _).bind fun result => .ofExcept result
  case array => exact (hev.each frame _).bind fun vs => .allocate _
  case function | classLiteral => exact .allocate _
  case number | string | boolean | null => exact .pure _
  all_goals exact .raise _

end Nodes

end Evaluator

end ScriptKit
