import ScriptKit.Proofs.Evaluation.Blocks

namespace ScriptKit.Conduct

variable {D : Conduct} {cut : Prop} {ev ev' : Evaluator Eval}

namespace Governs

variable {v : Value} {vs : List Value}

theorem newObject (o : Object) :
    D.Governs cut D.value (Eval.allocate fun s => s.newObject o)
      (Eval.allocate fun s => s.newObject o) :=
  allocate fun s hs => ⟨hs.newObject o, .newObject s o, D.value_of_ne _ nofun⟩

/-- The last step of making an object. -/
theorem sealing (scope : ScopeId) (hv : D.value v) : D.Governs cut D.value
    (Eval.allocate fun s => (v, ((s.lock scope).unbind scope Evaluator.constructorName).unbind scope
      Evaluator.argumentsName))
    (Eval.allocate fun s => (v, ((s.lock scope).unbind scope Evaluator.constructorName).unbind scope
      Evaluator.argumentsName)) :=
  allocate fun s hs => ⟨((hs.lock scope).unbind scope _).unbind scope _,
    ((Store.Later.lock s scope).trans (.unbind _ scope (Or.inl rfl))).trans
      (.unbind _ scope (Or.inr rfl)), hv⟩

theorem function (id : FunctionId) :
    D.Governs cut (fun found => ∀ f, found = some f → D.Nodes f.body)
      (Eval.query fun s => s.functions[id]?) (Eval.query fun s => s.functions[id]?) :=
  query fun _ hs => hs.functions id

theorem classOf (id : ClassId) :
    D.Governs cut (fun found => ∀ c, found = some c → D.Nodes c.body)
      (Eval.query fun s => s.classes[id]?) (Eval.query fun s => s.classes[id]?) :=
  query fun _ hs => hs.classes id

theorem bindParameters {scope : ScopeId} : ∀ (names : List String) {vs : List Value},
    (∀ v ∈ vs, D.value v) → D.Governs cut (fun _ => True) (Evaluator.bindParameters scope names vs)
      (Evaluator.bindParameters scope names vs)
  | [], _, _ => pure trivial
  | _ :: _, [], _ => pure trivial
  | p :: ps, v :: _, h =>
    (declare scope p (h v List.mem_cons_self)).bind fun _ _ =>
      bindParameters ps fun w hw => h w (List.mem_cons_of_mem _ hw)

theorem found (scope : ScopeId) (name : String) :
    D.Governs cut (fun found => ∀ v, found = some v → D.value v)
      (Eval.query fun s => s.lookup? scope name) (Eval.query fun s => s.lookup? scope name) :=
  query fun _ hs _ h => hs.values.of_lookup? h

end Governs

namespace Follows

theorem callIn (hev : D.Follows cut ev ev') {f : Function} {vs : List Value}
    (hf : D.Nodes f.body) (hvs : ∀ v ∈ vs, D.value v) (scope : ScopeId) :
    D.Governs cut D.value (ev.callIn f vs scope) (ev'.callIn f vs scope) := by
  unfold Evaluator.callIn
  split
  · exact .refuse nofun nofun
  refine (Governs.bindParameters f.parameters hvs).bind fun _ _ => ?_
  refine (Governs.newArray hvs).bind fun all hall => ?_
  exact (Governs.declare scope _ hall).bind fun _ _ => hev.block _ hf

theorem callFunction (hev : D.Follows cut ev ev') {f : Function} {vs : List Value}
    (hf : D.Nodes f.body) (hvs : ∀ v ∈ vs, D.value v) :
    D.Governs cut D.value (ev.callFunction f vs) (ev'.callFunction f vs) :=
  (Governs.newScope f.closure).bind fun scope _ => hev.callIn hf hvs scope

theorem callConstructor (hev : D.Follows cut ev ev') (c : Class) {vs : List Value}
    (hvs : ∀ v ∈ vs, D.value v) (scope : ScopeId) :
    D.Governs cut (fun _ => True) (ev.callConstructor c vs scope)
      (ev'.callConstructor c vs scope) := by
  unfold Evaluator.callConstructor
  refine (Governs.anyQuery _).bind fun found _ => ?_
  split
  · exact .pure trivial
  · refine (Governs.function _).bind fun f hf => ?_
    split
    · exact (hev.callIn (hf _ rfl) hvs scope).bind fun _ _ => .pure trivial
    · exact .pure trivial
  · exact .refuse nofun nofun

theorem construct (hev : D.Follows cut ev ev') (id : ClassId) {c : Class} {vs : List Value}
    (hc : D.Nodes c.body) (hvs : ∀ v ∈ vs, D.value v) :
    D.Governs cut D.value (ev.construct id c vs) (ev'.construct id c vs) := by
  unfold Evaluator.construct
  refine (Governs.newScope c.closure).bind fun scope _ => ?_
  refine (Governs.newObject _).bind fun object hobject => ?_
  refine (Governs.declare scope _ hobject).bind fun _ _ => ?_
  refine (hev.block _ hc).bind fun _ _ => ?_
  refine (hev.callConstructor c hvs scope).bind fun _ _ => ?_
  exact Governs.sealing scope hobject

end Follows

namespace Governs

variable {v : Value} {vs : List Value}

theorem styleCode (v : Value) :
    D.Governs cut (fun _ => True) (Evaluator.styleCode v) (Evaluator.styleCode v) := by
  unfold Evaluator.styleCode
  split
  · exact .pure trivial
  refine (anyQuery _).bind fun _ _ => ?_
  split
  · exact .pure trivial
  · exact .refuse nofun nofun

theorem colorize (host : Host) (text code : Value) :
    D.Governs cut (fun _ => True) (Evaluator.colorize host text code)
      (Evaluator.colorize host text code) := by
  unfold Evaluator.colorize
  refine (anyQuery _).bind fun _ _ => (styleCode code).bind fun _ _ => ?_
  split <;> exact .pure trivial

/-- A part of a text may be written although the rest of it is refused. -/
theorem write (host : Host) (text : String) :
    D.Governs cut (fun _ => True) (Eval.write host text) (Eval.write host text) := by
  refine (ask (fun a => host.refusal a.texts) _).bind fun refusal _ => ?_
  cases refusal with
  | none => exact put text
  | some refusal =>
    refine (put _).bind fun _ _ => ?_
    exact .fail trivial

theorem printLines (host : Host) : ∀ vs : List Value,
    D.Governs cut (fun _ => True) (Evaluator.printLines host vs) (Evaluator.printLines host vs)
  | [] => .pure trivial
  | _ :: vs => (anyQuery _).bind fun _ _ => (write host _).bind fun _ _ => printLines host vs

theorem dumpAll (host : Host) : ∀ vs : List Value,
    D.Governs cut (fun _ => True) (Evaluator.dumpAll host vs) (Evaluator.dumpAll host vs)
  | [] => .pure trivial
  | _ :: vs => (anyQuery _).bind fun _ _ => (write host _).bind fun _ _ => dumpAll host vs

/-- A result is a value in itself, or the array of the elements of two. -/
theorem operate (op : String) (l r : Value) :
    D.Governs cut D.value (Evaluator.operate op l r) (Evaluator.operate op l r) := by
  refine (query fun s hs => Store.checked_compute hs.values D.value_of_ne op l r).bind
    fun result hresult => (ofExcept hresult).bind fun c hc => ?_
  cases c with
  | value v => exact .pure hc
  | elements vs =>
    exact allocate fun s hs => ⟨hs.newArray hc, .of_eq rfl rfl, D.value_of_ne _ nofun⟩
  | overflow => exact .stop _

theorem toNumber (v : Value) :
    D.Governs cut D.value (Evaluator.toNumber v) (Evaluator.toNumber v) := by
  unfold Evaluator.toNumber
  split
  · exact .pure (D.value_number _)
  · exact .pure (D.value_number _)
  · exact .pure (D.value_number _)
  · split
    · exact .pure (D.value_number _)
    · exact .refuse nofun nofun
  · exact .refuse nofun nofun

theorem arrayOfSize (size : Value) (hv : D.value v) :
    D.Governs cut D.value (Evaluator.arrayOfSize size v) (Evaluator.arrayOfSize size v) := by
  unfold Evaluator.arrayOfSize
  have hrefuse : D.Governs cut D.value
      (do Eval.raise (.notASize (← Eval.query fun s => s.text size)) : Eval Value)
      (do Eval.raise (.notASize (← Eval.query fun s => s.text size)) : Eval Value) :=
    (anyQuery _).bind fun _ _ => .refuse nofun nofun
  dsimp only
  split
  · split
    · exact hrefuse
    split
    · exact .refuse nofun nofun
    · exact allocate fun s hs => ⟨hs.newArray fun w hw => (Array.mem_replicate.mp hw).2 ▸ hv,
        .of_eq rfl rfl, D.value_of_ne _ nofun⟩
  · exact hrefuse

theorem textArgument (b : Builtin) (v : Value) :
    D.Governs cut (fun _ => True) (Evaluator.textArgument b v) (Evaluator.textArgument b v) := by
  unfold Evaluator.textArgument
  split
  · exact .pure trivial
  · exact .refuse nofun nofun

end Governs

namespace Follows

theorem builtin (hev : D.Follows cut ev ev') (host : Host) (frame : Frame) (b : Builtin)
    {vs : List Value} (hvs : ∀ v ∈ vs, D.value v) :
    D.Governs cut D.value (ev.builtin host frame b vs) (ev'.builtin host frame b vs) := by
  unfold Evaluator.builtin
  -- one case for each arm of the definition, in its order
  split
  case h_1 => exact (Governs.printLines host _).bind fun _ _ => .pure D.value_null
  case h_2 => exact (Governs.dumpAll host _).bind fun _ _ => .pure D.value_null
  case h_3 =>
    refine Governs.readLine.bind fun line _ => .pure ?_
    cases line with
    | none => exact D.value_null
    | some text => exact D.value_string text
  case h_4 =>
    exact (Governs.draw host).bind fun x _ => .pure (D.value_number x)
  case h_5 =>
    refine (Governs.colorize host _ _).bind fun _ _ => ?_
    exact (Governs.write host _).bind fun _ _ => .pure D.value_null
  case h_6 => exact (Governs.colorize host _ _).bind fun t _ => .pure (D.value_string t)
  case h_7 => exact .pure (D.value_boolean _)
  case h_8 => exact .toNumber _
  case h_9 => exact (Governs.anyQuery _).bind fun t _ => .pure (D.value_string t)
  case h_10 => exact (Governs.textArgument _ _).bind fun t _ => .pure (D.value_string _)
  case h_11 =>
    split
    · exact .pure D.value_null
    · exact .refuse nofun nofun
  case h_12 =>
    split
    · exact (Governs.anyQuery _).bind fun _ _ => .pure (D.value_number _)
    · exact .pure (D.value_number _)
    · exact .pure (D.value_number _)
    · exact .refuse nofun nofun
  case h_13 size rest =>
    refine Governs.arrayOfSize size ?_
    cases rest with
    | nil => exact D.value_null
    | cons fill _ => exact hvs fill (by simp)
  case h_14 => exact .pure (D.value_string _)
  case h_15 =>
    exact (Governs.anyQuery _).bind fun name _ =>
      .checked fun s hs => Store.checked_read hs.values frame.scope name
  case h_16 => exact (Governs.textArgument _ _).bind fun t _ => hev.importModule host _ t true
  case h_17 => exact (Governs.textArgument _ _).bind fun t _ => hev.importModule host _ t false
  case h_18 => exact (Governs.textArgument _ _).bind fun t _ => hev.evalText host frame t
  case h_19 v rest =>
    split
    · refine (Governs.classOf _).bind fun found hfound => ?_
      split
      · exact hev.construct _ (hfound _ rfl) fun w hw => hvs w (List.mem_cons_of_mem _ hw)
      · exact .pure D.value_null
    · exact .refuse nofun nofun
  case h_20 => exact .refuse nofun nofun

theorem callBuiltin (hev : D.Follows cut ev ev') (host : Host) (frame : Frame) (name : String)
    {vs : List Value} (hvs : ∀ v ∈ vs, D.value v) :
    D.Governs cut D.value (ev.callBuiltin host frame name vs)
      (ev'.callBuiltin host frame name vs) := by
  unfold Evaluator.callBuiltin
  split
  · exact .refuse nofun nofun
  split
  · exact .refuse nofun nofun
  · exact hev.builtin host frame _ hvs

theorem callEscape (hev : D.Follows cut ev ev') (host : Host) (frame : Frame)
    {vs : List Value} (hvs : ∀ v ∈ vs, D.value v) :
    D.Governs cut D.value (ev.callEscape host frame vs) (ev'.callEscape host frame vs) := by
  unfold Evaluator.callEscape
  split
  · exact .refuse nofun nofun
  · exact hev.callBuiltin host frame _ fun w hw => hvs w (List.mem_cons_of_mem _ hw)
  · exact .refuse nofun nofun

theorem callValue (hev : D.Follows cut ev ev') {callee : Value} (hcallee : D.value callee)
    (description : String) {vs : List Value} (hvs : ∀ v ∈ vs, D.value v) :
    D.Governs cut D.value (ev.callValue callee description vs)
      (ev'.callValue callee description vs) := by
  unfold Evaluator.callValue
  split
  · refine (Governs.function _).bind fun found hfound => ?_
    split
    · exact hev.callFunction (hfound _ rfl) hvs
    · exact .pure D.value_null
  · refine (Governs.classOf _).bind fun found hfound => ?_
    split
    · exact hev.construct _ (hfound _ rfl) hvs
    · exact .pure D.value_null
  · exact .checked fun s hs => Store.checked_indexAll hs.values D.value_null vs hcallee
  · exact .refuse nofun nofun

theorem callNode (hev : D.Follows cut ev ev') (host : Host) (frame : Frame) {callee : Option Tree}
    (hcallee : D.node callee) {vs : List Value} (hvs : ∀ v ∈ vs, D.value v) :
    D.Governs cut D.value (ev.callNode host frame callee vs)
      (ev'.callNode host frame callee vs) := by
  have hcomputed : D.Governs cut D.value
      (do let v ← ev frame callee; ev.callValue v v.kind.name vs)
      (do let v ← ev' frame callee; ev'.callValue v v.kind.name vs) :=
    (hev frame callee hcallee).bind fun v hv => hev.callValue hv _ hvs
  unfold Evaluator.callNode
  dsimp only
  split
  · split
    · exact hcomputed
    split
    · exact hev.callEscape host frame hvs
    refine (Governs.found frame.scope _).bind fun found hfound => ?_
    split
    · exact hev.callValue (hfound _ rfl) _ hvs
    split
    · exact hev.callBuiltin host frame _ hvs
    · exact .refuse nofun nofun
  · exact hcomputed

end Follows

end ScriptKit.Conduct
