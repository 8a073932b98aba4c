import ScriptKit.Proofs.Evaluation.Law

namespace ScriptKit.Law

/-- A way to evaluate nodes that obeys the law. -/
def Rules (L : Law) (ev : Evaluator Told) : Prop :=
  ∀ own frame node, L.Allows own frame node → L.Obeys own (fun _ => True) (ev frame node)

/-- The built-in functions that run programs obey the law in a frame. -/
def Admits (L : Law) (host : Host) (ev : Evaluator Told) (own : Option ScopeId)
    (frame : Frame) : Prop :=
  ∀ (b : Builtin) vs, b.runsPrograms = true → L.Obeys own (fun _ => True) do
    MonadMachine.telling (fun _ => .called b vs) (pure ())
    ev.builtin host frame b vs

variable {L : Law} {ev : Evaluator Told} {host : Host} {own : Option ScopeId} {frame : Frame}
  {ts : List Tree}

namespace Rules

theorem each (hev : L.Rules ev) (hL : L.Stable) : ∀ {ts : List Tree},
    (∀ u ∈ ts, L.Allows own frame (some u)) → L.Obeys own (fun _ => True) (ev.each frame ts)
  | [], _ => .pure hL trivial
  | t :: ts, h => by
    have hhead := hev own frame (some t) (h t List.mem_cons_self)
    have htail := hev.each hL fun u hu => h u (List.mem_cons_of_mem _ hu)
    exact hhead.bind hL fun v _ => htail.bind hL fun vs _ => .pure hL trivial

theorem statements (hev : L.Rules ev) (hL : L.Stable) : ∀ {ts : List Tree} (last : Value),
    (∀ u ∈ ts, L.Allows own frame (some u)) →
    L.Obeys own (fun _ => True) (ev.statements frame last ts)
  | [], _, _ => .pure hL trivial
  | t :: ts, _, h => by
    have hhead := hev own frame (some t) (h t List.mem_cons_self)
    exact hhead.bind hL fun v _ => hev.statements hL v fun u hu => h u (List.mem_cons_of_mem _ hu)

/-- Statements run in a scope that is their own. -/
theorem body (hev : L.Rules ev) (hL : L.Stable) {file : SourceFile} (h : L.Body file ts)
    (scope : ScopeId) : L.Obeys (some scope) (fun _ => True) (ev.block ⟨file, scope⟩ ts) := by
  apply hev.statements hL
  rintro u hu t ht
  exact Option.some_inj.mp ht ▸ h u hu scope

theorem innerBlock (hev : L.Rules ev) (hL : L.Stable) (h : L.Body frame.file ts) :
    L.Obeys own (fun _ => True) (ev.innerBlock frame ts) :=
  .fresh hL _ fun scope => hev.body hL h scope

theorem loop (hev : L.Rules ev) (hL : L.Stable) {test : Option Tree}
    (htest : L.Allows own frame test) (h : L.Body frame.file ts) : ∀ (rounds : Nat) (last : Value),
    L.Obeys own (fun _ => True) (ev.loop frame test ts rounds last)
  | 0, _ => .act hL (.stop _)
  | rounds + 1, last => by
    apply (hev own frame test htest).bind hL
    intro v _
    split
    · exact (hev.innerBlock hL h).bind hL fun v _ => hev.loop hL htest h rounds v
    · exact .pure hL trivial

theorem callIn (hev : L.Rules ev) (hL : L.Stable) {f : Function} (hf : L.Body f.file f.body)
    (vs : List Value) (scope : ScopeId) :
    L.Obeys (some scope) (fun _ => True) (ev.callIn f vs scope) := by
  unfold Evaluator.callIn
  split
  · exact .raise hL _
  -- the parameters and the array of the arguments are declared in the scope of the call
  apply (Obeys.act hL (.bindParameters rfl f.parameters vs)).bind hL
  intro _ _
  apply (Obeys.act hL (.newArray fun _ => vs.toArray)).bind hL
  intro all _
  apply (Obeys.act hL (.declare rfl _ all)).bind hL
  intro _ _
  exact hev.body hL hf scope

theorem callFunction (hev : L.Rules ev) (hL : L.Stable) {f : Function} (hf : L.Body f.file f.body)
    (vs : List Value) : L.Obeys own (fun _ => True) (ev.callFunction f vs) :=
  .fresh hL f.closure fun scope => hev.callIn hL hf vs scope

theorem callConstructor (hev : L.Rules ev) (hL : L.Stable) (c : Class) (vs : List Value)
    (scope : ScopeId) : L.Obeys (some scope) (fun _ => True) (ev.callConstructor c vs scope) := by
  unfold Evaluator.callConstructor
  apply (Obeys.act hL (.anyQuery _)).bind hL
  intro found _
  split
  · exact .pure hL trivial
  · apply (Obeys.act hL (.function _)).bind hL
    intro f hf
    split
    · exact (hev.callIn hL (hf _ rfl) vs scope).bind hL fun _ _ => .pure hL trivial
    · exact .pure hL trivial
  · exact .raise hL _

theorem construct (hev : L.Rules ev) (hL : L.Stable) (id : ClassId) {c : Class}
    (hc : L.Body c.file c.body) (vs : List Value) :
    L.Obeys own (fun _ => True) (ev.construct id c vs) := by
  apply Obeys.fresh hL c.closure
  intro scope
  have hobject : (Eval.allocate fun s => s.newObject ⟨some id, some scope⟩).Works L.Body (some scope)
      fun _ => True := .allocate fun _ => .newObject rfl
  apply (Obeys.act hL hobject).bind hL
  intro object _
  apply (Obeys.act hL (.declare rfl _ object)).bind hL
  intro _ _
  apply (hev.body hL hc scope).bind hL
  intro _ _
  apply (hev.callConstructor hL c vs scope).bind hL
  intro _ _
  exact .act hL (.allocate fun _ => .finish rfl)

/-- One case for each arm of the definition, in its order. -/
theorem builtin (hev : L.Rules ev) (hL : L.Stable) {b : Builtin} (hb : b.runsPrograms = false)
    (vs : List Value) : L.Obeys own (fun _ => True) (ev.builtin host frame b vs) := by
  unfold Evaluator.builtin
  split
  case h_1 => exact .act hL ((Eval.Works.printLines host _).bind fun _ _ => .pure trivial)
  case h_2 => exact .act hL ((Eval.Works.dumpAll host _).bind fun _ _ => .pure trivial)
  case h_3 => exact .act hL (Eval.Works.readLine.bind fun _ _ => .pure trivial)
  case h_4 => exact .act hL ((Eval.Works.draw host).bind fun _ _ => .pure trivial)
  case h_5 =>
    exact .act hL ((Eval.Works.colorize host _ _).bind fun _ _ =>
      (Eval.Works.write host _).bind fun _ _ => .pure trivial)
  case h_6 => exact .act hL ((Eval.Works.colorize host _ _).bind fun _ _ => .pure trivial)
  case h_7 => exact .pure hL trivial
  case h_8 => exact .act hL (.toNumber _)
  case h_9 => exact .act hL ((Eval.Works.anyQuery _).bind fun _ _ => .pure trivial)
  case h_10 => exact .act hL ((Eval.Works.textArgument _ _).bind fun _ _ => .pure trivial)
  case h_11 =>
    split
    · exact .pure hL trivial
    · exact .raise hL _
  case h_12 =>
    split
    · exact .act hL ((Eval.Works.anyQuery _).bind fun _ _ => .pure trivial)
    · exact .pure hL trivial
    · exact .pure hL trivial
    · exact .raise hL _
  case h_13 => exact .act hL (.arrayOfSize _ _)
  case h_14 => exact .pure hL trivial
  case h_15 => exact .act hL ((Eval.Works.anyQuery _).bind fun _ _ => .checked _)
  case h_16 | h_17 | h_18 => cases hb
  case h_19 =>
    split
    · apply (Obeys.act hL (.classOf _)).bind hL
      intro c hc
      split
      · exact hev.construct hL _ (hc _ rfl) _
      · exact .pure hL trivial
    · exact .raise hL _
  case h_20 => exact .raise hL _

theorem callBuiltin (hev : L.Rules ev) (hL : L.Stable) (himport : L.Admits host ev own frame)
    (name : String) (vs : List Value) :
    L.Obeys own (fun _ => True) (ev.callBuiltin host frame name vs) := by
  unfold Evaluator.callBuiltin
  split
  · exact .raise hL _
  split
  · exact .raise hL _
  rename_i b _ _
  cases hb : b.runsPrograms with
  | true => exact himport b vs hb
  | false => exact (Obeys.called hL b vs).bind hL fun _ _ => hev.builtin hL hb vs

theorem callEscape (hev : L.Rules ev) (hL : L.Stable) (himport : L.Admits host ev own frame)
    (vs : List Value) : L.Obeys own (fun _ => True) (ev.callEscape host frame vs) := by
  unfold Evaluator.callEscape
  split
  · exact .raise hL _
  · exact hev.callBuiltin hL himport _ _
  · exact .raise hL _

theorem callValue (hev : L.Rules ev) (hL : L.Stable) (callee : Value) (description : String)
    (vs : List Value) : L.Obeys own (fun _ => True) (ev.callValue callee description vs) := by
  unfold Evaluator.callValue
  split
  · apply (Obeys.act hL (.function _)).bind hL
    intro f hf
    split
    · exact hev.callFunction hL (hf _ rfl) vs
    · exact .pure hL trivial
  · apply (Obeys.act hL (.classOf _)).bind hL
    intro c hc
    split
    · exact hev.construct hL _ (hc _ rfl) vs
    · exact .pure hL trivial
  · exact .act hL (.checked _)
  · exact .raise hL _

theorem callNode (hev : L.Rules ev) (hL : L.Stable) (himport : L.Admits host ev own frame)
    {callee : Option Tree} (hcallee : L.Allows own frame callee) (vs : List Value) :
    L.Obeys own (fun _ => True) (ev.callNode host frame callee vs) := by
  have hcomputed : L.Obeys own (fun _ => True)
      (ev frame callee >>= fun v => ev.callValue v v.kind.name vs) :=
    (hev own frame callee hcallee).bind hL fun v _ => hev.callValue hL v _ vs
  unfold Evaluator.callNode
  dsimp only
  split
  · split
    · exact hcomputed
    split
    · exact hev.callEscape hL himport vs
    apply (Obeys.act hL (.anyQuery _)).bind hL
    intro found _
    split
    · exact hev.callValue hL _ _ vs
    split
    · exact hev.callBuiltin hL himport _ vs
    · exact .raise hL _
  · exact hcomputed

theorem member (hev : L.Rules ev) (hL : L.Stable) {t : Tree} (h : L.Allows own frame (t.child? 0)) :
    L.Obeys own (fun _ => True) (ev.member frame t) := by
  unfold Evaluator.member
  apply (hev own frame _ h).bind hL
  intro v _
  split
  · apply (Obeys.act hL (.anyQuery _)).bind hL
    intro scope _
    split
    · exact .pure hL trivial
    · exact .raise hL _
  · exact .raise hL _

end Rules

/-- A member is written in the scope of an object that there is. -/
theorem obeys_write (hL : L.Stable) {object : ObjectId} {o : Object} {scope : ScopeId}
    (name : String) (v : Value) {m : Machine} (hm : m.store.Sound L.Body)
    (ho : m.store.objects[object]? = some o) (hscope : o.scope = some scope) :
    L.Abides own (fun _ => True) m (Told.telling (fun _ => .written scope name)
      (Eval.bindIn (fun s => s.setIn scope name) name v) m) := by
  unfold Told.telling Eval.bindIn Eval.attempt
  dsimp only
  cases hset : m.store.setIn scope name with
  | ok id => exact ⟨⟨hm.functions, hm.classes⟩, hL.written v ho hscope hset, fun _ _ => trivial⟩
  | error f => exact ⟨hm, hL.refused f, nofun⟩

theorem Rules.writeMember (hev : L.Rules ev) (hL : L.Stable) {t : Tree}
    (h : L.Allows own frame (t.child? 0)) (v : Value) :
    L.Obeys own (fun _ => True) (ev.member frame t >>= fun place =>
      MonadMachine.telling (fun _ => .written place.1 place.2)
        (Eval.bindIn (fun s => s.setIn place.1 place.2) place.2 v)) := by
  unfold Evaluator.member
  rw [Told.bind_assoc]
  apply (hev own frame _ h).bind hL
  intro w _
  cases w with
  | object id =>
    -- the object that has just been found is still there when its member is written
    intro m hm
    simp only [Bind.bind, Told.andThen, MonadMachine.act, Told.plain, Eval.query]
    cases ho : m.store.objects[id]? with
    | none => exact Obeys.raise hL (.noMembers _ .object) m hm
    | some o =>
      rw [Option.bind_some]
      cases hscope : o.scope with
      | none => exact Obeys.raise hL (.noMembers _ .object) m hm
      | some scope => exact obeys_write hL _ v hm ho hscope
  | _ => exact .raise hL _

/-- One case for each kind of node. -/
theorem Rules.node (hev : L.Rules ev) (hL : L.Stable) (himport : L.Admits host ev own frame)
    (rounds : Nat) {t : Tree} (ht : L.node own frame t) :
    L.Obeys own (fun _ => True) (ev.node host rounds frame t) := by
  have hasks := hL.parts ht
  have hpart (i : Nat) (h : L.Allows own frame (t.child? i)) := hev own frame (t.child? i) h
  unfold Evaluator.Asks at hasks
  unfold Evaluator.node
  dsimp only
  cases hk : t.kind <;> simp only [hk] at hasks ⊢
  case initialisation =>
    apply (hpart 1 hasks.1).bind hL
    intro v _
    exact .act hL (.declare hasks.2 _ v)
  case assign =>
    apply (hpart 1 hasks.1).bind hL
    intro v _
    split
    · exact .act hL (.rewrite _ _ v)
    · rename_i hkind
      exact hev.writeMember hL (hasks.2 hkind) v
    · exact .raise hL _
  case indexWrite =>
    apply (hev.each hL hasks.1).bind hL
    intro indices _
    apply (hpart 2 hasks.2.1).bind hL
    intro v _
    apply (hpart 0 hasks.2.2).bind hL
    intro base _
    split
    · exact .pure hL trivial
    · exact .act hL (.attempt fun s cell _ => .arrays _)
  case binary =>
    apply (hpart 0 hasks.1).bind hL
    intro l _
    apply (hpart 1 hasks.2).bind hL
    intro r _
    exact .act hL (.operate t.text l r)
  case comparison =>
    apply (hpart 0 hasks.1).bind hL
    intro l _
    apply (hpart 1 hasks.2).bind hL
    intro r _
    exact .act hL (.checked _)
  case call =>
    apply (hev.each hL hasks.1).bind hL
    intro vs _
    exact hev.callNode hL himport hasks.2 vs
  case member =>
    apply (hev.member hL hasks).bind hL
    intro place _
    exact .act hL ((Eval.Works.anyQuery _).bind fun _ _ => .pure trivial)
  case index =>
    apply (hpart 0 hasks.1).bind hL
    intro target _
    apply (hpart 1 hasks.2).bind hL
    intro i _
    exact .act hL (.checked _)
  case whileStatement => exact hev.loop hL hasks.1 hasks.2 rounds .null
  case ifStatement =>
    obtain ⟨htest, hbody, hother⟩ := hasks
    apply (hpart 0 htest).bind hL
    intro v _
    split
    · exact hev.innerBlock hL hbody
    split
    · rename_i other hthere
      split
      · rename_i hkinds
        exact hev own frame (some other) (hother other hthere (by simpa using hkinds))
      · exact .pure hL trivial
    · exact .pure hL trivial
  case block => exact hev.innerBlock hL hasks
  case array =>
    apply (hev.each hL hasks).bind hL
    intro vs _
    exact .act hL (.newArray fun _ => vs.toArray)
  -- the kinds of which no part is evaluated
  case declaration => exact .act hL (.declare hasks _ _)
  case functionDefinition =>
    apply Obeys.act hL
    split
    · exact .pure trivial
    · exact (Eval.Works.newFunction hasks.1).bind fun f _ => .declare hasks.2 _ f
  case classDefinition =>
    exact .act hL ((Eval.Works.newClass hasks.1).bind fun c _ => .declare hasks.2 _ c)
  case number | string | boolean | null => exact .pure hL trivial
  case identifier => exact .act hL (.checked _)
  case function => exact .act hL (.newFunction hasks)
  case classLiteral => exact .act hL (.newClass hasks)
  all_goals exact .raise hL _

theorem Rules.visit (hev : L.Rules ev) (hL : L.Stable) (rounds : Nat)
    (himport : ∀ own frame t, L.node own frame t → L.Admits host ev own frame) :
    L.Rules (ev.visit host rounds) := by
  intro own frame node h
  cases node with
  | none => exact .pure hL trivial
  | some t =>
    have ht : L.node own frame t := h t rfl
    exact .leaving hL ht (hev.node hL (himport own frame t ht) rounds ht)

/-- An evaluation obeys a stable law if the programs do that are run on the way. -/
theorem rules_tell (hL : L.Stable) (host : Host)
    (himport : ∀ ev, L.Rules ev → ∀ own frame t, L.node own frame t → L.Admits host ev own frame) :
    ∀ fuel, L.Rules (tell host fuel)
  | 0 => fun _ _ _ _ => .act hL (.stop _)
  | fuel + 1 =>
    have hev := rules_tell hL host himport fuel
    hev.visit hL fuel (himport _ hev)

end ScriptKit.Law
