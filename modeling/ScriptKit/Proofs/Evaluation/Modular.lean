import ScriptKit.Proofs.Evaluation.Lawful

namespace ScriptKit

/-- A program is what is read from a file that a host loads from a path at any time. -/
def Host.Loads (host : Host) (path : String) (p : Program) : Prop :=
  ∃ loader n file, host.loader = some loader ∧ loader.load n path = .ok file ∧
    (Program.parse file).1 = .ok p

namespace Law

/-- The statements of a program can run in any scope that is their own. -/
def Runs (L : Law) (p : Program) : Prop :=
  ∀ b, p.tree.child? 0 = some b → L.Body p.file b.children

/-- A stable law that also holds for the programs that are run on the way, each from a source of its
path. It does not matter which scope is the own one. -/
structure Modular (L : Law) (source : String → Program → Prop) : Prop where
  stable : L.Stable
  shift : ∀ {own own' m es o m'}, L.step own m es o m' → L.step own' m es o m'
  parsed : ∀ {file p}, (Program.parse file).1 = .ok p → L.Runs p
  required : ∀ {own m} directory target,
    L.step own m [.required directory target m] (.value ()) m
  returned : ∀ {own m es m' path byRequire p} v, source path p →
    (byRequire = true → m.session.value? path = none) →
    L.step own (m.mark path (m.session.value? path)) es (.value ()) m' →
    L.step own m (.began path byRequire (m.session.value? path) :: (es ++ [.completed path p v]))
      (.value ()) { m' with session := m'.session.record path v }
  thrown : ∀ {own m es m' path byRequire e},
    (byRequire = true → m.session.value? path = none) →
    L.step own (m.mark path (m.session.value? path)) es (.failure e) m' →
    L.step own m (.began path byRequire (m.session.value? path) :: es) (.failure e)
      (m'.reset path (m.session.value? path))
  stopped : ∀ {own m es m' path byRequire s},
    (byRequire = true → m.session.value? path = none) →
    L.step own (m.mark path (m.session.value? path)) es (.stopped s) m' →
    L.step own m (.began path byRequire (m.session.value? path) :: es) (.stopped s) m'

end Law

namespace Machine

variable (path : String) (entry : Option Value) (m : Machine)

@[simp] theorem mark_store : (m.mark path entry).store = m.store := by
  unfold mark
  split <;> rfl

@[simp] theorem reset_store : (m.reset path entry).store = m.store := by
  unfold reset
  split <;> rfl

end Machine

/-- The account of a program that is recorded, by that of the program itself. -/
theorem Evaluator.recorded_account (ev : Evaluator Told) (byRequire : Bool) (p : Program)
    (path : String) (m : Machine) : ev.recorded byRequire p path m =
      let entry := m.session.value? path
      match ev.program p Machine.rootScope (m.mark path entry) with
      | ⟨es, .value v, m'⟩ => ⟨.began path byRequire entry :: (es ++ [.completed path p v]), .value v,
          { m' with session := m'.session.record path v }⟩
      | ⟨es, .failure e, m'⟩ =>
        ⟨.began path byRequire entry :: es, .failure e, m'.reset path entry⟩
      | ⟨es, .stopped s, m'⟩ => ⟨.began path byRequire entry :: es, .stopped s, m'⟩ := by
  unfold Evaluator.recorded
  simp only [Bind.bind, Told.andThen, MonadMachine.act, Told.plain, MonadMachine.telling,
    Told.telling, MonadMachine.undoing, Told.undoing, Eval.session, Eval.update, Pure.pure,
    Told.ret, List.nil_append]
  rcases ev.program p Machine.rootScope (m.mark path (m.session.value? path)) with
    ⟨es, _ | _ | _, m'⟩ <;> simp

namespace Law

variable {L : Law} {source : String → Program → Prop} {ev : Evaluator Told} {host : Host}
  {own : Option ScopeId} {frame : Frame} {p : Program} {m : Machine}

/-- What is done before a computation leaves the session as it is. -/
theorem Obeys.act_bind {α β : Type} (hL : L.Stable) {x : Eval α} {P : α → Prop} {Q : β → Prop}
    {f : α → Told β} (h : x.Works L.Body own P)
    (hf : ∀ a m', P a → m'.session = m.session → m'.store.Sound L.Body → L.Abides own Q m' (f a m'))
    (hm : m.store.Sound L.Body) : L.Abides own Q m ((MonadMachine.act x >>= f) m) := by
  obtain ⟨hsession, hstore, hraw, hmeets⟩ := h m hm
  simp only [Bind.bind, Told.andThen, MonadMachine.act, Told.plain]
  rcases hx : x m with ⟨_ | e | _, m₁⟩ <;> rw [hx] at hsession hstore hraw hmeets
  · obtain ⟨hsound', hstep', hmeets'⟩ := hf _ m₁ (hmeets _ rfl) hsession (hm.changes hstore)
    exact ⟨hsound', hL.seq (hL.quiet hsession hstore (o := .value ()) trivial) hstep', hmeets'⟩
  · exact .failed (hm.changes hstore) (hL.quiet hsession hstore hraw.ending)
  · exact .stopped (hm.changes hstore) (hL.quiet hsession hstore hraw.ending)

/-- What depends on the session. -/
theorem Obeys.session_bind {β : Type} {Q : β → Prop} {f : Session → Told β}
    (hf : ∀ m, m.store.Sound L.Body → L.Abides own Q m (f m.session m)) :
    L.Obeys own Q (MonadMachine.act Eval.session >>= f) := fun m hm =>
  let ⟨hsound, hstep, hmeets⟩ := hf m hm
  ⟨hsound, hstep, hmeets⟩

theorem Obeys.shift (hL : L.Modular source) {α : Type} {Q : α → Prop} {y : Told α}
    {own own' : Option ScopeId} (h : L.Obeys own Q y) : L.Obeys own' Q y := fun m hm =>
  let ⟨hsound, hstep, hmeets⟩ := h m hm
  ⟨hsound, hL.shift hstep, hmeets⟩

namespace Rules

theorem program (hev : L.Rules ev) (hL : L.Modular source) (hp : L.Runs p) (scope : ScopeId) :
    L.Obeys own (fun _ => True) (ev.program p scope) := by
  have hs := hL.stable
  unfold Evaluator.program
  split
  · exact .pure hs trivial
  apply (Obeys.act hs (.note _)).bind hs
  intro _ _
  split
  · exact .pure hs trivial
  · rename_i body hbody
    apply ((hev.body hs (hp body hbody) scope).shift hL).bind hs
    intro v _
    apply (Obeys.act hs (.anyQuery _)).bind hs
    intro text _
    apply (Obeys.act hs (.note _)).bind hs
    intro _ _
    exact .pure hs trivial

/-- If a program is to run because it is required, then nothing is recorded of it. -/
theorem recorded (hev : L.Rules ev) (hL : L.Modular source) (hp : L.Runs p) {path : String}
    (hsource : source path p) {byRequire : Bool}
    (hrequire : byRequire = true → m.session.value? path = none) (hm : m.store.Sound L.Body) :
    L.Abides own (fun _ => True) m (ev.recorded byRequire p path m) := by
  have hprogram : L.Obeys own (fun _ => True) (ev.program p Machine.rootScope) :=
    hev.program hL hp Machine.rootScope
  obtain ⟨hsound, hstep, -⟩ :=
    hprogram (m.mark path (m.session.value? path)) (by rwa [Machine.mark_store])
  rw [ev.recorded_account]
  dsimp only
  rcases hrun : ev.program p Machine.rootScope (m.mark path (m.session.value? path)) with
    ⟨es, v | e | _, m'⟩ <;> rw [hrun] at hsound hstep
  · exact ⟨hsound, hL.returned v hsource hrequire hstep, fun _ _ => trivial⟩
  · exact .failed (by rwa [Machine.reset_store]) (hL.thrown hrequire hstep)
  · exact .stopped hsound (hL.stopped hrequire hstep)

theorem programs (hev : L.Rules ev) (hL : L.Modular source) : ∀ {ps : List Program}
    (last : Value), (∀ p ∈ ps, L.Runs p ∧ source p.file.path p) →
    L.Obeys own (fun _ => True) (ev.programs last ps)
  | [], _, _ => .pure hL.stable trivial
  | p :: ps, last, h => by
    obtain ⟨hp, hsource⟩ := h p List.mem_cons_self
    have hps (v : Value) : L.Obeys own (fun _ => True) (ev.programs v ps) :=
      hev.programs hL v fun q hq => h q (List.mem_cons_of_mem _ hq)
    unfold Evaluator.programs
    split
    · exact (hev.program hL hp _).bind hL.stable fun v _ => hps v
    · have hrecorded : L.Obeys own (fun _ => True) (ev.recorded false p p.file.path) :=
        fun m hm => hev.recorded hL hp hsource (fun h => absurd h Bool.false_ne_true) hm
      exact hrecorded.bind hL.stable fun v _ => hps v

/-- The modules that are loaded are of a source. -/
theorem importModule (hev : L.Rules ev) (hL : L.Modular source)
    (hsource : ∀ path p, host.Loads path p → source path p)
    (directory target : String) (cached : Bool) :
    L.Obeys own (fun _ => True) (ev.importModule host directory target cached) := by
  have hs := hL.stable
  unfold Evaluator.importModule
  split
  · exact .raise hs _
  rename_i loader hloader
  apply (Obeys.act hs (.resolve loader directory target)).bind hs
  intro resolved _
  apply (Obeys.act hs (.noteAll _)).bind hs
  intro _ _
  split
  · exact .raise hs _
  rename_i path _
  refine .session_bind fun m hm => ?_
  cases hfound : (if cached then m.session.value? path else none) with
  | some v =>
    exact Obeys.act_bind hs (.note _) (fun _ m₁ _ _ hm₁ => Obeys.pure hs trivial m₁ hm₁) hm
  | none =>
    refine Obeys.act_bind hs (.load loader path) (fun r m₁ hr hsession₁ hm₁ => ?_) hm
    obtain ⟨n, hn⟩ := hr
    cases r with
    | error e => exact Obeys.raise hs _ m₁ hm₁
    | ok file =>
      -- reading the file leaves the session as it was when the path was looked up
      refine Obeys.act_bind hs (.readModule host file) (fun p m₂ hp hsession₂ hm₂ => ?_) hm₁
      refine Obeys.act_bind hs (.note _) (fun _ m₃ _ hsession₃ hm₃ => ?_) hm₂
      refine hev.recorded hL (hL.parsed hp) (hsource path p ⟨loader, n, file, hloader, hn, hp⟩)
        ?_ hm₃
      intro hcached
      rw [hsession₃, hsession₂, hsession₁]
      rwa [if_pos hcached] at hfound

theorem evalText (hev : L.Rules ev) (hL : L.Modular source) (text : String) :
    L.Obeys own (fun _ => True) (ev.evalText host frame text) := by
  unfold Evaluator.evalText
  apply (Obeys.act hL.stable (.readModule host _)).bind hL.stable
  intro p hp
  exact hev.program hL (hL.parsed hp) frame.scope

theorem admits (hev : L.Rules ev) (hL : L.Modular source)
    (hsource : ∀ path p, host.Loads path p → source path p) :
    L.Admits host ev own frame := by
  have hs := hL.stable
  intro b vs hb
  apply (Obeys.called hs b vs).bind hs
  intro _ _
  unfold Evaluator.builtin
  -- the three builtins that evaluate more code
  split <;> try cases hb
  case h_16 =>
    apply (Obeys.act hs (.textArgument _ _)).bind hs
    intro target _
    have hrequired : L.Obeys own (fun _ => True)
        (MonadMachine.telling (.required frame.file.directory target) (pure ())) :=
      fun m hm => ⟨hm, hL.required _ target, fun _ _ => trivial⟩
    apply hrequired.bind hs
    intro _ _
    exact hev.importModule hL hsource _ target true
  case h_17 =>
    apply (Obeys.act hs (.textArgument _ _)).bind hs
    intro target _
    exact hev.importModule hL hsource _ target false
  case h_18 =>
    apply (Obeys.act hs (.textArgument _ _)).bind hs
    intro text _
    exact hev.evalText hL text
  case h_20 => exact .raise hs _

end Rules

/-- An evaluation obeys such a law, whatever is loaded on the way. -/
theorem Modular.rules (hL : L.Modular source)
    (hsource : ∀ path p, host.Loads path p → source path p) (fuel : Nat) :
    L.Rules (tell host fuel) :=
  rules_tell hL.stable host (fun _ hev _ _ _ _ => hev.admits hL hsource) fuel

end Law

end ScriptKit
