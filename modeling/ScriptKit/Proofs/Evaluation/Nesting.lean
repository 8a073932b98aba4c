import ScriptKit.Proofs.Evaluation.Modular

namespace ScriptKit

variable {es es' : List Event} {e : Event} {path : String} {byRequire : Bool}
  {entry : Option Value} {p : Program} {v : Value}

/-- The evaluations of paths that are in progress, the innermost first, each with the entry that
the path had when it began. -/
def Event.track (stack : List (String × Option Value)) : Event → List (String × Option Value)
  | .began path _ entry => (path, entry) :: stack
  | .completed path _ _ => stack.eraseP fun e => e.1 = path
  | _ => stack

/-- What is in progress after what has happened. -/
def inProgress (es : List Event) : List (String × Option Value) :=
  es.foldl Event.track []

/-- An event that neither begins nor completes an evaluation of a path. -/
def Event.Aside (e : Event) : Prop := ∀ stack, Event.track stack e = stack

theorem Event.aside_called (b : Builtin) (vs : List Value) : (Event.called b vs).Aside := fun _ => rfl

theorem Event.aside_written (scope : ScopeId) (name : String) : (Event.written scope name).Aside :=
  fun _ => rfl

theorem Event.aside_required (directory target : String) (m : Machine) :
    (Event.required directory target m).Aside := fun _ => rfl

theorem inProgress_append (h : inProgress es = []) : inProgress (es ++ es') = inProgress es' := by
  rw [inProgress, List.foldl_append, ← inProgress, h, ← inProgress]

theorem inProgress_concat (he : e.Aside) : inProgress (es ++ [e]) = inProgress es := by
  rw [inProgress, List.foldl_append, ← inProgress]
  exact he _

/-- At any time, what was in progress before is below what has begun since. -/
def Nested (es : List Event) : Prop :=
  ∀ before after, es = before ++ after →
    ∀ stack, before.foldl Event.track stack = inProgress before ++ stack

namespace Nested

theorem foldl (h : Nested es) (stack : List (String × Option Value)) :
    es.foldl Event.track stack = inProgress es ++ stack :=
  h es [] (List.append_nil es).symm stack

theorem of_append (h : Nested (es ++ es')) : Nested es := fun before after heq =>
  h before (after ++ es') (by rw [heq, List.append_assoc])

theorem nil : Nested [] := by
  intro before after heq stack
  obtain ⟨rfl, -⟩ := List.append_eq_nil_iff.mp heq.symm
  rfl

theorem append (h : Nested es) (hdone : inProgress es = []) (h' : Nested es') :
    Nested (es ++ es') := by
  intro before after heq stack
  rcases List.append_eq_append_iff.mp heq with ⟨more, rfl, hmore⟩ | ⟨rest, hrest, -⟩
  · rw [List.foldl_append, h.foldl, hdone, List.nil_append, inProgress_append hdone]
    exact h' more after hmore stack
  · exact h before rest hrest stack

theorem concat (h : Nested es) (he : e.Aside) : Nested (es ++ [e]) := by
  intro before after heq stack
  rcases List.append_eq_append_iff.mp heq with ⟨more, rfl, hmore⟩ | ⟨rest, hrest, -⟩
  · rcases List.append_eq_singleton_iff.mp hmore.symm with ⟨rfl, -⟩ | ⟨rfl, -⟩
    · rw [List.append_nil]
      exact h.foldl stack
    · rw [inProgress_concat he, List.foldl_append, h.foldl]
      exact he _
  · exact h before rest hrest stack

theorem singleton (he : e.Aside) : Nested [e] := nil.concat he

/-- What has begun first is below everything else. -/
theorem inProgress_began (h : Nested es) :
    inProgress (.began path byRequire entry :: es) = inProgress es ++ [(path, entry)] :=
  h.foldl [(path, entry)]

theorem began (h : Nested es) : Nested (.began path byRequire entry :: es) := by
  intro before after heq stack
  cases before with
  | nil => rfl
  | cons e before =>
    obtain ⟨rfl, rfl⟩ := List.cons.inj heq
    have hbefore := h.of_append.foldl ((path, entry) :: stack)
    rw [h.of_append.inProgress_began, List.append_assoc]
    exact hbefore

/-- An evaluation that is completed is no longer in progress. -/
theorem foldl_completed (h : Nested es) (hdone : inProgress es = [])
    (stack : List (String × Option Value)) :
    (.began path byRequire entry :: (es ++ [.completed path p v])).foldl Event.track stack =
      stack := by
  rw [List.foldl_cons, List.foldl_append, h.foldl, hdone]
  simp [Event.track]

theorem completed (h : Nested es) (hdone : inProgress es = []) :
    Nested (.began path byRequire entry :: (es ++ [.completed path p v])) := by
  intro before after heq stack
  rw [← List.cons_append] at heq
  rcases List.append_eq_append_iff.mp heq with ⟨more, rfl, hmore⟩ | ⟨rest, hrest, -⟩
  · rcases List.append_eq_singleton_iff.mp hmore.symm with ⟨rfl, -⟩ | ⟨rfl, -⟩
    · rw [List.append_nil]
      exact h.began.foldl stack
    · rw [List.cons_append, h.foldl_completed hdone, inProgress, h.foldl_completed hdone]
      rfl
  · exact h.began before rest hrest stack

end Nested

/-- What a computation has begun is completed when it gives a value. -/
structure Nesting (es : List Event) (o : Outcome Unit) : Prop where
  nested : Nested es
  done : o = .value () → inProgress es = []

namespace Nesting

variable {o : Outcome Unit}

theorem nil : Nesting [] o := ⟨.nil, fun _ => rfl⟩

theorem singleton (he : e.Aside) : Nesting [e] o := ⟨.singleton he, fun _ => he []⟩

theorem append (h : Nesting es (.value ())) (h' : Nesting es' o) : Nesting (es ++ es') o where
  nested := h.nested.append (h.done rfl) h'.nested
  done ho := by rw [inProgress_append (h.done rfl), h'.done ho]

theorem began (h : Nesting es o) (ho : o ≠ .value ()) :
    Nesting (.began path byRequire entry :: es) o :=
  ⟨h.nested.began, fun hvalue => absurd hvalue ho⟩

theorem completed (h : Nesting es (.value ())) :
    Nesting (.began path byRequire entry :: (es ++ [.completed path p v])) (.value ()) :=
  ⟨h.nested.completed (h.done rfl), fun _ => h.nested.foldl_completed (h.done rfl) []⟩

end Nesting

namespace Law

/-- A law about the session alone. It is obeyed in scopes that are their own. -/
def ofSession (step : Machine → List Event → Outcome Unit → Machine → Prop) : Law where
  node own frame _ := own = some frame.scope
  step _ := step

/-- What makes an evaluation obey a law about the session. -/
structure Sessional (step : Machine → List Event → Outcome Unit → Machine → Prop)
    (source : String → Program → Prop) : Prop where
  quiet : ∀ {m m' o}, m'.session = m.session → step m [] o m'
  /-- An event at which the session is that of the machine. -/
  aside : ∀ {m m' e o}, e.Aside →
    (∀ directory target m₁, e = .required directory target m₁ → m₁ = m) → m'.session = m.session →
    step m [e] o m'
  seq : ∀ {m m₁ m' es es' o}, step m es (.value ()) m₁ → step m₁ es' o m' →
    step m (es ++ es') o m'
  left : ∀ {m m' es f f'} frame t, step m es (.failure f) m' →
    step m (es ++ [.failed frame t]) (.failure f') m'
  returned : ∀ {m es m' path byRequire p} v, source path p →
    (byRequire = true → m.session.value? path = none) →
    step (m.mark path (m.session.value? path)) es (.value ()) m' →
    step m (.began path byRequire (m.session.value? path) :: (es ++ [.completed path p v]))
      (.value ()) { m' with session := m'.session.record path v }
  thrown : ∀ {m es m' path byRequire f}, (byRequire = true → m.session.value? path = none) →
    step (m.mark path (m.session.value? path)) es (.failure f) m' →
    step m (.began path byRequire (m.session.value? path) :: es) (.failure f)
      (m'.reset path (m.session.value? path))
  stopped : ∀ {m es m' path byRequire s}, (byRequire = true → m.session.value? path = none) →
    step (m.mark path (m.session.value? path)) es (.stopped s) m' →
    step m (.began path byRequire (m.session.value? path) :: es) (.stopped s) m'

variable {step : Machine → List Event → Outcome Unit → Machine → Prop}
  {source : String → Program → Prop}

theorem body_ofSession (file : SourceFile) (ts : List Tree) : (ofSession step).Body file ts :=
  fun _ _ _ => rfl

theorem sound_ofSession (s : Store) : s.Sound (ofSession step).Body :=
  ⟨fun _ f _ => body_ofSession f.file f.body, fun _ c _ => body_ofSession c.file c.body⟩

theorem Sessional.stable (h : Sessional step source) : (ofSession step).Stable where
  parts := by
    intro own frame t hown
    refine Evaluator.asks_of_children (P := fun _ => True) (fun _ _ _ _ => trivial) ?_ ?_ hown trivial
    · exact fun _ _ _ _ => hown
    · exact fun ts _ => body_ofSession frame.file ts
  quiet hsession _ _ := h.quiet hsession
  seq hfirst hsecond := h.seq hfirst hsecond
  fresh {own m m' es o} parent hstep := by
    have hnew : step m [] (.value ()) { m with store := (m.store.newScope parent).2 } := h.quiet rfl
    exact h.seq hnew hstep
  called b vs := h.aside (Event.aside_called b vs) nofun rfl
  written _ _ _ _ := h.aside (Event.aside_written _ _) nofun rfl
  refused _ := h.aside (Event.aside_written _ _) nofun rfl
  left {_ frame t _ _ _ _} _ hstep := h.left frame t hstep

theorem Sessional.modular (h : Sessional step source) : (ofSession step).Modular source where
  stable := h.stable
  shift hstep := hstep
  parsed _ _ _ := body_ofSession _ _
  required directory target := by
    refine h.aside (Event.aside_required directory target _) (fun _ _ m₁ he => ?_) rfl
    cases he
    rfl
  returned v hsource hrequire hstep := h.returned v hsource hrequire hstep
  thrown hrequire hstep := h.thrown hrequire hstep
  stopped hrequire hstep := h.stopped hrequire hstep

/-- A run of programs obeys a law about the session. -/
theorem Sessional.programs (h : Sessional step source) {host : Host} {ps : List Program}
    (hloads : ∀ path p, host.Loads path p → source path p)
    (hps : ∀ p ∈ ps, source p.file.path p) (fuel : Nat) (m : Machine) :
    let run := (tell host fuel).programs .null ps m
    step m run.events run.outcome.ending run.machine := by
  have hrules := h.modular.rules hloads fuel
  have hprograms : (ofSession step).Obeys none (fun _ => True) ((tell host fuel).programs .null ps) :=
    hrules.programs h.modular .null fun p hp => ⟨fun _ _ => body_ofSession _ _, hps p hp⟩
  exact (hprograms m (sound_ofSession m.store)).step

end Law

end ScriptKit
