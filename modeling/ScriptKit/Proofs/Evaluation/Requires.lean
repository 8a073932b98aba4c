import ScriptKit.Proofs.Evaluation.Sessions

namespace ScriptKit

/-- The path whose program begins to run because it is required. -/
def Event.requiredPath? : Event → Option String
  | .began path true _ => some path
  | _ => none

/-- The paths whose programs have been run because they were required. -/
def requiredRuns (es : List Event) : List String :=
  es.filterMap Event.requiredPath?

theorem Event.Aside.requiredPath? {e : Event} (h : e.Aside) : e.requiredPath? = none := by
  cases e with
  | began path byRequire entry => simpa [Event.track] using h []
  | _ => rfl

theorem requiredRuns_append (es es' : List Event) :
    requiredRuns (es ++ es') = requiredRuns es ++ requiredRuns es' :=
  List.filterMap_append

theorem requiredRuns_concat {es : List Event} {e : Event} (h : e.requiredPath? = none) :
    requiredRuns (es ++ [e]) = requiredRuns es := by
  have hone : requiredRuns [e] = [] := List.filterMap_cons_none h
  rw [requiredRuns_append, hone, List.append_nil]

theorem Machine.mem_names_mark (m : Machine) (path : String) :
    path ∈ (m.mark path (m.session.value? path)).session.names := by
  unfold mark
  cases hentry : m.session.value? path with
  | none => exact NameTable.mem_names_insert.mpr (Or.inl rfl)
  | some v =>
    have hthere : (m.session.value? path).isSome = true := by rw [hentry, Option.isSome_some]
    exact NameTable.contains_iff.mp hthere

/-- The programs that are run from a machine on because they are required: no path twice, and none
that is recorded before. Whenever something is required, what was recorded before and what is in
progress is recorded. -/
structure RunsOnce (m : Machine) (es : List Event) : Prop where
  once : (requiredRuns es).Nodup
  unrecorded : ∀ path ∈ requiredRuns es, path ∉ m.session.names
  asked : ∀ before directory target m₁ after, es = before ++ .required directory target m₁ :: after →
    m.session.names <+: m₁.session.names ∧ ∀ f ∈ inProgress before, f.1 ∈ m₁.session.names

namespace RunsOnce

variable {m m' : Machine} {es es' : List Event} {e : Event} {path : String} {byRequire : Bool}

theorem nil : RunsOnce m [] := ⟨List.nodup_nil, nofun, fun _ _ _ _ _ h => by simp at h⟩

theorem concat (h : RunsOnce m es) (he : e.requiredPath? = none)
    (hask : ∀ directory target m₁, e ≠ .required directory target m₁) : RunsOnce m (es ++ [e]) where
  once := by
    rw [requiredRuns_concat he]
    exact h.once
  unrecorded := by
    rw [requiredRuns_concat he]
    exact h.unrecorded
  asked before directory target m₁ after heq := by
    rcases List.eq_nil_or_concat after with rfl | ⟨after, last, rfl⟩
    · have hlast := List.append_inj_right' heq rfl
      exact absurd (List.singleton_inj.mp hlast) (hask directory target m₁)
    · rw [List.concat_eq_append, ← List.cons_append, ← List.append_assoc] at heq
      exact h.asked before directory target m₁ after (List.append_inj_left' heq rfl)

/-- At an event of its own the session is that of the machine. -/
theorem aside (he : e.Aside)
    (hask : ∀ directory target m₁, e = .required directory target m₁ → m₁ = m) :
    RunsOnce m [e] where
  once := by
    rw [requiredRuns, List.filterMap_cons_none he.requiredPath?]
    exact List.nodup_nil
  unrecorded := by
    rw [requiredRuns, List.filterMap_cons_none he.requiredPath?]
    exact nofun
  asked before directory target m₁ after heq := by
    rcases List.singleton_eq_append_iff.mp heq with ⟨rfl, hcons⟩ | ⟨-, hcons⟩
    · obtain ⟨rfl, -⟩ := List.cons.inj hcons
      obtain rfl := hask directory target m₁ rfl
      exact ⟨List.prefix_rfl, nofun⟩
    · cases hcons

theorem append {m₁ : Machine} (h : RunsOnce m es) (hnames : m.session.names <+: m₁.session.names)
    (hdone : inProgress es = []) (hstay : ∀ path ∈ requiredRuns es, path ∈ m₁.session.names)
    (h' : RunsOnce m₁ es') : RunsOnce m (es ++ es') where
  once := by
    rw [requiredRuns_append]
    refine List.nodup_append.mpr ⟨h.once, h'.once, ?_⟩
    rintro path hpath _ hpath' rfl
    exact h'.unrecorded path hpath' (hstay path hpath)
  unrecorded path hpath := by
    rw [requiredRuns_append] at hpath
    rcases List.mem_append.mp hpath with hpath | hpath
    · exact h.unrecorded path hpath
    · exact fun hmem => h'.unrecorded path hpath (hnames.subset hmem)
  asked before directory target m₂ after heq := by
    rcases List.append_eq_append_iff.mp heq with ⟨more, rfl, hmore⟩ | ⟨rest, rfl, hrest⟩
    · -- the first part is over, so that nothing of it is in progress any more
      obtain ⟨hbefore, hin⟩ := h'.asked more directory target m₂ after hmore
      rw [inProgress_append hdone]
      exact ⟨hnames.trans hbefore, hin⟩
    · cases rest with
      | nil =>
        rw [List.append_nil] at hdone
        obtain ⟨hbefore, -⟩ := h'.asked [] directory target m₂ after hrest.symm
        rw [hdone]
        exact ⟨hnames.trans hbefore, nofun⟩
      | cons e rest =>
        obtain ⟨rfl, -⟩ := List.cons.inj hrest
        exact h.asked before directory target m₂ rest rfl

theorem began (hrequire : byRequire = true → m.session.value? path = none) (hnested : Nested es)
    (h : RunsOnce (m.mark path (m.session.value? path)) es) :
    RunsOnce m (.began path byRequire (m.session.value? path) :: es) where
  once := by
    -- the path is marked while its program runs, so the program does not run again
    have hnot : path ∉ requiredRuns es := fun hmem => h.unrecorded path hmem (m.mem_names_mark path)
    cases byRequire with
    | true => exact List.nodup_cons.mpr ⟨hnot, h.once⟩
    | false => exact h.once
  unrecorded q hq := by
    have hinner (hmem : q ∈ requiredRuns es) : q ∉ m.session.names := fun hbefore =>
      h.unrecorded q hmem (Machine.names_prefix_mark.subset hbefore)
    cases byRequire with
    | true =>
      rcases List.mem_cons.mp hq with rfl | hq
      · exact NameTable.find?_eq_none_iff.mp (hrequire rfl)
      · exact hinner hq
    | false => exact hinner hq
  asked before directory target m₁ after heq := by
    cases before with
    | nil => cases heq
    | cons e before =>
      obtain ⟨rfl, rfl⟩ := List.cons.inj heq
      obtain ⟨hbefore, hin⟩ := h.asked before directory target m₁ after rfl
      refine ⟨Machine.names_prefix_mark.trans hbefore, fun f hf => ?_⟩
      rw [hnested.of_append.inProgress_began] at hf
      rcases List.mem_append.mp hf with hf | hf
      · exact hin f hf
      · -- the path itself has been marked
        obtain rfl := List.mem_singleton.mp hf
        exact hbefore.subset (m.mem_names_mark path)

end RunsOnce

/-- The programs that a computation runs because they are required, together with what becomes of the
session. -/
structure Requires (m : Machine) (es : List Event) (o : Outcome Unit) (m' : Machine) : Prop where
  restores : Restores (fun _ _ => True) m es o m'
  runs : RunsOnce m es
  stay : o = .value () → ∀ path ∈ requiredRuns es, path ∈ m'.session.names

namespace Requires

variable {m m₁ m' : Machine} {es es' : List Event} {o : Outcome Unit} {path : String}
  {byRequire : Bool}

theorem seq (h : Requires m es (.value ()) m₁) (h' : Requires m₁ es' o m') :
    Requires m (es ++ es') o m' where
  restores := h.restores.seq h'.restores
  runs := h.runs.append h.restores.names (h.restores.nesting.done rfl) (h.stay rfl) h'.runs
  stay ho path hpath := by
    rw [requiredRuns_append] at hpath
    rcases List.mem_append.mp hpath with hpath | hpath
    · exact h'.restores.names.subset (h.stay rfl path hpath)
    · exact h'.stay ho path hpath

theorem returned (v : Value) {p : Program}
    (hrequire : byRequire = true → m.session.value? path = none)
    (h : Requires (m.mark path (m.session.value? path)) es (.value ()) m') :
    Requires m (.began path byRequire (m.session.value? path) :: (es ++ [.completed path p v]))
      (.value ()) { m' with session := m'.session.record path v } where
  restores := h.restores.returned v trivial
  runs := (h.runs.began hrequire h.restores.nesting.nested).concat rfl nofun
  stay _ q hq := by
    refine NameTable.mem_names_insert.mpr ?_
    rw [← List.cons_append, requiredRuns_concat rfl] at hq
    cases byRequire with
    | true => exact (List.mem_cons.mp hq).imp_right (h.stay rfl q)
    | false => exact Or.inr (h.stay rfl q hq)

end Requires

/-- A target whose path is recorded is not run: its value is taken, and only the log is changed. -/
theorem Evaluator.importModule_recorded (ev : Evaluator Eval) {host : Host} {loader : Loader}
    (hloader : host.loader = some loader) {directory target path : String} {m : Machine}
    (hpath : (loader.resolve m.asked.targets directory target).1 = .ok path) {v : Value}
    (hv : m.session.value? path = some v) :
    ∃ log, ev.importModule host directory target true m =
      (.value v, { m with log := log, asked := m.asked.forTarget }) := by
  unfold Evaluator.importModule
  rw [hloader]
  simp only [Bind.bind, Eval.andThen, MonadMachine.act, Eval.resolve, Eval.ask, hpath,
    Eval.noteAll, Eval.update, Eval.session, if_true, hv]
  exact ⟨_, rfl⟩

end ScriptKit
