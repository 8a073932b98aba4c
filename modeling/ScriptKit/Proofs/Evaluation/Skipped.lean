import ScriptKit.Proofs.Evaluation.Agreeing
import ScriptKit.Proofs.Evaluation.Recorded

namespace ScriptKit

/-- What a host loads from a path is never executed. -/
def Host.Idle (host : Host) (path : String) : Prop :=
  ∀ loader, host.loader = some loader → ∀ n, ∃ file p, loader.load n path = .ok file ∧
    (Program.parse file).1 = .ok p ∧ p.executable = false

/-- A text without significant tokens leaves nothing unread. -/
theorem Program.diagnostic_of_not_executable {file : SourceFile} {p : Program}
    (h : (parse file).1 = .ok p) (hp : p.executable = false) : p.diagnostic = none := by
  unfold parse at h
  dsimp only at h
  split at h
  · cases h
  · cases h
    dsimp only at hp ⊢
    unfold Grammar.parseTokens at hp ⊢
    dsimp only at hp ⊢
    split at hp
    · rename_i hblank
      rw [if_pos hblank]
    · split at hp <;> cases hp

namespace Machine.Agrees

variable {idle : String → Prop} {m m' : Machine} {path : String}

theorem record (h : m.Agrees idle m') (hpath : ¬ idle path) (v : Value) :
    { m with session := m.session.record path v }.Agrees idle
      { m' with session := m'.session.record path v } where
  __ := h
  recorded other hother := by simp [h.recorded other hother]
  left other w hother hw := by
    have hne : other ≠ path := fun he => hpath (he ▸ hother)
    exact h.left other w hother (by simpa [hne] using hw)
  right other w hother hw := by
    have hne : other ≠ path := fun he => hpath (he ▸ hother)
    exact h.right other w hother (by simpa [hne] using hw)

theorem forget (h : m.Agrees idle m') (path : String) :
    { m with session := m.session.forget path }.Agrees idle
      { m' with session := m'.session.forget path } where
  __ := h
  recorded other hother := by simp [h.recorded other hother]
  left other w hother hw := h.left other w hother (by simp_all)
  right other w hother hw := h.right other w hother (by simp_all)

/-- One of the machines may record null at an idle path. -/
theorem recordNull (h : m.Agrees idle m') (hpath : idle path) :
    { m with session := m.session.record path .null }.Agrees idle m' where
  __ := h
  recorded other hother := by
    have hne : other ≠ path := fun he => hother (he ▸ hpath)
    simpa [hne] using h.recorded other hother
  left other w hother hw := by
    by_cases hne : other = path
    · simpa [hne, eq_comm] using hw
    · exact h.left other w hother (by simpa [hne] using hw)

end Machine.Agrees

namespace Evaluator

variable {idle : String → Prop} {ev : Evaluator Eval} {host : Host} {p : Program} {path : String}
  {m m' : Machine}

section Recorded

theorem program_of_not_executable (hp : p.executable = false) (scope : ScopeId) :
    ev.program p scope = pure .null := by
  simp [Evaluator.program, hp]

theorem Steady.recorded (hev : ev.Steady idle) (byRequire : Bool) (p : Program)
    (hpath : ¬ idle path) : (ev.recorded byRequire p path).Steady idle := by
  have hrecord (v : Value) : (Eval.update fun m =>
      { m with session := m.session.record path v }).Steady idle :=
    .update fun _ _ h => h.record hpath v
  refine .session_bind fun m m' h => ?_
  rw [← h.recorded path hpath]
  -- both machines have the same entry to restore
  generalize m.session.value? path = entry
  refine (show Eval.Steady idle _ from ?_) m m' h
  have hmark : (Eval.update (Machine.mark path entry)).Steady idle := by
    cases entry with
    | none => exact hrecord .null
    | some v => exact .pure ()
  have hreset : ∀ m m' : Machine, m.Agrees idle m' →
      (m.reset path entry).Agrees idle (m'.reset path entry) := by
    intro m m' h
    cases entry with
    | none => exact h.forget path
    | some v => exact h.record hpath v
  exact hmark.bind fun _ => ((hev.program p _).undoing hreset).bind fun v =>
    (hrecord v).bind fun _ => .pure v

/-- A program that is not executed has the value null and records it. -/
theorem recorded_of_not_executable (byRequire : Bool) (hp : p.executable = false)
    (hpath : idle path) (h : m.Agrees idle m') :
    ∃ m₁, ev.recorded byRequire p path m = (.value .null, m₁) ∧ m₁.Agrees idle m' := by
  have hmark : (m.mark path (m.session.value? path)).Agrees idle m' := by
    unfold Machine.mark
    split
    · exact h.recordNull hpath
    · exact h
  unfold Evaluator.recorded
  rw [program_of_not_executable hp]
  exact ⟨_, rfl, hmark.recordNull hpath⟩

end Recorded

section Modules

/-- Reading a program that is not executed only adds to the log. -/
theorem readModule_of_not_executable (host : Host) {file : SourceFile}
    (h : (Program.parse file).1 = .ok p) (hp : p.executable = false) (m : Machine) :
    ∃ log, readModule host file m = (.value p, { m with log := log }) := by
  unfold readModule
  rcases hparse : Program.parse file with ⟨result, entries⟩
  rw [hparse] at h
  obtain rfl : result = .ok p := h
  have hdiagnostic := Program.diagnostic_of_not_executable (by rw [hparse]) hp
  simp only [hdiagnostic]
  exact ⟨_, rfl⟩

/-- At an idle path the module is null, whether that is recorded or not. -/
theorem Steady.importModule (hev : ev.Steady idle) (hidle : ∀ path, idle path → host.Idle path)
    (directory target : String) (cached : Bool) :
    (ev.importModule host directory target cached).Steady idle := by
  unfold Evaluator.importModule
  cases hloader : host.loader with
  | none => exact .raise _
  | some loader =>
  refine (Eval.Steady.resolve loader directory target).bind fun resolved => ?_
  refine (Eval.Steady.noteAll _).bind fun _ => ?_
  rcases resolved with ⟨e | path, entries⟩
  · exact .raise _
  dsimp only
  by_cases hpath : idle path
  · refine .session_null fun m m' h => ?_
    cases hfound : (if cached then m.session.value? path else none) with
    | some v =>
      obtain rfl : v = .null := by
        split at hfound
        · exact h.left path v hpath hfound
        · cases hfound
      exact ⟨_, rfl, { h with }⟩
    | none =>
      -- one machine may find the module where the other reads it, but reading gives null as well
      obtain ⟨file, p, hload, hparse, hp⟩ :=
        hidle path hpath loader hloader (m.asked.times path)
      let m₁ : Machine := { m with asked := m.asked.forFile path }
      obtain ⟨log, hread⟩ := readModule_of_not_executable host hparse hp m₁
      simp only [Bind.bind, Eval.andThen, MonadMachine.act, Eval.load, Eval.ask, hload, hread, m₁,
        Eval.note, Eval.update]
      exact recorded_of_not_executable cached hp hpath { h with asked := h.asked.forIdle hpath }
  · refine .session_bind fun m m' h => ?_
    rw [← h.recorded path hpath]
    refine (show Eval.Steady idle _ from ?_) m m' h
    split
    · exact (Eval.Steady.note _).bind fun _ => .pure _
    refine (Eval.Steady.load loader hpath).bind fun file => ?_
    split
    · exact .raise _
    refine (steady_readModule host _).bind fun p => ?_
    exact (Eval.Steady.note _).bind fun _ => hev.recorded cached p hpath

end Modules

theorem Steady.visit (hev : ev.Steady idle) (hidle : ∀ path, idle path → host.Idle path)
    (rounds : Nat) : (ev.visit host rounds).Steady idle := by
  intro frame node
  cases node with
  | none => exact .pure _
  | some t => exact (hev.node (hev.importModule hidle) rounds frame t).locating _

end Evaluator

theorem steady_evaluate {idle : String → Prop} {host : Host}
    (hidle : ∀ path, idle path → host.Idle path) : ∀ fuel, (evaluate host fuel).Steady idle
  | 0 => fun _ _ => .stop _
  | fuel + 1 => (steady_evaluate hidle fuel).visit hidle fuel

section Runs

/-- A program that is recorded under the path of its file when it is run. -/
def Program.Records (p : Program) : Prop :=
  p.file.virtual = false ∧ p.file.path ≠ ""

/-- One of the programs is recorded under a path but is not executed. -/
def SkippedAt (ps : List Program) (path : String) : Prop :=
  ∃ p ∈ ps, p.executable = false ∧ p.Records ∧ p.file.path = path

/-- The end of a run whose last program has the value null. -/
def Outcome.nulled : Outcome Value → Outcome Value
  | .value _ => .value .null
  | o => o

namespace Evaluator

variable {idle : String → Prop} {ev : Evaluator Eval} {m m' : Machine}

/-- One of the programs of a run. -/
def runOne (ev : Evaluator Eval) (p : Program) : Eval Value :=
  if p.file.virtual || p.file.path = "" then ev.program p Machine.rootScope
  else ev.recorded false p p.file.path

theorem Steady.runOne (hev : ev.Steady idle) {p : Program}
    (hp : p.Records → ¬ idle p.file.path) : (ev.runOne p).Steady idle := by
  unfold Evaluator.runOne
  split
  · exact hev.program p _
  · rename_i hrecords
    exact hev.recorded false p (hp (by simpa [Program.Records] using hrecords))

theorem runOne_of_not_executable {p : Program} (he : p.executable = false)
    (hp : p.Records → idle p.file.path) (h : m.Agrees idle m') :
    ∃ m₁, ev.runOne p m = (.value .null, m₁) ∧ m₁.Agrees idle m' := by
  unfold runOne
  split
  · rw [program_of_not_executable he]
    exact ⟨m, rfl, h⟩
  · rename_i hrecords
    exact recorded_of_not_executable false he (hp (by simpa [Program.Records] using hrecords)) h

theorem programs_cons (last : Value) (p : Program) (ps : List Program) :
    ev.programs last (p :: ps) = ev.runOne p >>= fun v => ev.programs v ps := by
  rw [Evaluator.programs, runOne]
  split <;> rfl

theorem getLast?_cons_cases {α : Type} {a b : α} {l : List α} (h : (a :: l).getLast? = some b) :
    (l = [] ∧ b = a) ∨ l.getLast? = some b := by
  cases l with
  | nil => exact Or.inl ⟨rfl, (Option.some.inj h).symm⟩
  | cons c l => exact Or.inr (by rwa [List.getLast?_cons_cons] at h)

/-- A run and the run of the programs that are executed, from agreeing machines. -/
theorem Steady.programs (hev : ev.Steady idle) : ∀ {ps : List Program} (last last' : Value)
    {m m' : Machine}, (∀ p ∈ ps, p.Records → (p.executable = false ↔ idle p.file.path)) →
    m.Agrees idle m' →
    (ev.programs last ps m).2.Agrees idle
      (ev.programs last' (ps.filter (·.executable)) m').2 ∧
    ∀ q, ps.getLast? = some q → (ev.programs last ps m).1 =
      if q.executable then (ev.programs last' (ps.filter (·.executable)) m').1
      else (ev.programs last' (ps.filter (·.executable)) m').1.nulled
  | [], _, _, _, _, _, h => ⟨h, nofun⟩
  | p :: ps, last, last', m, m', hps, h => by
    have hp := hps p List.mem_cons_self
    have hrest : ∀ q ∈ ps, q.Records → (q.executable = false ↔ idle q.file.path) :=
      fun q hq => hps q (List.mem_cons_of_mem _ hq)
    cases he : p.executable with
    -- the left run takes a step of its own, after which the machines still agree
    | false =>
      obtain ⟨m₁, hrun, h₁⟩ := ev.runOne_of_not_executable he (fun hr => (hp hr).mp he) h
      have hleft : ev.programs last (p :: ps) m = ev.programs .null ps m₁ := by
        rw [programs_cons]
        simp only [Bind.bind, Eval.andThen, hrun]
      have hright : (p :: ps).filter (·.executable) = ps.filter (·.executable) := by simp [he]
      obtain ⟨hagrees, houtcome⟩ := hev.programs .null last' hrest h₁
      rw [hleft, hright]
      refine ⟨hagrees, fun q hq => ?_⟩
      rcases getLast?_cons_cases hq with ⟨rfl, rfl⟩ | hq
      · rw [he]
        rfl
      · exact houtcome q hq
    | true =>
      have hapart : p.Records → ¬ idle p.file.path := fun hr hidle => by
        rw [(hp hr).mpr hidle] at he
        cases he
      have hright : (p :: ps).filter (·.executable) = p :: ps.filter (·.executable) := by simp [he]
      obtain ⟨hsame, h₁⟩ := hev.runOne hapart m m' h
      rw [hright, programs_cons, programs_cons]
      simp only [Bind.bind, Eval.andThen]
      rcases hrun : ev.runOne p m with ⟨o, m₁⟩
      rcases hrun' : ev.runOne p m' with ⟨o', m₁'⟩
      rw [hrun, hrun'] at hsame h₁
      obtain rfl : o = o' := hsame
      cases o with
      | value v =>
        obtain ⟨hagrees, houtcome⟩ := hev.programs v v hrest h₁
        refine ⟨hagrees, fun q hq => ?_⟩
        rcases getLast?_cons_cases hq with ⟨rfl, rfl⟩ | hq
        · rw [he]
          rfl
        · exact houtcome q hq
      | failure e => exact ⟨h₁, fun q _ => by cases q.executable <;> rfl⟩
      | stopped s => exact ⟨h₁, fun q _ => by cases q.executable <;> rfl⟩

end Evaluator

/-- Programs that are not executed may be left out of a run if nothing else can be loaded from their
paths, nothing else is recorded there and no other program is run under them: what the run prints
and leaves is the same, and so is its end, except that the value is null where the last program is
one of those. -/
theorem runPrograms_executed {host : Host} {ps : List Program} {m : Machine}
    (hloaded : ∀ path, SkippedAt ps path → host.Idle path)
    (hrecorded : ∀ path, SkippedAt ps path → ∀ v, m.session.value? path = some v → v = .null)
    (hapart : ∀ p ∈ ps, p.executable = true → p.Records → ¬ SkippedAt ps p.file.path)
    (fuel : Nat) :
    let run := runPrograms host fuel ps m
    let executed := runPrograms host fuel (ps.filter (·.executable)) m
    run.2.store = executed.2.store ∧ run.2.output = executed.2.output ∧
    run.2.input = executed.2.input ∧ run.2.asked.Agrees (SkippedAt ps) executed.2.asked ∧
    (∀ path, ¬ SkippedAt ps path →
      run.2.session.value? path = executed.2.session.value? path) ∧
    (run.1 = if ps.getLast?.all (·.executable) then executed.1 else executed.1.nulled) := by
  intro run executed
  have hagrees : m.Agrees (SkippedAt ps) m :=
    ⟨rfl, rfl, rfl, .refl _, fun _ _ => rfl, fun path v hpath => hrecorded path hpath v,
      fun path v hpath => hrecorded path hpath v⟩
  have hps : ∀ p ∈ ps, p.Records → (p.executable = false ↔ SkippedAt ps p.file.path) := by
    intro p hp hr
    refine ⟨fun he => ⟨p, hp, he, hr, rfl⟩, fun hskipped => ?_⟩
    exact Bool.eq_false_iff.mpr fun he => hapart p hp he hr hskipped
  -- what agrees at the start agrees at the end, as the skipped programs record nothing but null
  obtain ⟨hend, houtcome⟩ := (steady_evaluate hloaded fuel).programs .null .null hps hagrees
  refine ⟨hend.store, hend.output, hend.input, hend.asked, hend.recorded, ?_⟩
  cases hlast : ps.getLast? with
  | none =>
    obtain rfl : ps = [] := List.getLast?_eq_none_iff.mp hlast
    rfl
  | some q => exact houtcome q hlast

/-- A host whose files are all empty. -/
def blankHost : Host where
  loader := some {
    resolve _ _ target := (.ok target, [])
    load _ path := .ok ⟨"", path, "/", path, false⟩ }

theorem blankHost_idle (path : String) : blankHost.Idle path := by
  rintro _ ⟨⟩ _
  exact ⟨_, _, rfl, rfl, rfl⟩

/-- A file with a value, and one without any statement. -/
def valueThenBlank : List Program :=
  [⟨⟨"true;", "/a", "/", "/a", false⟩, true,
      .branch .program 1 [.branch .block 1 [.leaf .boolean "true" 1]], none⟩,
    ⟨⟨"", "/b", "/", "/b", false⟩, false, .branch .program 1 [], none⟩]

/-- The file without any statement is the last one, so the value is null. -/
theorem runPrograms_executed_valueThenBlank :
    (∀ path, SkippedAt valueThenBlank path → blankHost.Idle path) ∧
    (∀ path, SkippedAt valueThenBlank path →
      ∀ v, (Machine.start []).session.value? path = some v → v = .null) ∧
    (∀ p ∈ valueThenBlank, p.executable = true → p.Records → ¬ SkippedAt valueThenBlank p.file.path) ∧
    (runPrograms blankHost 2 valueThenBlank (.start [])).1 = .value .null ∧
    (runPrograms blankHost 2 (valueThenBlank.filter (·.executable)) (.start [])).1 =
      .value (.boolean true) := by
  -- only the blank program is skipped
  have hskipped : ∀ path, SkippedAt valueThenBlank path → path = "/b" := by
    rintro path ⟨p, hp, he, -, rfl⟩
    simp only [valueThenBlank, List.mem_cons, List.not_mem_nil, or_false] at hp
    rcases hp with rfl | rfl
    · cases he
    · rfl
  have hrecorded : ∀ path, SkippedAt valueThenBlank path →
      ∀ v, (Machine.start []).session.value? path = some v → v = .null := by
    intro _ _ v hv
    cases hv
  have hapart : ∀ p ∈ valueThenBlank, p.executable = true → p.Records →
      ¬ SkippedAt valueThenBlank p.file.path := by
    intro p hp he _ hpath
    have hb := hskipped _ hpath
    simp only [valueThenBlank, List.mem_cons, List.not_mem_nil, or_false] at hp
    rcases hp with rfl | rfl
    · exact absurd hb (by decide)
    · cases he
  have hidle : ∀ path, SkippedAt valueThenBlank path → blankHost.Idle path :=
    fun path _ => blankHost_idle path
  have hexecuted : (runPrograms blankHost 2 (valueThenBlank.filter (·.executable))
      (.start [])).1 = .value (.boolean true) := rfl
  obtain ⟨-, -, -, -, -, hrun⟩ := runPrograms_executed hidle hrecorded hapart 2
  rw [hexecuted] at hrun
  exact ⟨hidle, hrecorded, hapart, hrun, hexecuted⟩

end Runs

end ScriptKit
