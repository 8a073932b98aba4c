import ScriptKit.Proofs.Evaluation.Objects
import ScriptKit.Proofs.Evaluation.Requires
import ScriptKit.Proofs.Evaluation.Skipped
import ScriptKit.Proofs.Package.Resolved
import ScriptKit.Proofs.Program.Normal

namespace ScriptKit

open Package

variable {r : Resolver} {fs : FileSystem} {directory target p q : String} {src : SourceFile}
  {program : Program} {m m' : Machine} {v : Value}

theorem Package.Resolver.resolve_loader (h : (r.resolve directory target).1 = .ok p) (n : Nat) :
    (r.loader.resolve n directory target).1 = .ok p := by
  unfold Resolver.loader
  dsimp only
  rw [h]
  rfl

/-- A source file that was read is known by the absolute path that it was read from. -/
theorem readSource_cases (h : readSource fs q = .ok src) :
    src.path = fs.absolute q ∧ src.virtual = false ∧ fs.Has (fs.absolute q) := by
  unfold readSource at h
  dsimp only at h
  split at h
  · rename_i content hread
    cases h
    refine ⟨rfl, rfl, ?_⟩
    unfold FileSystem.read FileSystem.inspect at hread
    cases hfind : fs.find (fs.absolute q) with
    | ok e => exact ⟨e, hfind⟩
    | error reason =>
      rw [hfind] at hread
      cases hread
  · cases h

theorem Evaluator.value?_of_recorded {ev : Evaluator Eval} {byRequire : Bool} {path : String}
    (h : ev.recorded byRequire program path m = (.value v, m')) :
    m'.session.value? path = some v := by
  unfold Evaluator.recorded at h
  obtain ⟨session, m₁, -, h⟩ := Eval.of_bind h
  obtain ⟨_, m₂, -, h⟩ := Eval.of_bind h
  obtain ⟨w, m₃, -, h⟩ := Eval.of_bind h
  obtain ⟨_, m₄, hrecord, h⟩ := Eval.of_bind h
  cases hrecord
  cases h
  simp

/-- A program that was run at top level is recorded with its value under the path of its file. -/
theorem value?_of_runPrograms {host : Host} {fuel : Nat} (hrecords : program.Records)
    (h : runPrograms host fuel [program] m = (.value v, m')) :
    m'.session.value? program.file.path = some v := by
  unfold runPrograms at h
  rw [Evaluator.programs_cons] at h
  obtain ⟨w, m₁, hrun, h⟩ := Eval.of_bind h
  cases h
  unfold Evaluator.runOne at hrun
  rw [if_neg (by simpa [Program.Records] using hrecords)] at hrun
  exact Evaluator.value?_of_recorded hrun

/-- A path by which a file is known in a session: it is canonical, reading from it finds the file
under this path, and every other spelling that leads to the same entry is taken for it. -/
structure Package.IsKey (fs : FileSystem) (p : String) : Prop where
  canonical : Path.Canonical p
  absolute : fs.absolute p = p
  read : ∀ src, readSource fs p = .ok src → src.path = p
  unique : ∀ q, fs.Has q → (fs.SameEntry q p ↔ fs.absolute q = p)

theorem Package.isKey_of_canonical (hrooted : fs.IsRooted) (h : Path.Canonical p)
    (hthere : fs.Has p) : IsKey fs p := by
  have habsolute : fs.absolute p = p := FileSystem.absolute_of_clean h.rooted h.clean
  refine ⟨h, habsolute, fun src hsrc => ?_, fun q hq => ?_⟩
  · rw [(readSource_cases hsrc).1, habsolute]
  · rw [FileSystem.sameEntry_iff hrooted hq hthere, habsolute]

theorem Package.isKey_of_resolve (hrooted : r.files.IsRooted)
    (h : (r.resolve directory target).1 = .ok p) : IsKey r.files p := by
  obtain ⟨hcanonical, hthere⟩ := Resolver.canonical_of_resolve hrooted h
  exact isKey_of_canonical hrooted hcanonical hthere

theorem Package.isKey_of_readSource (hrooted : fs.IsRooted) (h : readSource fs q = .ok src) :
    IsKey fs src.path := by
  obtain ⟨hpath, -, hthere⟩ := readSource_cases h
  rw [hpath]
  exact isKey_of_canonical hrooted (FileSystem.canonical_absolute hrooted q) hthere

/-- Modules go by one path each. What a target means is the key of its file, however the target is
spelled, found and resolved. So two targets for one file have the same path, and a file that was run at
top level is not run once more where it is required, but its value is taken. -/
theorem module_keys (hrooted : r.files.IsRooted)
    (h : (r.resolve directory target).1 = .ok p) :
    IsKey r.files p ∧
    (∀ (r' : Resolver) directory' target' p', r'.files = r.files →
      (r'.resolve directory' target').1 = .ok p' → r.files.SameEntry p' p → p' = p) ∧
    (∀ q src, readSource r.files q = .ok src → IsKey r.files src.path ∧
      (r.files.SameEntry q p → src.path = p)) ∧
    ∀ q src program host fuel m v m', readSource r.files q = .ok src →
      r.files.SameEntry q p → (Program.parse src).1 = .ok program →
      runPrograms host fuel [program] m = (.value v, m') → host.loader = some r.loader →
      ∀ ev : Evaluator Eval, ∃ log,
        ev.importModule host directory target true m' =
          (.value v, { m' with log := log, asked := m'.asked.forTarget }) := by
  have hkey : IsKey r.files p := isKey_of_resolve hrooted h
  -- what is read under any name of the file is recorded under its key
  have hsource : ∀ {q : String} {src : SourceFile}, readSource r.files q = .ok src →
      r.files.SameEntry q p → src.path = p := by
    intro q src hsrc hsame
    rw [(readSource_cases hsrc).1]
    exact (hkey.unique q hsame.1).mp hsame
  refine ⟨hkey, ?_, ?_, ?_⟩
  -- files that are the same have the same key, whatever the working directory
  · intro r' directory' target' p' hfiles hp' hsame
    have hkey' : IsKey r.files p' := hfiles ▸ isKey_of_resolve (hfiles ▸ hrooted) hp'
    rw [← hkey'.absolute]
    exact (hkey.unique p' hsame.1).mp hsame
  · exact fun q src hsrc => ⟨isKey_of_readSource hrooted hsrc, hsource hsrc⟩
  · intro q src program host fuel m v m' hsrc hsame hparse hrun hloader ev
    have hfile : program.file = src := Program.file_of_parse hparse
    have hpath : program.file.path = p := hfile ▸ hsource hsrc hsame
    -- a file with a key has a path that is not empty, so that its program is recorded
    have hrecords : program.Records := by
      refine ⟨hfile ▸ (readSource_cases hsrc).2.1, ?_⟩
      rw [hpath]
      rintro rfl
      exact absurd hkey.canonical.rooted (by decide)
    have hvalue := value?_of_runPrograms hrecords hrun
    rw [hpath] at hvalue
    exact ev.importModule_recorded hloader (Resolver.resolve_loader h _) hvalue

/-- The value that an evaluation ends with. -/
def Outcome.value? {α : Type} : Outcome α → Option α
  | .value a => some a
  | .failure _ => none
  | .stopped _ => none

theorem Outcome.eq_of_value? {α : Type} {o : Outcome α} {a : α} (h : o.value? = some a) :
    o = .value a := by
  cases o <;> cases h
  rfl

/-- A package without a manifest, which is known as a dependency. -/
def onePackage : Resolver where
  yaml := Yaml.codec
  files := ⟨⟨[("/p", .directory), ("/p/q", .directory), ("/p/q/main.charly", .file "true;")]⟩,
    "/p"⟩
  dependencies := .ofList [("d", "q")]

theorem module_keys_onePackage :
    onePackage.files.IsRooted ∧ (onePackage.resolve "/p" "d").1 = .ok "/p/q/main.charly" ∧
      IsKey onePackage.files "/p/q/main.charly" ∧
      (onePackage.resolve "/p/q" "./../q/main").1 = .ok "/p/q/main.charly" ∧
      ∃ src program m, readSource onePackage.files "q//main.charly" = .ok src ∧
        src.path = "/p/q/main.charly" ∧ (Program.parse src).1 = .ok program ∧
        runPrograms { loader := onePackage.loader } 2 [program] (.start []) =
          (.value (.boolean true), m) ∧
        ∀ ev : Evaluator Eval, ∃ log,
          ev.importModule { loader := onePackage.loader } "/p" "d" true m =
            (.value (.boolean true), { m with log := log, asked := m.asked.forTarget }) := by
  have hrooted : onePackage.files.IsRooted :=
    show Path.isAbsolute "/p" = true by decide
  have hresolve : (onePackage.resolve "/p" "d").1 = .ok "/p/q/main.charly" := by decide
  have hspelled : (onePackage.resolve "/p/q" "./../q/main").1 = .ok "/p/q/main.charly" := by decide
  obtain ⟨hkey, -, hread, hrun⟩ := module_keys hrooted hresolve
  let src : SourceFile := ⟨"true;", "main.charly", "/p/q", "/p/q/main.charly", false⟩
  have hsrc : readSource onePackage.files "q//main.charly" = .ok src := by decide
  have hsame : onePackage.files.SameEntry "q//main.charly" "/p/q/main.charly" := by
    refine (FileSystem.sameEntry_iff hrooted ?_ ?_).mpr (by decide)
    · exact ⟨.file "true;", by decide⟩
    · exact ⟨.file "true;", by decide⟩
  have hscan : (Token.scan src.content).failure = none := by decide
  have hparse := Program.parse_plain hscan
  let plain := Grammar.readProgram (Token.scan src.content).tokens.toArray
  let run := runPrograms { loader := onePackage.loader } 2
    [⟨src, plain.executable, plain.root.meaning, plain.diagnostic⟩] (.start [])
  have hvalue : run.1 = .value (.boolean true) := by
    have hboolean : (run.1.value?.map fun v => (v.kind, v.truthy)) = some (.boolean, true) := by
      decide +kernel +zetaReduce
    obtain ⟨v, hv, htrue⟩ := Option.map_eq_some_iff.mp hboolean
    rw [Outcome.eq_of_value? hv]
    cases v <;> cases htrue
    rfl
  have hends : run = (.value (.boolean true), run.2) := Prod.ext hvalue rfl
  exact ⟨hrooted, hresolve, hkey, hspelled, src, _, run.2, hsrc, (hread _ _ hsrc).2 hsame, hparse,
    hends, hrun _ _ _ _ _ _ _ _ hsrc hsame hparse hends rfl⟩

end ScriptKit
