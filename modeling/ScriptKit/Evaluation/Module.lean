import ScriptKit.Evaluation.Block
import ScriptKit.Path
import ScriptKit.Value.Text

namespace ScriptKit

namespace SourceFile

/-- The name that every virtual file goes by. Virtual files are never recorded in a session, so
it does not have to tell them apart. -/
def virtualName : String := "VIRTUAL-<UUID>"

/-- A source text that does not come from a file system. -/
def ofText (content directory : String) : SourceFile :=
  ⟨content, virtualName, directory, Path.join ["/VIRTUAL", virtualName], true⟩

end SourceFile

namespace Evaluator

open MonadMachine (act telling undoing)

/-- Reads the text of a module. -/
def readModule (host : Host) (file : SourceFile) : Eval Program := do
  let (result, entries) := Program.parse file
  Eval.noteAll entries
  match result with
  | .error e => Eval.fail (.lexical e file.name)
  | .ok p =>
    match p.diagnostic with
    | none => return p
    | some d =>
      Eval.note ⟨Log.warn, "incomplete parse",
        [("file", file.name), ("line", toString d.line), ("detail", d.message)]⟩
      if host.strict then Eval.fail (.incomplete d file.name) else return p

variable {M : Type → Type} [MonadMachine M]

/-- Runs a program in a scope. One that is not to be executed has the value null. -/
@[specialize]
def program (ev : Evaluator M) (p : Program) (scope : ScopeId) : M Value := do
  if !p.executable then return .null
  let file := ("file", p.file.name)
  act (Eval.note ⟨Log.debug, "executing program", [file]⟩)
  match p.tree.child? 0 with
  | none => return .null
  | some body =>
    let v ← ev.block ⟨p.file, scope⟩ body.children
    let text ← act (Eval.query fun s => s.text v)
    act (Eval.note ⟨Log.debug, "program finished", [file, ("result", text)]⟩)
    return v

/-- Runs a program at top level and records its value under a path. While it runs, the path has
the value null; if it fails, the path is left as it was before. -/
@[specialize]
def recorded (ev : Evaluator M) (byRequire : Bool) (p : Program) (path : String) : M Value := do
  let session ← act Eval.session
  let entry := session.value? path
  telling (fun _ => .began path byRequire entry) (Eval.update (Machine.mark path entry))
  let v ← undoing (Machine.reset path entry) (ev.program p Machine.rootScope)
  telling (fun _ => .completed path p v)
    (Eval.update fun m => { m with session := m.session.record path v })
  return v

/-- Runs programs one after the other at top level. The value is that of the last one. -/
@[specialize]
def programs (ev : Evaluator M) (last : Value) : List Program → M Value
  | [] => pure last
  | p :: ps => do
    let v ←
      if p.file.virtual || p.file.path = "" then ev.program p Machine.rootScope
      else ev.recorded false p p.file.path
    ev.programs v ps

/-- Finds and runs the module that a target means. If asked to, the value of a module that has
been recorded is taken instead. -/
@[specialize]
def importModule (ev : Evaluator M) (host : Host) (directory target : String) (cached : Bool) :
    M Value := do
  match host.loader with
  | none => act (Eval.raise (.noLoader target))
  | some loader =>
    let (resolved, entries) ← act (Eval.resolve loader directory target)
    act (Eval.noteAll entries)
    match resolved with
    | .error e => act (Eval.raise (.importFailed target e.reason e.missing))
    | .ok path =>
      let session ← act Eval.session
      match if cached then session.value? path else none with
      | some v =>
        act (Eval.note ⟨Log.debug, "module cache hit", [("path", path)]⟩)
        return v
      | none =>
        match ← act (Eval.load loader path) with
        | .error e => act (Eval.raise (.importFailed path e.reason e.missing))
        | .ok file =>
          let p ← act (readModule host file)
          act (Eval.note ⟨Log.debug, "loading module",
            [("path", path), ("cached", if cached then "true" else "false")]⟩)
          ev.recorded cached p path

/-- Runs a text as a program in the scope of a frame. -/
@[specialize]
def evalText (ev : Evaluator M) (host : Host) (frame : Frame) (text : String) : M Value := do
  let p ← act (readModule host (.ofText text frame.file.directory))
  ev.program p frame.scope

end Evaluator

end ScriptKit
