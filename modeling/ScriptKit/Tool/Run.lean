import ScriptKit.Evaluation.Evaluate
import ScriptKit.Package.Resolver
import ScriptKit.Tool.Console
import ScriptKit.Tool.Options
import ScriptKit.Tree.Listing

namespace ScriptKit.Tool

open Package

def usage : String := "Usage:
  charly [flags] [file.charly ...]
  charly [flags] -e <source>
  charly deps install
  charly version

Flags:
  --continue  keep running the remaining files after an error
  --strict    treat unparsed input as an error
  --noexec    parse only
  --ast       print the optimized syntax tree as YAML
  --tokens    print the token stream
  --log       debug logging on stderr
  --nocolor   disable colored output
"

/-- A lockfile that belongs to another package. -/
structure ForeignLockfile where
  root : String
  manifest : String
  deriving DecidableEq

def ForeignLockfile.message (e : ForeignLockfile) : String :=
  "lockfile root " ++ Text.quote e.root ++ " does not match manifest name " ++ Text.quote e.manifest

/-- The path of the lockfile that goes with a manifest. -/
def lockfilePath (m : Manifest) : String :=
  Path.join [m.directory, lockfileName]

/-- The manifest nearest to a place, read in. -/
def nearestManifest (yaml : Yaml.Codec) (fs : FileSystem) (start : String) :
    Except String (Option Manifest) :=
  match Manifest.find fs start with
  | .error (.notFound _) => .ok none
  | .error e => .error e.message
  | .ok path =>
    match Manifest.load yaml fs path with
    | .ok m => .ok (some m)
    | .error e => .error e.message

namespace Shell

/-- The lockfile of a manifest, if there is one. -/
def lockfile (w : World) (m : Manifest) : Shell (Option Lockfile) := do
  match Lockfile.load w.yaml (← files) (lockfilePath m) with
  | .ok lock =>
    if lock.root = m.name then return some lock
    else fail (ForeignLockfile.mk lock.root m.name).message
  | .error e =>
    if e.isMissing then return none
    else fail ("failed to read lockfile " ++ lockfilePath m ++ ": " ++ e.message)

/-- The resolver that knows the dependencies of a manifest. Without a manifest there are none. -/
def resolver (w : World) (s : Settings) (manifest : Option Manifest) : Shell Resolver := do
  let fs ← files
  match manifest with
  | none => return .ofRoots w.yaml fs []
  | some m =>
    if m.dependencies.entries.isEmpty then return .ofRoots w.yaml fs []
    let lock ← lockfile w m
    let cache ← orElse (s.cache fs w.environment) fun e => fail e.message
    let roots ← orElse (m.dependencyRoots lock cache) fun e => fail e.message
    return .ofRoots w.yaml fs roots

end Shell

/-- How the files of a run are treated. -/
structure Manner where
  options : Options
  strict : Bool
  threshold : Log.Level
  yaml : Yaml.Codec

namespace Manner

/-- Reads a program, and shows its tokens and its tree if asked to. -/
def parse (manner : Manner) (file : SourceFile) : Shell (Except String Program) := do
  let lexical (e : Token.LexError) : Except String Program := .error (e.message file.name)
  if manner.options.showTokens then
    let scan := Token.scan file.content
    match scan.failure with
    | some e => return lexical e
    | none =>
      Shell.print (String.join ((scan.tokens.filter fun t => !t.isBlank).map fun t =>
        t.render file.name ++ "\n"))
  let (result, entries) := Program.parse file
  Shell.log manner.threshold entries
  match result with
  | .error e => return lexical e
  | .ok p =>
    match p.diagnostic with
    | none => pure ()
    | some d =>
      if manner.strict then return .error (d.render file.name)
      Shell.warning ((Location.mk file.name d.line).render ++ ": " ++ d.message)
    if manner.options.showTree then Shell.print (manner.yaml.render p.tree.toDocument)
    return .ok p

/-- Tells an error, which ends the run unless errors are to be passed over. -/
def report (manner : Manner) (text : String) : Shell Unit := do
  Shell.error text
  if manner.options.keepGoing then return else Shell.stop 1

/-- Reads programs one after the other, and says whether one of them could not be read. -/
def parseAll (manner : Manner) : List SourceFile → Shell (List Program × Bool)
  | [] => return ([], false)
  | file :: rest => do
    match ← manner.parse file with
    | .ok p =>
      let (ps, failed) ← manner.parseAll rest
      return (p :: ps, failed)
    | .error text =>
      manner.report text
      let (ps, _) ← manner.parseAll rest
      return (ps, true)

/-- Runs a program, and gives the text of its failure if it fails. A run that breaks off takes the
command with it. -/
def evaluate (manner : Manner) (host : Host) (fuel : Nat) (p : Program) (m : Machine) :
    Shell (Option String × Machine) := do
  let (outcome, m) := runPrograms host fuel [p] { m with output := "", log := #[] }
  Shell.print m.output
  Shell.log manner.threshold m.log.toList
  match outcome with
  | .value _ => return (none, m)
  | .failure f => return (some f.message, m)
  | .stopped s =>
    Shell.complainLine s.message
    Shell.stop 2

/-- Runs programs one after the other on one machine, and says whether one of them failed. -/
def evaluateAll (manner : Manner) (host : Host) (fuel : Nat) :
    List Program → Machine → Shell (Bool × Machine)
  | [], m => return (false, m)
  | p :: rest, m => do
    match ← manner.evaluate host fuel p m with
    | (none, m) => manner.evaluateAll host fuel rest m
    | (some text, m) =>
      manner.report text
      let (_, m) ← manner.evaluateAll host fuel rest m
      return (true, m)

end Manner

def exitCode (failed : Bool) : Nat := if failed then 1 else 0

/-- The files of a run: those that are named, or else the main file of the manifest unless there
is a source text to run. -/
def entries (o : Options) (manifest : Option Manifest) : Shell (List String) := do
  if !o.files.isEmpty || o.source ≠ "" then return o.files
  match manifest with
  | some m => return [m.mainPath]
  | none =>
    Shell.error ("charly requires a source file (" ++ manifestName ++ " not found)")
    Shell.complain usage
    Shell.stop 1

/-- The level from which on entries of the log are shown. -/
def threshold (o : Options) (s : Settings) : Shell Log.Level := do
  let level ← Shell.orElse s.level fun e => do
    Shell.warning e.message
    return Log.warn
  return if o.debug then Log.debug else level

/-- Reads the files of a run in full, then runs them in order on one machine, so that what one file
binds at top level is there in the next. -/
def run (w : World) (fuel : Nat) (o : Options) : Shell Nat := do
  let s ← Shell.settings w.environment
  let manner : Manner := ⟨o, o.strict || s.strict, ← threshold o s, w.yaml⟩
  let cwd := w.files.workingDirectory
  let anchor := (o.files.head?.map Path.parent).getD cwd
  let manifest ← Shell.orElse (nearestManifest w.yaml w.files anchor) fun text =>
    Shell.fail ("failed to load manifest: " ++ text)
  let named ← entries o manifest
  let resolver ← Shell.resolver w s manifest
  let prelude := (manifest.map (·.preludePaths)).getD []
  let sources ← (prelude ++ named).mapM fun path =>
    Shell.orElse (readSource w.files path) fun e => Shell.fail e.message
  let text := if o.source = "" then [] else [SourceFile.ofText o.source cwd]
  let (programs, unread) ← manner.parseAll (sources ++ text)
  if o.parseOnly then return exitCode unread
  let host : Host :=
    { loader := some resolver.loader, strict := manner.strict, random := w.random }
  let (failed, _) ← manner.evaluateAll host fuel programs (.start (.ofText w.input))
  return exitCode (unread || failed)

end ScriptKit.Tool
