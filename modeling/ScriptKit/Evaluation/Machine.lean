import ScriptKit.Number.Scattered
import ScriptKit.Program
import ScriptKit.Value.Scope

namespace ScriptKit

/-- Why a target could not be resolved or read, and whether that is for want of a file. -/
structure LoadError where
  reason : String
  missing : Bool

/-- Where modules come from: a target is resolved to a path as seen from a directory, and a file
is read by its path. Files come and go, so an answer may depend on how many targets have been
resolved before, or on how often the path has been asked for. -/
structure Loader where
  resolve : Nat → String → String → Except LoadError String × List Log.Entry
  load : Nat → String → Except LoadError SourceFile

/-- Why a text could not be written in full, and how many of its characters were written. -/
structure Refusal where
  taken : Nat
  reason : String

/-- What is fixed around an evaluation. A strict host refuses files that were not read in full. A
host gives random numbers one after the other, and may refuse to write some of the texts. -/
structure Host where
  loader : Option Loader := none
  strict : Bool := false
  colored : Bool := false
  random : Nat → Float := Number.scattered
  refusal : Nat → Option Refusal := fun _ => none

/-- What is left to be read: characters, and why it cannot be read further at some places. -/
abbrev Input := List (Except String Char)

def Input.ofText (text : String) : Input := text.toList.map .ok

/-- The files that have been loaded, in load order, with the value each of them gave. -/
abbrev Session := NameTable Value

namespace Session

def record (s : Session) (path : String) (v : Value) : Session := s.insert path v

def forget (s : Session) (path : String) : Session := s.erase path

def value? (s : Session) (path : String) : Option Value := s.find? path

end Session

/-- How often a host has been asked: for random numbers, to write texts, to resolve targets, and for
the files of paths. -/
structure Asked where
  numbers : Nat := 0
  texts : Nat := 0
  targets : Nat := 0
  files : NameTable Nat := .empty

namespace Asked

/-- How often the file of a path has been asked for. -/
def times (a : Asked) (path : String) : Nat := (a.files.find? path).getD 0

def forNumber (a : Asked) : Asked := { a with numbers := a.numbers + 1 }

def forText (a : Asked) : Asked := { a with texts := a.texts + 1 }

def forTarget (a : Asked) : Asked := { a with targets := a.targets + 1 }

def forFile (path : String) (a : Asked) : Asked :=
  { a with files := a.files.insert path (a.times path + 1) }

end Asked

/-- Everything an evaluation changes, and what it has asked the host for. -/
structure Machine where
  store : Store
  session : Session
  output : String
  input : Input
  log : Array Log.Entry
  asked : Asked

namespace Machine

/-- The scope of every program that is run at top level. -/
def rootScope : ScopeId := 0

def start (input : Input) : Machine where
  store := (Store.empty.newScope none).2
  session := .empty
  output := ""
  input := input
  log := #[]
  asked := {}

/-- Marks a path that has no entry as in progress. -/
def mark (path : String) (entry : Option Value) (m : Machine) : Machine :=
  if entry.isNone then { m with session := m.session.record path .null } else m

/-- Gives a path the entry that it had. -/
def reset (path : String) (entry : Option Value) (m : Machine) : Machine :=
  match entry with
  | some v => { m with session := m.session.record path v }
  | none => { m with session := m.session.forget path }

end Machine

/-- Why an evaluation fails. A fault has a location once it has passed a node; a device that fails
has none. -/
inductive Failure
  | fault (fault : Fault) (location : Location)
  | lexical (error : Token.LexError) (file : String)
  | incomplete (diagnostic : Diagnostic) (file : String)
  | device (reason : String)

namespace Failure

/-- Gives a fault a location unless it has one. -/
def locate (place : Location) : Failure → Failure
  | fault f location => fault f (if location.line = 0 then place else location)
  | other => other

def message : Failure → String
  | fault f location =>
    if location.line = 0 then f.message else location.render ++ ": " ++ f.message
  | lexical e file => e.message file
  | incomplete d file => d.render file
  | device reason => reason

end Failure

/-- Why an evaluation breaks off: it is nested too deeply for its fuel, or it makes a text that is
too long for any machine. Nothing that has been changed is undone then. -/
inductive Stop
  | exhausted
  | overflow

def Stop.message : Stop → String
  | exhausted => "the evaluation is nested too deeply"
  | overflow => "a repeated text is too long"

inductive Outcome (α : Type)
  | value (a : α)
  | failure (f : Failure)
  | stopped (s : Stop)

/-- A computation on a machine. What it has changed stays changed when it fails. -/
def Eval (α : Type) : Type := Machine → Outcome α × Machine

namespace Eval

variable {α β : Type}

@[always_inline, inline]
def ret (a : α) : Eval α := fun m => (.value a, m)

@[always_inline, inline]
def andThen (x : Eval α) (f : α → Eval β) : Eval β := fun m =>
  match x m with
  | (.value a, m) => f a m
  | (.failure e, m) => (.failure e, m)
  | (.stopped s, m) => (.stopped s, m)

instance : Monad Eval where
  pure := ret
  bind := andThen

def fail (e : Failure) : Eval α := fun m => (.failure e, m)

def raise (f : Fault) : Eval α := fail (.fault f .nowhere)

def stop (s : Stop) : Eval α := fun m => (.stopped s, m)

def session : Eval Session := fun m => (.value m.session, m)

@[inline]
def update (f : Machine → Machine) : Eval Unit := fun m => (.value (), f m)

def ofExcept : Except Fault α → Eval α
  | .ok a => pure a
  | .error f => raise f

/-- Reads the store. -/
@[inline]
def query (f : Store → α) : Eval α := fun m => (.value (f m.store), m)

/-- Takes a value from the store and changes it. -/
@[inline]
def allocate (f : Store → α × Store) : Eval α := fun ⟨store, session, output, input, log, asked⟩ =>
  match f store with
  | (a, store) => (.value a, ⟨store, session, output, input, log, asked⟩)

/-- Changes the store by what was found in it, or fails and leaves it as it is. -/
@[inline]
def attempt (check : Store → Except Fault α) (act : α → Store → β × Store) : Eval β := fun m =>
  match check m.store with
  | .ok a => allocate (act a) m
  | .error e => (.failure (.fault e .nowhere), m)

/-- Binds a name in the scope that is found for it. -/
@[inline]
def bindIn (find : Store → Except Fault ScopeId) (name : String) (v : Value) : Eval Value :=
  attempt find fun scope s => (v, s.bind scope name v)

/-- Asks the host for something. -/
@[inline]
def ask (answer : Asked → α) (next : Asked → Asked) : Eval α := fun m =>
  (.value (answer m.asked), { m with asked := next m.asked })

def draw (host : Host) : Eval Float := ask (fun a => host.random a.numbers) .forNumber

def resolve (loader : Loader) (directory target : String) :
    Eval (Except LoadError String × List Log.Entry) :=
  ask (fun a => loader.resolve a.targets directory target) .forTarget

def load (loader : Loader) (path : String) : Eval (Except LoadError SourceFile) :=
  ask (fun a => loader.load (a.times path) path) (.forFile path)

def put (text : String) : Eval Unit := update fun m => { m with output := m.output ++ text }

/-- Writes a text, or a part of it. -/
def write (host : Host) (text : String) : Eval Unit := do
  match ← ask (fun a => host.refusal a.texts) .forText with
  | none => put text
  | some refusal =>
    put (String.ofList (text.toList.take refusal.taken))
    fail (.device refusal.reason)

def note (entry : Log.Entry) : Eval Unit := update fun m => { m with log := m.log.push entry }

def noteAll (entries : List Log.Entry) : Eval Unit :=
  update fun m => { m with log := m.log ++ entries.toArray }

/-- Reads the next line of the input, its line feed included. What has been read of a line that
cannot be read to its end is lost. -/
def readLine : Eval (Option String) := fun m =>
  match m.input.span fun c => c.toOption.any (· ≠ '\n') with
  | ([], []) => (.value none, m)
  | (_, .error reason :: rest) => (.failure (.device reason), { m with input := rest })
  | (line, rest) =>
    let text := String.ofList ((line ++ rest.take 1).filterMap Except.toOption)
    (.value (some text), { m with input := rest.drop 1 })

/-- A computation whose faults are given a location. -/
@[inline]
def locating (place : Location) (x : Eval α) : Eval α := fun m =>
  match x m with
  | (.failure e, m) => (.failure (e.locate place), m)
  | other => other

/-- A computation whose failure is followed by a change of the machine. -/
def undoing (undo : Machine → Machine) (x : Eval α) : Eval α := fun m =>
  match x m with
  | (.failure e, m) => (.failure e, undo m)
  | other => other

end Eval

end ScriptKit
