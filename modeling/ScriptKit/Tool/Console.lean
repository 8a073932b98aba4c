import ScriptKit.Log
import ScriptKit.Package.Checkout
import ScriptKit.Tool.Settings
import ScriptKit.Yaml.Node

namespace ScriptKit.Tool

/-- What a command is given: the files, the variables around it, its input and the time, the
libraries for documents and for repositories, and random numbers, for programs and for the names of
temporary directories. -/
structure World where
  files : FileSystem
  environment : Environment
  input : String
  now : String
  yaml : Yaml.Codec
  git : Package.Git
  random : Nat → Float
  numbers : String → Nat → Nat

/-- What a command leaves behind. -/
structure Console where
  output : String
  errors : String
  files : FileSystem

/-- A command that may stop early with an exit code. What it has left behind stays. -/
abbrev Shell := ExceptT Nat (StateM Console)

namespace Shell

def print (text : String) : Shell Unit :=
  modify fun c => { c with output := c.output ++ text }

def printLine (text : String) : Shell Unit := print (text ++ "\n")

def complain (text : String) : Shell Unit :=
  modify fun c => { c with errors := c.errors ++ text }

def complainLine (text : String) : Shell Unit := complain (text ++ "\n")

def stop {α : Type} (code : Nat) : Shell α := throw code

def files : Shell FileSystem := do return (← get).files

def setFiles (fs : FileSystem) : Shell Unit :=
  modify fun c => { c with files := fs }

/-- Stops with a complaint. -/
def refuse {α : Type} (text : String) : Shell α := do
  complainLine text
  stop 1

def warning (text : String) : Shell Unit := complainLine ("warning: " ++ text)

def error (text : String) : Shell Unit := complainLine ("error: " ++ text)

/-- Stops with an error. -/
def fail {α : Type} (text : String) : Shell α := do
  error text
  stop 1

/-- Writes the entries that are grave enough to the log. -/
def log (threshold : Log.Level) (entries : List Log.Entry) : Shell Unit :=
  complain (String.join ((entries.filter fun e => threshold ≤ e.level).map (·.render ++ "\n")))

/-- The value of a result, or else what is made of its error. -/
def orElse {ε α : Type} (r : Except ε α) (otherwise : ε → Shell α) : Shell α :=
  match r with
  | .ok a => pure a
  | .error e => otherwise e

/-- Reads the settings. Settings that cannot be read are left at their defaults with a warning. -/
def settings (environment : Environment) : Shell Settings := do
  orElse (Settings.load (← files) environment) fun e => do
    warning e.message
    return Settings.default

/-- Runs a command. The exit code of one that comes to its end is the value it gives. -/
def finish (fs : FileSystem) (command : Shell Nat) : Nat × Console :=
  match (command.run).run ⟨"", "", fs⟩ with
  | (.ok code, c) => (code, c)
  | (.error code, c) => (code, c)

end Shell

end ScriptKit.Tool
