import ScriptKit.Package.Install
import ScriptKit.Tool.Run

namespace ScriptKit.Tool

open Package

def toolVersion : String := "charly 0.0.0-dev"

/-- What a list of arguments asks for. -/
inductive Command
  | help
  | version
  | run (options : Options)
  | installDependencies
  | wrongOption (e : OptionError)
  | noSubcommand
  | unknownSubcommand (name : String)
  | extraArguments (arguments : List String)
  deriving DecidableEq

namespace Command

def ofOptions (arguments : List String) : Command :=
  match Options.ofArguments arguments with
  | (o, none) => run o
  | (_, some e) => wrongOption e

def ofDependencyArguments : List String → Command
  | [] => noSubcommand
  | ["install"] => installDependencies
  | "install" :: more => extraArguments more
  | name :: _ => unknownSubcommand name

def ofArguments : List String → Command
  | "--help" :: _ | "-h" :: _ => help
  | "--version" :: _ | "-V" :: _ | "version" :: _ => version
  | "deps" :: rest => ofDependencyArguments rest
  | "run" :: rest => ofOptions rest
  | arguments => ofOptions arguments

end Command

/-- The lockfile that an installation starts from, and whether it is a new one. -/
def startingLockfile (w : World) (m : Manifest) : Shell (Lockfile × Bool) := do
  match Lockfile.load w.yaml w.files (lockfilePath m) with
  | .ok lock =>
    if lock.root ≠ m.name then Shell.refuse (ForeignLockfile.mk lock.root m.name).message
    return ({ lock with path := lockfilePath m, tool := toolVersion }, false)
  | .error e =>
    if !e.isMissing then Shell.refuse ("failed to read lockfile: " ++ e.message)
    return ({ Lockfile.new m.name toolVersion w.now with path := lockfilePath m }, true)

/-- Writes a lockfile if it is new or changed. -/
def keepLockfile (w : World) (lock : Lockfile) (changed created : Bool) : Shell Unit := do
  if changed || created then
    let action := if created then "Created" else "Updated"
    let saved := Lockfile.save w.yaml (← Shell.files) w.now (some lock) lock.path
    let (written, fs) ← Shell.orElse saved fun e =>
      Shell.refuse ("failed to write lockfile: " ++ e.message)
    Shell.setFiles fs
    Shell.printLine (action ++ " " ++ lockfileName ++ ": " ++ written.path)
  else Shell.printLine (lockfileName ++ " already up to date: " ++ lock.path)

/-- Installs the dependencies of the nearest manifest. -/
def installDependencies (w : World) : Shell Nat := do
  let unreadable {α : Type} (text : String) : Shell α :=
    Shell.refuse ("failed to read manifest: " ++ text)
  let path ← Shell.orElse (Manifest.find w.files w.files.workingDirectory) fun e =>
    unreadable e.message
  let m ← Shell.orElse (Manifest.load w.yaml w.files path) fun e => unreadable e.message
  let s ← Shell.settings w.environment
  let cache ← Shell.orElse (s.cache w.files w.environment) fun e => Shell.refuse e.message
  Shell.printLine ("Manifest: " ++ m.path)
  Shell.printLine ("Root package: " ++ m.name)
  Shell.printLine ("Dependencies: " ++ toString m.dependencies.entries.length)
  Shell.printLine ("Cache directory: " ++ cache)
  let (lock, created) ← startingLockfile w m
  let (result, fs) := (Installer.mk m cache w.git w.numbers).install w.files lock
  Shell.setFiles fs
  let progress ← Shell.orElse result fun e =>
    Shell.refuse ("failed to resolve dependencies: " ++ e.message)
  progress.lines.forM Shell.printLine
  keepLockfile w progress.lock progress.changed created
  Shell.printLine "Dependencies installed."
  return 0

namespace Command

def execute (w : World) (fuel : Nat) : Command → Shell Nat
  | help => do
    Shell.print usage
    return 0
  | version => do
    Shell.printLine toolVersion
    return 0
  | run o => Tool.run w fuel o
  | installDependencies => Tool.installDependencies w
  | wrongOption e => do
    Shell.complainLine e.message
    Shell.complain usage
    return 1
  | noSubcommand => Shell.refuse "charly deps requires a subcommand (install)"
  | unknownSubcommand name => Shell.refuse ("unknown deps subcommand " ++ Text.quote name)
  | extraArguments arguments =>
    Shell.refuse ("charly deps install does not take arguments (received " ++
      " ".intercalate arguments ++ ")")

end Command

/-- Runs the command that a list of arguments asks for, and gives its exit code. -/
def runArguments (w : World) (fuel : Nat) (arguments : List String) : Nat × Console :=
  Shell.finish w.files ((Command.ofArguments arguments).execute w fuel)

end ScriptKit.Tool
