import Std.Time.DateTime
import ScriptKit.Calendar
import ScriptKit.Tool.Command
import ScriptKit.Yaml.Codec

namespace ScriptKit.Main

open Package

/-- The evaluations that may be nested, and the rounds of a loop, which is more than can be run. -/
def fuel : Nat := Number.tenTo 12

/-- The variables that settings depend on. -/
def settingVariables : List String :=
  ["HOME", "XDG_CONFIG_HOME", "CHARLY_CONFIG_DIR", "CHARLY_HOME"]

def environment : IO Tool.Environment := do
  let values ← settingVariables.mapM fun name => return (← IO.getEnv name).map (name, ·)
  return .ofList (values.filterMap id)

/-- Takes in a file, or a directory and what is below it. What is no text is left out, and links to
directories are not followed. -/
partial def gather (fs : FileSystem) (path : String) : IO FileSystem := do
  try
    let real ← IO.FS.realPath path
    if ← real.isDir then
      let mut fs := fs.put path .directory
      for entry in ← real.readDir do
        let below := Path.join [path, entry.fileName]
        let linked := (← IO.FS.realPath entry.path).toString ≠ entry.path.toString
        if !linked || !(← entry.path.isDir) then fs ← gather fs below
      return fs
    else return fs.put path (.file (← IO.FS.readFile path))
  catch _ => return fs

/-- Takes in a place and the directories around it. -/
def gatherAt (fs : FileSystem) (path : String) : IO FileSystem := do
  let place := fs.absolute path
  match fs.makeDirectories (Path.parent place) with
  | .ok fs => gather fs place
  | .error _ => return fs

/-- The files that can be the manifest of a directory. -/
def manifestPlaces (directory : String) : List String :=
  let around := "/" :: FileSystem.waypoints [] (Path.steps directory)
  around.map fun d => Path.join [d, manifestName]

/-- The places that a command looks at before it has read a manifest. -/
def firstPlaces (fs : FileSystem) (e : Tool.Environment) (command : Tool.Command) : List String :=
  let directories := match command with
    | .run o => fs.workingDirectory :: o.files.map fun f => Path.parent (fs.absolute f)
    | _ => [fs.workingDirectory]
  Tool.Settings.path e :: directories.flatMap manifestPlaces ++ directories

/-- The places that a manifest leads to. -/
def manifestReach (fs : FileSystem) (e : Tool.Environment) (m : Manifest) : List String :=
  let settings := (Tool.Settings.load fs e).toOption.getD .default
  let dependencies := m.dependencies.entries.filterMap fun (_, d) =>
    if d.path = "" then none else some (m.locate d.path)
  m.directory :: dependencies ++ (settings.cache fs e).toOption.toList

/-- The files that a command can reach. -/
def filesFor (cwd : String) (e : Tool.Environment) (command : Tool.Command) : IO FileSystem := do
  let fs ← (firstPlaces (.ofLists cwd [] []) e command).foldlM gatherAt (.ofLists cwd [] [])
  let anchor := match command with
    | .run o => (o.files.head?.map Path.parent).getD cwd
    | _ => cwd
  match Tool.nearestManifest Yaml.codec fs anchor with
  | .ok (some m) => (manifestReach fs e m).foldlM gatherAt fs
  | _ => return fs

partial def readAll (input : IO.FS.Stream) (text : String) : IO String := do
  let line ← input.getLine
  if line = "" then return text else readAll input (text ++ line)

/-- The input of a command. A terminal is not waited for. -/
def inputFor (command : Tool.Command) : IO String := do
  let stdin ← IO.getStdin
  match command with
  | .run _ => if ← stdin.isTty then return "" else readAll stdin ""
  | _ => return ""

/-- What a command is given. Other numbers are random in each run. There is no library for
repositories. -/
def world (files : FileSystem) (e : Tool.Environment) (input : String) : IO Tool.World := do
  let now ← Std.Time.Timestamp.now
  let seed ← IO.rand 0 (Number.twoTo 31)
  return {
    files := files
    environment := e
    input := input
    now := Calendar.timestamp now.toSecondsSinceUnixEpoch.val.toNat
    yaml := Yaml.codec
    git := .none
    random := fun i => Number.scattered (seed + i)
    numbers := fun _ i => seed + i }

/-- Brings what a command has changed to the disk. -/
def store (before after : FileSystem) : IO Unit :=
  after.entries.entries.forM fun (path, entry) => do
    if before.entries.find? path = some entry then return
    match entry with
    | .directory => IO.FS.createDirAll path
    | .file content => IO.FS.writeFile path content

end ScriptKit.Main

/-- Runs the command that the arguments ask for. -/
def main (arguments : List String) : IO UInt32 := do
  let cwd ← IO.currentDir
  let environment ← ScriptKit.Main.environment
  let command := ScriptKit.Tool.Command.ofArguments arguments
  let files ← ScriptKit.Main.filesFor cwd.toString environment command
  let input ← ScriptKit.Main.inputFor command
  let world ← ScriptKit.Main.world files environment input
  let (code, console) := ScriptKit.Tool.runArguments world ScriptKit.Main.fuel arguments
  IO.print console.output
  IO.eprint console.errors
  ScriptKit.Main.store files console.files
  return code.toUInt32
