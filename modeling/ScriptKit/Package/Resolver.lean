import ScriptKit.Evaluation.Machine
import ScriptKit.Package.Lockfile

namespace ScriptKit.Package

/-- The ending of source files, which targets can leave out. -/
def sourceExtension : String := ".charly"

/-- Why a target means no file. -/
inductive ResolveError
  | emptyTarget
  | unreadable (candidate : String) (e : FileError)
  | notFound (target directory : String)
  | manifest (e : ManifestError)
  | noEntry (directory : String) (e : FileError)
  deriving DecidableEq

namespace ResolveError

def message : ResolveError → String
  | emptyTarget => "loader: empty require target"
  | unreadable candidate e => "loader: stat " ++ candidate ++ ": " ++ e.message
  | notFound target directory =>
    "loader: cannot find " ++ Text.quote target ++ " from " ++ directory ++ ": file does not exist"
  | manifest e => e.message
  | noEntry directory e => "loader: directory " ++ directory ++ " has no entry file: " ++ e.message

def isMissing : ResolveError → Bool
  | emptyTarget => false
  | unreadable _ e => e.isMissing
  | notFound _ _ => true
  | manifest e => e.isMissing
  | noEntry _ e => e.isMissing

end ResolveError

/-- Finds files in a file system. Bare names can mean dependencies, whose directories are known by
their canonical names. The manifests of directories are read with a library for documents. -/
structure Resolver where
  yaml : Yaml.Codec
  files : FileSystem
  dependencies : NameTable String

namespace Resolver

def ofRoots (yaml : Yaml.Codec) (files : FileSystem) (roots : List (String × String)) :
    Resolver :=
  ⟨yaml, files, .ofList (roots.map fun (name, directory) => (canonicalName name, directory))⟩

/-- A target that names no place in a file system. -/
def isBareName (target : String) : Bool :=
  !(target.toList.contains '/' || target.toList.contains '\\' || Text.hasOpening "." target)

/-- The absolute path that a target means before any file is looked at. -/
def place (r : Resolver) (directory target : String) : String :=
  let dependency := if isBareName target then r.dependencies.find? (canonicalName target) else none
  match dependency with
  | some root => r.files.absolute root
  | none =>
    if Path.isAbsolute target then r.files.absolute target
    else r.files.absolute (Path.join [directory, target])

/-- The file that a directory stands for: the one that its manifest names, or the usual one. -/
def directoryEntry (r : Resolver) (directory : String) :
    Except ResolveError String × List Log.Entry :=
  let manifestPath := Path.join [directory, manifestName]
  let entry : Except ResolveError String :=
    match r.files.stat manifestPath with
    | .error _ => .ok (Path.join [directory, defaultMain])
    | .ok _ =>
      match Manifest.load r.yaml r.files manifestPath with
      | .ok m => .ok m.mainPath
      | .error e => .error (.manifest e)
  match entry with
  | .error e => (.error e, [])
  | .ok path =>
    match r.files.stat path with
    | .error e => (.error (.noEntry directory e), [])
    | .ok _ =>
      (.ok path, [⟨Log.debug, "resolved package directory", [("dir", directory), ("entry", path)]⟩])

/-- The first of some paths that exists. -/
def firstOf (r : Resolver) (directory target : String) :
    List String → Except ResolveError String × List Log.Entry
  | [] => (.error (.notFound target directory), [])
  | path :: rest =>
    match r.files.stat path with
    | .ok .directory => r.directoryEntry path
    | .ok (.file _) =>
      (.ok path, [⟨Log.debug, "resolved require target", [("target", target), ("path", path)]⟩])
    | .error e =>
      if e.isMissing then r.firstOf directory target rest else (.error (.unreadable path e), [])

/-- The file that a target means as seen from a directory. -/
def resolve (r : Resolver) (directory target : String) :
    Except ResolveError String × List Log.Entry :=
  let target := Text.trim target
  if target = "" then (.error .emptyTarget, [])
  else
    let path := r.place directory target
    let more := if Path.extension path = "" then [path ++ sourceExtension] else []
    r.firstOf directory target (path :: more)

end Resolver

/-- Why a source file could not be read. -/
structure ReadError where
  path : String
  cause : FileError
  deriving DecidableEq

def ReadError.message (e : ReadError) : String :=
  "loader: read " ++ e.path ++ ": " ++ e.cause.message

/-- Reads a source file. -/
def readSource (fs : FileSystem) (path : String) : Except ReadError SourceFile :=
  let place := fs.absolute path
  match fs.read place with
  | .ok content => .ok ⟨content, Path.name place, Path.parent place, place, false⟩
  | .error e => .error ⟨place, e⟩

/-- The loader of files that stay as they are. -/
def Resolver.loader (r : Resolver) : Loader where
  resolve _ directory target :=
    let (result, entries) := r.resolve directory target
    (result.mapError fun e => ⟨e.message, e.isMissing⟩, entries)
  load _ path :=
    (readSource r.files path).mapError fun e => ⟨e.message, e.cause.isMissing⟩

/-- The dependency that a lockfile does not know. -/
structure NotLocked where
  name : String
  deriving DecidableEq

def NotLocked.message (e : NotLocked) : String :=
  "dependency " ++ Text.quote e.name ++ " is not in " ++ lockfileName ++
    "; run `charly deps install`"

/-- The directory of each dependency: a path as seen from the manifest, or the checkout of the
locked version. -/
def Manifest.dependencyRoots (m : Manifest) (lock : Option Lockfile) (cache : String) :
    Except NotLocked (List (String × String)) :=
  m.dependencyNames.mapM fun name =>
    let spec := (m.dependencies.find? name).getD .empty
    if spec.path ≠ "" then .ok (name, m.locate spec.path)
    else
      match lock.bind (·.find? name) with
      | some p => .ok (name, checkoutDirectory cache name p.version)
      | none => .error ⟨name⟩

end ScriptKit.Package
