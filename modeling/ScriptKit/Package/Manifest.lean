import ScriptKit.FileSystem
import ScriptKit.NameTable
import ScriptKit.Package.Name
import ScriptKit.Text.Quoted

namespace ScriptKit.Package

def manifestName : String := "package.yml"

/-- The entry file of a directory that does not name one. -/
def defaultMain : String := "main.charly"

/-- Where a dependency comes from: a repository at a revision, tag or branch, or a path. What is
not given is empty. -/
structure DependencySpec where
  git : String
  rev : String
  tag : String
  branch : String
  path : String
  deriving DecidableEq

structure Manifest where
  path : String
  name : String
  version : String
  main : String
  prelude : List String
  dependencies : NameTable DependencySpec
  deriving DecidableEq

namespace DependencySpec

def empty : DependencySpec := ⟨"", "", "", "", ""⟩

inductive Issue
  | noSource
  | twoSources
  | notOnePin
  | pinWithoutGit
  deriving DecidableEq

def Issue.message : Issue → String
  | noSource => "must specify git or path"
  | twoSources => "path overrides cannot specify a git source"
  | notOnePin => "git dependencies require exactly one of rev, tag or branch"
  | pinWithoutGit => "rev, tag and branch apply only to git dependencies"

def pins (d : DependencySpec) : List String :=
  [d.rev, d.tag, d.branch].filter (· ≠ "")

def issues (d : DependencySpec) : List Issue :=
  let source :=
    if d.git = "" && d.path = "" then [Issue.noSource]
    else if d.git ≠ "" && d.path ≠ "" then [.twoSources]
    else []
  let pin :=
    if d.git ≠ "" && d.pins.length ≠ 1 then [Issue.notOnePin]
    else if d.git = "" && !d.pins.isEmpty then [.pinWithoutGit]
    else []
  source ++ pin

end DependencySpec

namespace Manifest

inductive Issue
  | noName
  | emptyPrelude (index : Nat)
  | dependency (name : String) (issue : DependencySpec.Issue)
  deriving DecidableEq

def Issue.message : Issue → String
  | noName => "name must be provided"
  | emptyPrelude i => "prelude[" ++ toString i ++ "] must be a non-empty path"
  | dependency name issue => "dependencies." ++ name ++ ": " ++ issue.message

def directory (m : Manifest) : String := Path.parent m.path

/-- A path as seen from the directory of the manifest. -/
def locate (m : Manifest) (p : String) : String :=
  if Path.isAbsolute p then Path.clean p else Path.join [m.directory, p]

/-- The entry file of the package. -/
def mainPath (m : Manifest) : String :=
  m.locate (if m.main = "" then defaultMain else m.main)

/-- The files that run before the entry file. -/
def preludePaths (m : Manifest) : List String := m.prelude.map m.locate

/-- The names of the dependencies, sorted. -/
def dependencyNames (m : Manifest) : List String := Text.sort m.dependencies.names

def issues (m : Manifest) : List Issue :=
  let name := if m.name = "" then [Issue.noName] else []
  let prelude := m.prelude.zipIdx.filterMap fun (p, i) =>
    if p = "" then some (Issue.emptyPrelude i) else none
  let dependencies := m.dependencyNames.flatMap fun n =>
    match m.dependencies.find? n with
    | some d => d.issues.map (Issue.dependency n)
    | none => []
  name ++ prelude ++ dependencies

end Manifest

end ScriptKit.Package
