import ScriptKit.Package.Manifest
import ScriptKit.Yaml.Decode

namespace ScriptKit.Package

/-- What a reader of documents says about one that it cannot make sense of. -/
def malformedDocument : String := "yaml: the document does not have the expected form"

/-- Why a document is not taken for a manifest. -/
inductive ManifestProblem
  | dependenciesNotMapping
  | emptyDependencyName
  | dependencyKind (name tag : String)
  | dependencyMalformed (name : String)
  | listKind (tag : String)
  deriving DecidableEq

def ManifestProblem.message : ManifestProblem → String
  | dependenciesNotMapping => "manifest: dependencies must be a mapping"
  | emptyDependencyName => "manifest: dependency names must be non-empty"
  | dependencyKind name tag =>
    "manifest: dependency " ++ Text.quote name ++ ": expected string or mapping, found " ++ tag
  | dependencyMalformed name =>
    "manifest: dependency " ++ Text.quote name ++ ": " ++ malformedDocument
  | listKind tag => "manifest: expected string or sequence for list but found " ++ tag

inductive ManifestError
  | emptyPath
  | unreadable (path : String) (e : FileError)
  | noDocument (path : String)
  | malformed (path : String)
  | refused (path : String) (problem : ManifestProblem)
  | invalid (issues : List Manifest.Issue)
  deriving DecidableEq

namespace ManifestError

def message : ManifestError → String
  | emptyPath => "manifest: empty path"
  | unreadable path e => "manifest: open " ++ path ++ ": " ++ e.message
  | noDocument path => "manifest: " ++ path ++ " is empty"
  | malformed path => "manifest: parse " ++ path ++ ": " ++ malformedDocument
  | refused path problem => "manifest: parse " ++ path ++ ": " ++ problem.message
  | invalid [] => "manifest: invalid configuration"
  | invalid issues =>
    "manifest validation failed:" ++ String.join (issues.map fun i => "\n- " ++ i.message)

/-- Whether the file that was to be read does not exist. -/
def isMissing : ManifestError → Bool
  | unreadable _ e => e.isMissing
  | _ => false

end ManifestError

namespace Manifest

open Yaml

abbrev DecodeManifest := Decode ManifestProblem

section Documents

variable (doc : Document)

/-- Nodes whose tag says that they are null are not looked at any further, but have to be. -/
def isNull (n : Node) : Bool :=
  match doc.target n with
  | .scalar tag _ => tag = Tag.null.name
  | _ => false

def decodeList (n : Node) : DecodeManifest (List String) := do
  if isNull doc n then
    let _ ← Decode.string doc n
    return []
  match doc.target n with
  | .scalar _ text =>
    let t := Text.trim text
    return if t = "" then [] else [t]
  | .sequence _ items =>
    let texts ← items.mapM (Decode.string doc)
    return texts.map fun t => Text.trim (t.getD "")
  | .mapping tag _ => Decode.refuse (.listKind tag)
  | .alias _ _ => return []

def setSpec (d : DependencySpec) (field : String) (n : Node) : DecodeManifest DependencySpec := do
  match ← Decode.string doc n with
  | none => return d
  | some text =>
    let t := Text.trim text
    return match field with
      | "git" => { d with git := t }
      | "rev" => { d with rev := t }
      | "tag" => { d with tag := t }
      | "branch" => { d with branch := t }
      | _ => { d with path := t }

/-- A dependency is written as a path or as a mapping, which may be one that it is a part of. -/
def decodeSpec (name : String) (n : Node) : DecodeManifest DependencySpec :=
  match doc.target n with
  | .scalar tag text =>
    if tag = Tag.null.name then pure .empty
    else pure { DependencySpec.empty with path := Text.trim text }
  | .mapping tag es =>
    match (Decode.record doc ["git", "rev", "tag", "branch", "path"] false (setSpec doc) .empty
      (.mapping tag es)).run with
    | .ok d => pure (d.getD .empty)
    | .error _ => Decode.refuse (.dependencyMalformed name)
  | .sequence tag _ => Decode.refuse (.dependencyKind name tag)
  | .alias _ _ => Decode.refuse (.dependencyKind name "")

/-- Reads dependencies in the order in which they are written. Of two with the same name the later
one counts. -/
def decodeEntries : NameTable DependencySpec → List (Node × Node) →
    DecodeManifest (NameTable DependencySpec)
  | table, [] => pure table
  | table, (k, v) :: rest => do
    match doc.target k with
    | .scalar _ _ =>
      let name := canonicalName ((← Decode.string doc k).getD "")
      if name = "" then Decode.refuse .emptyDependencyName
      else
        let spec ← decodeSpec doc name v
        decodeEntries (table.insert name spec) rest
    | _ =>
      Decode.mismatch
      return table

def decodeDependencies (n : Node) : DecodeManifest (NameTable DependencySpec) := do
  if isNull doc n then
    let _ ← Decode.string doc n
    return .empty
  match doc.target n with
  | .mapping _ entries => decodeEntries doc .empty entries
  | _ => Decode.refuse .dependenciesNotMapping

def setField (m : Manifest) (field : String) (n : Node) : DecodeManifest Manifest := do
  match field with
  | "prelude" => return { m with prelude := ← decodeList doc n }
  | "dependencies" => return { m with dependencies := ← decodeDependencies doc n }
  | _ =>
    match ← Decode.string doc n with
    | none => return m
    | some text =>
      return match field with
        | "name" => { m with name := canonicalName text }
        | "version" => { m with version := Text.trim text }
        | _ => { m with main := Text.trim text }

def decode (path : String) : Except (DecodeError ManifestProblem) Manifest :=
  let blank : Manifest := ⟨path, "", "", "", [], .empty⟩
  ((Decode.record doc ["name", "version", "main", "prelude", "dependencies"] true (setField doc)
    blank doc.root).run).map (·.getD blank)

end Documents

section Files

variable (yaml : Codec)

/-- The manifest that a text describes. -/
def parse (path text : String) : Except ManifestError Manifest :=
  match yaml.read text with
  | none => .error (.malformed path)
  | some none => .error (.noDocument path)
  | some (some doc) =>
    match decode doc path with
    | .error .malformed => .error (.malformed path)
    | .error (.refused problem) => .error (.refused path problem)
    | .ok m => if m.issues.isEmpty then .ok m else .error (.invalid m.issues)

/-- Reads a manifest and checks it. -/
def load (fs : FileSystem) (path : String) : Except ManifestError Manifest :=
  if path = "" then .error .emptyPath
  else
    let place := fs.absolute path
    match fs.read place with
    | .ok text => parse yaml place text
    | .error e =>
      if e.reason = .isDirectory then .error (.malformed place) else .error (.unreadable place e)

end Files

/-- Why no manifest was found. -/
inductive FindError
  | notFound (origin : String)
  | file (e : FileError)
  deriving DecidableEq

def FindError.message : FindError → String
  | notFound origin =>
    "no " ++ manifestName ++ " found from " ++ origin ++ " upwards: " ++ manifestName ++
      " not found"
  | file e => e.message

/-- What the entry at a path decides about the search, if anything. -/
def decided (fs : FileSystem) (candidate : String) : Option (Except FindError String) :=
  match fs.stat candidate with
  | .ok (.file _) => some (.ok candidate)
  | .ok .directory => none
  | .error e => if e.isMissing then none else some (.error (.file e))

/-- The manifest of a directory, given by the names that lead to it last first. -/
def candidate (names : List String) : String :=
  Path.join [Path.rooted names.reverse, manifestName]

/-- Looks for a manifest in a directory and in those around it. -/
def findFrom (fs : FileSystem) (origin : String) : List String → Except FindError String
  | [] => (decided fs (candidate [])).getD (.error (.notFound origin))
  | name :: rest => (decided fs (candidate (name :: rest))).getD (findFrom fs origin rest)

/-- The manifest nearest to a file or directory. -/
def find (fs : FileSystem) (start : String) : Except FindError String :=
  let place := fs.absolute start
  let directory := if fs.isFile place then Path.parent place else place
  findFrom fs directory (Path.steps directory).reverse

end Manifest

end ScriptKit.Package
