import ScriptKit.Package.ManifestFile

namespace ScriptKit.Package

def lockfileName : String := "package.lock"

/-- A dependency as it was resolved. The version is the pinned revision, or the word path. -/
structure LockedPackage where
  name : String
  version : String
  source : String
  checksum : String
  deriving DecidableEq

structure Lockfile where
  path : String
  root : String
  generated : String
  tool : String
  packages : List LockedPackage
  deriving DecidableEq

def LockedPackage.normalised (p : LockedPackage) : LockedPackage :=
  ⟨canonicalName p.name, Text.trim p.version, Text.trim p.source, Text.trim p.checksum⟩

namespace Lockfile

def new (root tool generated : String) : Lockfile :=
  ⟨"", canonicalName root, generated, Text.trim tool, []⟩

def sortPackages (ps : List LockedPackage) : List LockedPackage :=
  ps.mergeSort fun p q => decide (p.name ≤ q.name)

def normalised (l : Lockfile) : Lockfile :=
  { l with
    root := canonicalName l.root
    tool := Text.trim l.tool
    packages := sortPackages (l.packages.map LockedPackage.normalised) }

def find? (l : Lockfile) (name : String) : Option LockedPackage :=
  l.packages.find? fun p => p.name = canonicalName name

/-- Puts a package in the place of the first one with a given name. -/
def replaceFirst (name : String) (new : LockedPackage) : List LockedPackage → List LockedPackage
  | [] => []
  | p :: ps => if p.name = name then new :: ps else p :: replaceFirst name new ps

/-- Puts a package in the place of the one with its name, or adds it, and says whether anything
changed. -/
def upsert (l : Lockfile) (p : LockedPackage) : Lockfile × Bool :=
  match l.find? p.name with
  | some existing =>
    if existing = p then (l, false)
    else ({ l with packages := replaceFirst (canonicalName p.name) p l.packages }, true)
  | none => ({ l with packages := l.packages ++ [p] }.normalised, true)

/-- Drops the packages with other names than the given ones, and says whether there are any. -/
def prune (l : Lockfile) (keep : List String) : Lockfile × Bool :=
  let wanted := keep.map canonicalName
  let kept := l.packages.filter fun p => wanted.contains p.name
  ({ l with packages := kept }, kept.length ≠ l.packages.length)

open Yaml

def textNode (s : String) : Node := .scalar Tag.text.name s

def packageNode (p : LockedPackage) : Node :=
  .mapping "!!map" [
    (textNode "name", textNode p.name), (textNode "version", textNode p.version),
    (textNode "source", textNode p.source), (textNode "checksum", textNode p.checksum)]

def toNode (l : Lockfile) : Node :=
  .mapping "!!map" [
    (textNode "root", textNode l.root), (textNode "generated", textNode l.generated),
    (textNode "tool", textNode l.tool),
    (textNode "packages", .sequence "!!seq" (l.packages.map packageNode))]

abbrev DecodeLockfile := Decode Empty

section Documents

variable (doc : Document)

def setPackage (p : LockedPackage) (field : String) (n : Node) : DecodeLockfile LockedPackage := do
  match ← Decode.string doc n with
  | none => return p
  | some t =>
    return match field with
      | "name" => { p with name := t }
      | "version" => { p with version := t }
      | "source" => { p with source := t }
      | _ => { p with checksum := t }

def decodePackage (n : Node) : DecodeLockfile (Option LockedPackage) :=
  Decode.record doc ["name", "version", "source", "checksum"] true (setPackage doc)
    ⟨"", "", "", ""⟩ n

def setField (l : Lockfile) (field : String) (n : Node) : DecodeLockfile Lockfile := do
  match field with
  | "packages" => return { l with packages := ← Decode.list doc (decodePackage doc) n }
  | _ =>
    match ← Decode.string doc n with
    | none => return l
    | some t =>
      return match field with
        | "root" => { l with root := t }
        | "generated" => { l with generated := Text.trim t }
        | _ => { l with tool := t }

def decode (path : String) : Except (DecodeError Empty) Lockfile :=
  let blank : Lockfile := ⟨path, "", "", "", []⟩
  ((Decode.record doc ["root", "generated", "tool", "packages"] true (setField doc) blank
    doc.root).run).map fun l => (l.getD blank).normalised

end Documents

end Lockfile

inductive LockfileError
  | noLockfile
  | emptyPath
  | missingPath
  | unreadable (e : FileError)
  | noDocument (path : String)
  | malformed (path : String)
  | unwritable (path : String) (e : FileError)
  deriving DecidableEq

namespace LockfileError

def message : LockfileError → String
  | noLockfile => "lockfile: nil lockfile"
  | emptyPath => "lockfile: empty path"
  | missingPath => "lockfile: missing path"
  | unreadable e => e.message
  | noDocument path => "lockfile: parse " ++ path ++ ": EOF"
  | malformed path => "lockfile: parse " ++ path ++ ": " ++ malformedDocument
  | unwritable path e => "lockfile: write " ++ path ++ ": " ++ e.message

/-- Whether a file that was to be read or written does not exist. -/
def isMissing : LockfileError → Bool
  | unreadable e => e.isMissing
  | unwritable _ e => e.isMissing
  | _ => false

end LockfileError

namespace Lockfile

open Yaml

variable (yaml : Codec)

/-- A lockfile as text. -/
def render (l : Lockfile) : String := yaml.render l.toNode

def parse (path text : String) : Except LockfileError Lockfile :=
  match yaml.read text with
  | none => .error (.malformed path)
  | some none => .error (.noDocument path)
  | some (some doc) =>
    match decode doc path with
    | .error _ => .error (.malformed path)
    | .ok l => .ok l

def load (fs : FileSystem) (path : String) : Except LockfileError Lockfile :=
  if path = "" then .error .emptyPath
  else
    let place := fs.absolute path
    match fs.read place with
    | .ok text => parse yaml place text
    | .error e =>
      if e.reason = .isDirectory then .error (.malformed place) else .error (.unreadable e)

/-- What a lockfile is before it is written to a path: it knows the path, and a time if it has
none. -/
def prepared (l : Lockfile) (place now : String) : Lockfile :=
  { l with path := place, generated := if l.generated = "" then now else l.generated }.normalised

/-- Writes a lockfile to a path, or to its own one if that is empty. -/
def save (fs : FileSystem) (now : String) (lock : Option Lockfile) (path : String) :
    Except LockfileError (Lockfile × FileSystem) :=
  match lock with
  | none => .error .noLockfile
  | some l =>
    let target := if path = "" then l.path else path
    if target = "" then .error .missingPath
    else
      let place := fs.absolute target
      let ready := l.prepared place now
      match fs.write place (ready.render yaml) with
      | .ok written => .ok (ready, written)
      | .error e => .error (.unwritable place e)

end Lockfile

end ScriptKit.Package
