import ScriptKit.NameTable
import ScriptKit.Path

namespace ScriptKit

/-- Why a file operation fails. -/
inductive FileError.Reason
  | notExist
  | exist
  | namesTaken
  | notDirectory
  | isDirectory
  | nameTooLong
  | invalid
  deriving DecidableEq

def FileError.Reason.text : Reason → String
  | notExist => "no such file or directory"
  | exist => "file exists"
  | namesTaken => "file already exists"
  | notDirectory => "not a directory"
  | isDirectory => "is a directory"
  | nameTooLong => "file name too long"
  | invalid => "invalid argument"

structure FileError where
  operation : String
  path : String
  reason : FileError.Reason
  deriving DecidableEq

def FileError.message (e : FileError) : String :=
  e.operation ++ " " ++ e.path ++ ": " ++ e.reason.text

def FileError.isMissing (e : FileError) : Bool :=
  e.reason = .notExist

inductive Entry
  | file (content : String)
  | directory
  deriving DecidableEq

/-- Files and directories by absolute path, and the directory that relative paths start from. Files
hold text. There are no links, no permissions and no entries of other kinds. -/
structure FileSystem where
  entries : NameTable Entry
  workingDirectory : String

namespace FileSystem

/-- The longest name of a file in bytes. -/
def maxNameLength : Nat := 255

/-- The longest path in bytes. -/
def maxPathLength : Nat := 4095

/-- Follows names from an entry on. The names that led there are given last first. -/
def follow (fs : FileSystem) : List String → Entry → List String →
    Except FileError.Reason Entry
  | _, entry, [] => .ok entry
  | _, .file _, _ :: _ => .error .notDirectory
  | taken, .directory, name :: rest =>
    if name = "." then fs.follow taken .directory rest
    else if name = ".." then fs.follow (taken.drop 1) .directory rest
    else if maxNameLength < name.utf8ByteSize then .error .nameTooLong
    else match fs.entries.find? (Path.rooted (name :: taken).reverse) with
      | none => .error .notExist
      | some entry => fs.follow (name :: taken) entry rest

/-- The names of a path; a slash at its end asks for a directory. -/
def namesOf (path : String) : List String :=
  Path.components path ++ if path.toList.getLast? = some '/' then ["."] else []

/-- The names that lead to a path from the root. -/
def wayTo (fs : FileSystem) (path : String) : List String :=
  if Path.isAbsolute path then namesOf path else Path.components fs.workingDirectory ++ namesOf path

def find (fs : FileSystem) (path : String) : Except FileError.Reason Entry :=
  if path.toList.contains (Char.ofNat 0) then .error .invalid
  else if path = "" then .error .notExist
  else if maxPathLength < path.utf8ByteSize then .error .nameTooLong
  else fs.follow [] .directory (fs.wayTo path)

/-- The place of a path: the names that lead there from the root without detours. -/
def place (fs : FileSystem) (path : String) : List String :=
  ((fs.wayTo path).foldl (Path.step true) []).reverse

def absolute (fs : FileSystem) (path : String) : String :=
  Path.absolute fs.workingDirectory path

def fails {α : Type} (operation path : String) (reason : FileError.Reason) : Except FileError α :=
  .error ⟨operation, path, reason⟩

/-- What there is at a path; the operation is named in the error. -/
def inspect (fs : FileSystem) (operation path : String) : Except FileError Entry :=
  match fs.find path with
  | .ok entry => .ok entry
  | .error reason => fails operation path reason

def stat (fs : FileSystem) (path : String) : Except FileError Entry :=
  fs.inspect "stat" path

def isDirectory (fs : FileSystem) (path : String) : Bool :=
  match fs.find path with
  | .ok .directory => true
  | _ => false

def isFile (fs : FileSystem) (path : String) : Bool :=
  match fs.find path with
  | .ok (.file _) => true
  | _ => false

def read (fs : FileSystem) (path : String) : Except FileError String :=
  match fs.inspect "open" path with
  | .ok (.file content) => .ok content
  | .ok .directory => fails "read" path .isDirectory
  | .error e => .error e

def put (fs : FileSystem) (path : String) (entry : Entry) : FileSystem :=
  { fs with entries := fs.entries.insert (fs.absolute path) entry }

/-- Writes a whole file in a directory that exists. -/
def write (fs : FileSystem) (path content : String) : Except FileError FileSystem :=
  match fs.find path with
  | .ok .directory => fails "open" path .isDirectory
  | .ok (.file _) => .ok (fs.put path (.file content))
  | .error .notExist =>
    if path ≠ "" && fs.isDirectory (Path.parent (fs.absolute path)) then
      .ok (fs.put path (.file content))
    else fails "open" path .notExist
  | .error reason => fails "open" path reason

/-- The paths that a list of names passes through. -/
def waypoints (taken : List String) : List String → List String
  | [] => []
  | name :: rest => Path.rooted (taken ++ [name]) :: waypoints (taken ++ [name]) rest

/-- Makes a directory and those around it, where they are missing. -/
def makeDirectories (fs : FileSystem) (path : String) : Except FileError FileSystem :=
  (waypoints [] (Path.steps (fs.absolute path))).foldlM (fun fs place =>
    match fs.find place with
    | .ok .directory => .ok fs
    | .ok (.file _) => fails "mkdir" place .notDirectory
    | .error .notExist => .ok (fs.put place .directory)
    | .error reason => fails "mkdir" place reason) fs

/-- Makes a directory in one that exists. -/
def makeDirectory (fs : FileSystem) (path : String) : Except FileError FileSystem :=
  let place := fs.place path
  match fs.find (Path.rooted place) with
  | .ok _ => fails "mkdir" path .exist
  | .error .notExist =>
    if fs.isDirectory (Path.rooted place.dropLast) then
      .ok { fs with entries := fs.entries.insert (Path.rooted place) .directory }
    else fails "mkdir" path .notExist
  | .error reason => fails "mkdir" path reason

/-- The names that are tried for a temporary directory. -/
def maxAttempts : Nat := 10000

/-- Makes the first of some directories that is not there, if any. -/
def makeNew (make : String → Except FileError FileSystem) (path : Nat → String)
    (exhausted : FileError) : Nat → Except FileError (String × FileSystem)
  | 0 => .error exhausted
  | attempts + 1 =>
    match make (path attempts) with
    | .ok made => .ok (path attempts, made)
    | .error e =>
      if e.reason = .exist then makeNew make path exhausted attempts else .error e

/-- Makes a directory with a new name in one that exists. The name begins as it is given and ends in
a number, of which there is one for each attempt. -/
def makeTemporary (fs : FileSystem) (directory beginning : String) (number : Nat → Nat) :
    Except FileError (String × FileSystem) :=
  let path (attempt : Nat) := Path.join [directory, beginning ++ toString (number attempt)]
  let pattern := directory ++ "/" ++ Path.join [directory, beginning ++ "*"]
  match makeNew fs.makeDirectory path ⟨"mkdirtemp", pattern, .namesTaken⟩ maxAttempts with
  | .ok made => .ok made
  | .error e =>
    match fs.stat directory with
    | .error e' => .error (if e.isMissing && e'.isMissing then e' else e)
    | .ok _ => .error e

/-- Whether a path leads to a place, or further on from there. -/
def isWithin (place : List String) (path : String) : Bool :=
  place.isPrefixOf (Path.components path)

/-- What is left without a place and all that is below it. -/
def without (fs : FileSystem) (place : List String) : FileSystem :=
  { fs with entries := ⟨fs.entries.entries.filter fun e => !isWithin place e.1⟩ }

/-- Removes what there is at a path, and all that is below it. -/
def removeAll (fs : FileSystem) (path : String) : Except FileError FileSystem :=
  match fs.find (Path.rooted (fs.place path)) with
  | .ok _ => .ok (fs.without (fs.place path))
  | .error .notExist => .ok fs
  | .error reason => fails "unlinkat" path reason

/-- Removes what there is at a path, if that is possible. -/
def discard (fs : FileSystem) (path : String) : FileSystem :=
  match fs.removeAll path with
  | .ok left => left
  | .error _ => fs

/-- Brings a place, and all that is below it, to another place. -/
def relocate (fs : FileSystem) (source target : List String) : FileSystem :=
  let rest := (fs.without source).without target
  let moved := fs.entries.entries.filterMap fun (path, entry) =>
    if isWithin source path then
      some (Path.rooted (target ++ (Path.components path).drop source.length), entry)
    else none
  { rest with entries := ⟨rest.entries.entries ++ moved⟩ }

/-- Gives a directory a path at which there is nothing. -/
def rename (fs : FileSystem) (old new : String) : Except FileError FileSystem :=
  let refuse (reason : FileError.Reason) : Except FileError FileSystem :=
    fails "rename" (old ++ " " ++ new) reason
  let source := fs.place old
  let target := fs.place new
  match fs.find (Path.rooted source), fs.find (Path.rooted target) with
  | .error reason, _ => refuse reason
  | .ok _, .ok .directory => refuse .exist
  | .ok _, .ok (.file _) => refuse .notDirectory
  | .ok _, .error .notExist =>
    if !fs.isDirectory (Path.rooted target.dropLast) then refuse .notExist
    else if source.isPrefixOf target then refuse .invalid
    else .ok (fs.relocate source target)
  | .ok _, .error reason => refuse reason

/-- The order of a walk that visits the entries of each directory by name. -/
def comesBefore : List String → List String → Bool
  | [], _ => true
  | _ :: _, [] => false
  | a :: as, b :: bs => a < b || (a = b && comesBefore as bs)

/-- The files below a directory by their names from there on, in the order of a walk. -/
def filesBelow (fs : FileSystem) (directory : String) : List (List String × String) :=
  let base := Path.steps (fs.absolute directory)
  let below (e : String × Entry) : Option (List String × String) :=
    match e with
    | (path, .file content) =>
      let names := Path.components path
      if base.isPrefixOf names then some (names.drop base.length, content) else none
    | (_, .directory) => none
  (fs.entries.entries.filterMap below).mergeSort fun a b => comesBefore a.1 b.1

/-- A file system with the given files and directories and those around them. -/
def ofLists (workingDirectory : String) (files : List (String × String))
    (directories : List String) : FileSystem :=
  let withDirectories (fs : FileSystem) (path : String) : FileSystem :=
    match fs.makeDirectories path with
    | .ok fs => fs
    | .error _ => fs
  let fs := (workingDirectory :: directories).foldl withDirectories ⟨.empty, workingDirectory⟩
  files.foldl (fun fs (path, content) =>
    (withDirectories fs (Path.parent (fs.absolute path))).put path (.file content)) fs

end FileSystem

end ScriptKit
