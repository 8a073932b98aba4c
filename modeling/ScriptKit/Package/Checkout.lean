import ScriptKit.FileSystem
import ScriptKit.Package.Manifest

namespace ScriptKit.Package

/-- A revision of a repository: how the repository calls it, and how the manifest does. -/
structure Pin where
  revision : String
  descriptor : String
  deriving DecidableEq

/-- The pin of a dependency: a revision goes before a tag, and a tag before a branch. -/
def DependencySpec.pin? (d : DependencySpec) : Option Pin :=
  let rev := Text.trim d.rev
  let tag := Text.trim d.tag
  let branch := Text.trim d.branch
  if rev ≠ "" then some ⟨rev, rev⟩
  else if tag ≠ "" then some ⟨"refs/tags/" ++ tag, tag⟩
  else if branch ≠ "" then some ⟨"refs/heads/" ++ branch, branch⟩
  else none

/-- The version of a checkout: the commit, with the descriptor before it if that says more. -/
def pinnedVersion (descriptor commit : String) : String :=
  let c := Text.trim commit
  let d := Text.trim descriptor
  if c = "" then d
  else if d = "" || d = c then c
  else d ++ "@" ++ c

/-- Why a dependency could not be installed. -/
inductive InstallError
  | file (e : FileError)
  | notDirectory (path : String)
  | noPin
  | clone (url reason : String)
  | resolve (revision reason : String)
  | worktree (reason : String)
  | checkout (revision reason : String)
  deriving DecidableEq

def InstallError.message : InstallError → String
  | file e => e.message
  | notDirectory path => "path " ++ path ++ " is not a directory"
  | noPin => "git dependencies require rev, tag, or branch"
  | clone url reason => "git clone " ++ url ++ ": " ++ reason
  | resolve revision reason => "resolve revision " ++ revision ++ ": " ++ reason
  | worktree reason => reason
  | checkout revision reason => "git checkout " ++ revision ++ ": " ++ reason

/-- The files of a cloned repository. They can be replaced by those of a commit. -/
structure Worktree where
  checkout : FileSystem → String → Except String Unit × FileSystem

/-- A cloned repository. It knows the commits of revisions. -/
structure Repository where
  resolve : String → Except String String
  worktree : Except String Worktree

/-- A library for repositories, which clones into a directory what there is at an address. -/
structure Git where
  clone : FileSystem → String → String → Except String Repository × FileSystem

/-- Repositories of which none exists. -/
def Git.none : Git := ⟨fun fs _ _ => (.error "repository not found", fs)⟩

/-- What is to be fetched: a pinned revision of a repository, into a directory for its versions. -/
structure Fetch where
  base : String
  url : String
  pin : Pin

namespace Fetch

/-- The directory of a commit. -/
def target (f : Fetch) (commit : String) : String :=
  Path.join [f.base, pathSegment (pinnedVersion f.pin.descriptor commit)]

/-- Gives a clone the files of a commit, and the path that these are known by. -/
def publish (f : Fetch) (repository : Repository) (fs : FileSystem) (clone commit : String) :
    Except InstallError Unit × FileSystem :=
  match repository.worktree with
  | .error reason => (.error (.worktree reason), fs)
  | .ok worktree =>
    match worktree.checkout fs commit with
    | (.error reason, fs) => (.error (.checkout f.pin.revision reason), fs)
    | (.ok (), fs) =>
      match fs.removeAll (Path.join [clone, ".git"]) with
      | .error e => (.error (.file e), fs)
      | .ok bare =>
        match bare.rename clone (f.target commit) with
        | .error e => (.error (.file e), bare)
        | .ok named => (.ok (), named)

/-- Makes a checkout out of a clone, unless there is one of the commit already. -/
def adopt (f : Fetch) (repository : Repository) (fs : FileSystem) (clone : String) :
    Except InstallError String × FileSystem :=
  match repository.resolve f.pin.revision with
  | .error reason => (.error (.resolve f.pin.revision reason), fs)
  | .ok commit =>
    if (fs.stat (f.target commit)).isOk then (.ok commit, fs.discard clone)
    else
      let (result, fs) := f.publish repository fs clone commit
      (result.map fun _ => commit, fs)

/-- Clones into a temporary directory and makes a checkout out of the clone. What is left of a clone
that comes to nothing is removed. -/
def checkOut (f : Fetch) (git : Git) (number : Nat → Nat) (fs : FileSystem) :
    Except InstallError String × FileSystem :=
  match fs.makeTemporary f.base "git-fetch-" number with
  | .error e => (.error (.file e), fs)
  | .ok (clone, made) =>
    match made.removeAll clone with
    | .error e => (.error (.file e), made)
    | .ok cleared =>
      match git.clone cleared clone f.url with
      | (.error reason, fs) => (.error (.clone f.url reason), fs.discard clone)
      | (.ok repository, fs) =>
        match f.adopt repository fs clone with
        | (.error e, fs) => (.error e, fs.discard clone)
        | (.ok commit, fs) => (.ok commit, fs)

end Fetch

end ScriptKit.Package
