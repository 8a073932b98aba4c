import ScriptKit.Package.Checkout
import ScriptKit.Package.Checksum
import ScriptKit.Package.Lockfile

namespace ScriptKit.Package

/-- What brings the packages of a manifest into a cache. The names of temporary directories have
numbers in them, which depend on the directory and on the attempt. -/
structure Installer where
  manifest : Manifest
  cache : String
  git : Git
  numbers : String → Nat → Nat

namespace Installer

/-- The directory of a path dependency. -/
def dependencyPath (i : Installer) (spec : DependencySpec) : String :=
  if Path.isAbsolute spec.path then spec.path else Path.join [i.manifest.directory, spec.path]

def installPath (i : Installer) (fs : FileSystem) (name : String) (spec : DependencySpec) :
    Except InstallError LockedPackage :=
  let directory := i.dependencyPath spec
  match fs.stat directory with
  | .error e => .error (.file e)
  | .ok (.file _) => .error (.notDirectory directory)
  | .ok .directory =>
    match checksum fs directory with
    | .error e => .error (.file e)
    | .ok sum => .ok ⟨name, "path", "path:" ++ directory, sum⟩

/-- Whether a locked package was made for a repository and a pin. -/
def isReusable (url descriptor : String) (p : LockedPackage) : Bool :=
  Text.hasOpening ("git+" ++ url ++ "@") p.source &&
    (p.version = descriptor || Text.hasOpening (descriptor ++ "@") p.version)

/-- The locked package of a name, if it fits and its checkout is in the cache. -/
def cached? (i : Installer) (fs : FileSystem) (lock : Lockfile) (name url : String) (pin : Pin) :
    Option LockedPackage :=
  (lock.find? name).filter fun p =>
    isReusable url pin.descriptor p &&
      (fs.stat (checkoutDirectory i.cache name p.version)).isOk

/-- Fetches a package into the cache. -/
def fetch (i : Installer) (fs : FileSystem) (name url : String) (pin : Pin) :
    Except InstallError LockedPackage × FileSystem :=
  let base := checkoutBase i.cache name
  match fs.makeDirectories base with
  | .error e => (.error (.file e), fs)
  | .ok fs =>
    match (Fetch.mk base url pin).checkOut i.git (i.numbers base) fs with
    | (.error e, fs) => (.error e, fs)
    | (.ok commit, fs) =>
      let version := pinnedVersion pin.descriptor commit
      match checksum fs (checkoutDirectory i.cache name version) with
      | .error e => (.error (.file e), fs)
      | .ok sum => (.ok ⟨name, version, "git+" ++ url ++ "@" ++ commit, sum⟩, fs)

def installGit (i : Installer) (fs : FileSystem) (lock : Lockfile) (name : String)
    (spec : DependencySpec) : Except InstallError LockedPackage × FileSystem :=
  let url := Text.trim spec.git
  match spec.pin? with
  | none => (.error .noPin, fs)
  | some pin =>
    match i.cached? fs lock name url pin with
    | some p => (.ok p, fs)
    | none => i.fetch fs name url pin

def installOne (i : Installer) (fs : FileSystem) (lock : Lockfile) (name : String) :
    Except InstallError LockedPackage × FileSystem :=
  let spec := (i.manifest.dependencies.find? name).getD .empty
  if spec.path ≠ "" then (i.installPath fs name spec, fs) else i.installGit fs lock name spec

/-- What an installation has done so far. -/
structure Progress where
  lock : Lockfile
  changed : Bool
  lines : List String

/-- Puts a package into the lockfile. One that is new there is normalised with the lockfile before
it is told of. -/
def Progress.add (p : Progress) (package : LockedPackage) : Progress :=
  let (lock, changed) := p.lock.upsert package
  let locked := if (p.lock.find? package.name).isSome then package else package.normalised
  let line :=
    if changed then
      "Locked " ++ locked.name ++ " " ++ locked.version ++ " (" ++ locked.source ++ ")"
    else "Using " ++ package.name ++ " " ++ package.version
  ⟨lock, p.changed || changed, p.lines ++ [line]⟩

/-- The dependency that could not be installed, and why. -/
structure InstallFailure where
  name : String
  cause : InstallError
  deriving DecidableEq

def InstallFailure.message (f : InstallFailure) : String :=
  "dependency " ++ Text.quote f.name ++ ": " ++ f.cause.message

/-- Installs dependencies one after the other, up to the first that fails. -/
def installAll (i : Installer) : FileSystem → Progress → List String →
    Except InstallFailure Progress × FileSystem
  | fs, p, [] => (.ok p, fs)
  | fs, p, name :: rest =>
    match i.installOne fs p.lock name with
    | (.error e, fs) => (.error ⟨name, e⟩, fs)
    | (.ok package, fs) => i.installAll fs (p.add package) rest

/-- Brings a lockfile in line with the manifest: it gets an entry for every dependency, and entries
of other names are dropped. -/
def install (i : Installer) (fs : FileSystem) (lock : Lockfile) :
    Except InstallFailure Progress × FileSystem :=
  let names := i.manifest.dependencyNames
  match i.installAll fs ⟨lock, false, []⟩ names with
  | (.error e, fs) => (.error e, fs)
  | (.ok p, fs) =>
    let (lock, dropped) := p.lock.prune names
    (.ok { p with lock := lock, changed := p.changed || dropped }, fs)

end Installer

end ScriptKit.Package
