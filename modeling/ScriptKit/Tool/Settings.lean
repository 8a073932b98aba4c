import ScriptKit.FileSystem
import ScriptKit.Log
import ScriptKit.Toml.Document

namespace ScriptKit.Tool

/-- The variables of the surroundings that a program is started in. -/
abbrev Environment := NameTable String

/-- The value of a variable; one that is not there is empty. -/
def Environment.get (e : Environment) (name : String) : String :=
  (e.find? name).getD ""

/-- What users can set in a file of their own. Flags take precedence. -/
structure Settings where
  color : Option Bool
  logLevel : String
  strict : Bool
  cacheDirectory : String
  deriving DecidableEq

namespace Settings

def fileName : String := "settings.toml"

def default : Settings := ⟨none, "warn", false, ""⟩

/-- The directory for the configuration of programs, if it is known. -/
def configurationDirectory? (e : Environment) : Option String :=
  let xdg := e.get "XDG_CONFIG_HOME"
  let home := e.get "HOME"
  if xdg ≠ "" then (if Path.isAbsolute xdg then some xdg else none)
  else if home ≠ "" then some (home ++ "/.config")
  else none

def directory (e : Environment) : String :=
  let own := Text.trim (e.get "CHARLY_CONFIG_DIR")
  let xdg := Text.trim (e.get "XDG_CONFIG_HOME")
  if own ≠ "" then own
  else if xdg ≠ "" then Path.join [xdg, "charly"]
  else match configurationDirectory? e with
    | some d => Path.join [d, "charly"]
    | none => ".charly"

end Settings

/-- What a settings file can say something about. -/
inductive Setting
  | color
  | logLevel
  | strict
  | cacheDirectory
  deriving DecidableEq

namespace Setting

/-- The setting that a key means in any case. -/
def ofKey? (key : String) : Option Setting :=
  match Text.lower key with
  | "color" => some color
  | "log_level" => some logLevel
  | "strict" => some strict
  | "cache_dir" => some cacheDirectory
  | _ => none

def typeName : Setting → String
  | color | strict => "bool"
  | logLevel | cacheDirectory => "string"

/-- Gives a setting a value, which has to be of its type. -/
def assign (s : Settings) : Setting → Toml.Value → Option Settings
  | color, .boolean b => some { s with color := some b }
  | strict, .boolean b => some { s with strict := b }
  | logLevel, .string t => some { s with logLevel := t }
  | cacheDirectory, .string t => some { s with cacheDirectory := t }
  | _, _ => none

end Setting

/-- Why the text of a settings file is refused. -/
inductive SettingsProblem
  | malformed
  | keyBelow (setting : Setting)
  deriving DecidableEq

def SettingsProblem.message : SettingsProblem → String
  | malformed => "toml: the file does not have the expected form"
  | keyBelow s => "unhandled kv part: " ++ s.typeName

/-- The table that the statements of a settings file are in. -/
inductive SettingsTable
  | top
  | setting (path : List String) (s : Setting)
  | unknown

/-- How far a settings file has been gone through. -/
structure SettingsReading where
  settings : Settings
  uses : Toml.Uses
  table : SettingsTable

namespace SettingsReading

def start : SettingsReading := ⟨.default, [], .top⟩

def orMalformed {α : Type} : Option α → Except SettingsProblem α
  | some a => .ok a
  | none => .error .malformed

/-- Takes an assignment in. Keys that mean no setting are passed over, and in a table that means
none not even looked at. -/
def assign (r : SettingsReading) (path : List String) (v : Toml.Value) :
    Except SettingsProblem SettingsReading :=
  match r.table with
  | .unknown => .ok r
  | .setting base s => do
    let _ ← orMalformed (Toml.noteAssignment r.uses base path v)
    .error (.keyBelow s)
  | .top => do
    let uses ← orMalformed (Toml.noteAssignment r.uses [] path v)
    match path with
    | [] => .ok { r with uses := uses }
    | key :: below =>
      match Setting.ofKey? key with
      | none => .ok { r with uses := uses }
      | some s =>
        if below.isEmpty then
          let settings ← orMalformed (s.assign r.settings v)
          .ok { r with settings := settings, uses := uses }
        else .error (.keyBelow s)

def statement (r : SettingsReading) : Toml.Statement → Except SettingsProblem SettingsReading
  | .assign path v => r.assign path v
  | .table path => do
    let uses ← orMalformed (Toml.noteTable r.uses path)
    match path.head?.bind Setting.ofKey?, path.length with
    | some s, 1 => .ok { r with uses := uses, table := .setting path s }
    | some _, _ => .error .malformed
    | none, _ => .ok { r with uses := uses, table := .unknown }
  | .arrayTable path => do
    let uses ← orMalformed (Toml.noteArrayTable r.uses path)
    match path.head?.bind Setting.ofKey? with
    | some _ => .error .malformed
    | none => .ok { r with uses := uses, table := .unknown }

end SettingsReading

/-- Why there are no settings. -/
inductive SettingsError
  | unreadable (path : String) (e : FileError)
  | refused (path : String) (problem : SettingsProblem)
  deriving DecidableEq

def SettingsError.message : SettingsError → String
  | unreadable path e => "read settings " ++ Text.quote path ++ ": " ++ e.message
  | refused path problem => "parse settings " ++ Text.quote path ++ ": " ++ problem.message

namespace Settings

/-- The settings that a text describes. Of two problems the one that stands first is told. -/
def parse (text : String) : Except SettingsProblem Settings := do
  let (statements, complete) := Toml.read text
  let reading ← statements.foldlM SettingsReading.statement .start
  if complete then .ok reading.settings else .error .malformed

def path (e : Environment) : String :=
  Path.join [directory e, fileName]

/-- Reads the settings file. Without one, the settings are the default ones. -/
def load (fs : FileSystem) (e : Environment) : Except SettingsError Settings :=
  match fs.read (path e) with
  | .ok text => (parse text).mapError (.refused (path e))
  | .error cause => if cause.isMissing then .ok default else .error (.unreadable (path e) cause)

def colorEnabled (s : Settings) : Bool := s.color.getD true

/-- A text that is no level of a log. -/
structure InvalidLevel where
  text : String
  deriving DecidableEq

def InvalidLevel.message (e : InvalidLevel) : String :=
  "settings: invalid log_level " ++ Text.quote e.text

def level (s : Settings) : Except InvalidLevel Log.Level :=
  if Text.trim s.logLevel = "" then .ok Log.warn
  else match Log.parseLevel? s.logLevel with
    | some level => .ok level
    | none => .error ⟨s.logLevel⟩

/-- There is no home directory. -/
inductive NoHome
  | mk
  deriving DecidableEq

def NoHome.message (_ : NoHome) : String :=
  "resolve user home: $HOME is not defined"

/-- Where the checkouts of dependencies are kept. -/
def cache (s : Settings) (fs : FileSystem) (e : Environment) : Except NoHome String :=
  let own := Text.trim (e.get "CHARLY_HOME")
  let set := Text.trim s.cacheDirectory
  let home := e.get "HOME"
  if own ≠ "" then .ok (fs.absolute own)
  else if set ≠ "" then .ok (fs.absolute set)
  else if home ≠ "" then .ok (Path.join [home, ".charly"])
  else .error .mk

end Settings

end ScriptKit.Tool
