import ScriptKit.Number.Integer
import ScriptKit.Text.Quoted

namespace ScriptKit.Log

/-- How grave an entry is. Four levels have names; a level between them is written as its distance
from the named level below. -/
abbrev Level := Int

def debug : Level := -4
def info : Level := 0
def warn : Level := 4
def error : Level := 8

def levelName (level : Level) : String :=
  let relative (name : String) (base : Level) : String :=
    if level = base then name
    else if base < level then name ++ "+" ++ toString (level - base)
    else name ++ toString (level - base)
  if level < info then relative "DEBUG" debug
  else if level < warn then relative "INFO" info
  else if level < error then relative "WARN" warn
  else relative "ERROR" error

structure Entry where
  level : Level
  message : String
  attributes : List (String × String)
  deriving DecidableEq

/-- Whether a value has to be quoted so that the end of it can be seen. -/
def needsQuotes (s : String) : Bool :=
  s.toList.isEmpty || s.toList.any fun c =>
    if c.toNat < 0x80 then c = ' ' || c = '=' || c = '"' || c.toNat < 0x20
    else Text.isSpace c || !Text.isPrintable c

def value (s : String) : String :=
  if needsQuotes s then Text.quote s else s

/-- An entry as one line of a log, without the time. -/
def Entry.render (e : Entry) : String :=
  let fields := ("level", levelName e.level) :: ("msg", e.message) :: e.attributes
  " ".intercalate (fields.map fun (k, v) => value k ++ "=" ++ value v)

/-- A level by its name in any case, with an optional distance from it. Levels are numbers of 64
bits. -/
def parseLevel? (s : String) : Option Level :=
  let (name, offset) := s.toList.span fun c => c ≠ '+' && c ≠ '-'
  let offset? : Option Int :=
    if offset.isEmpty then some 0 else Number.readInteger? (String.ofList offset)
  let base? : Option Level := match Text.upper (String.ofList name) with
    | "DEBUG" => some debug
    | "INFO" => some info
    | "WARN" => some warn
    | "ERROR" => some error
    | _ => none
  base?.bind fun base => offset?.map fun offset => Int.bmod (base + offset) (Number.twoTo 64)

end ScriptKit.Log
