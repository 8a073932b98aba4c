import ScriptKit.Text.Quoted

namespace ScriptKit.Tool

/-- What the flags and arguments of a run ask for. -/
structure Options where
  keepGoing : Bool
  strict : Bool
  parseOnly : Bool
  showTree : Bool
  showTokens : Bool
  debug : Bool
  plain : Bool
  source : String
  files : List String
  deriving DecidableEq

inductive OptionError
  | noSource (flag : String)
  | unknownFlag (flag : String)
  deriving DecidableEq

def OptionError.message : OptionError → String
  | noSource flag => flag ++ " requires a source argument"
  | unknownFlag flag => "unknown flag " ++ Text.quote flag

namespace Options

def none : Options := ⟨false, false, false, false, false, false, false, "", []⟩

/-- The change that a flag without an argument makes. -/
def switch? (o : Options) (flag : String) : Option Options :=
  match flag with
  | "--continue" => some { o with keepGoing := true }
  | "--strict" => some { o with strict := true }
  | "--noexec" => some { o with parseOnly := true }
  | "--ast" => some { o with showTree := true }
  | "--tokens" => some { o with showTokens := true }
  | "--log" => some { o with debug := true }
  | "--nocolor" => some { o with plain := true }
  | _ => Option.none

def addFiles (o : Options) (files : List String) : Options :=
  { o with files := o.files ++ files }

/-- Reads arguments from the left. If one cannot be read, the options are those of the arguments
before it. -/
def read (o : Options) : List String → Options × Option OptionError
  | [] => (o, .none)
  | arg :: rest =>
    match o.switch? arg with
    | some o => o.read rest
    | .none =>
      if arg = "-e" || arg = "--eval" then
        match rest with
        | [] => (o, some (.noSource arg))
        | source :: rest => { o with source := source }.read rest
      else if arg = "--" then (o.addFiles rest, .none)
      else if Text.hasOpening "-" arg && arg ≠ "-" then (o, some (.unknownFlag arg))
      else (o.addFiles [arg]).read rest

def ofArguments (arguments : List String) : Options × Option OptionError :=
  none.read arguments

end Options

end ScriptKit.Tool
