import ScriptKit.Number.Text
import ScriptKit.Text.Quoted
import ScriptKit.Value.Basic

namespace ScriptKit

/-- The largest array that a program can ask for. -/
def maxArraySize : Nat := Number.twoTo 24

/-- The name that always calls a built-in function, whatever the program has bound. -/
def builtinEscape : String := "call_internal"

/-- Why an evaluation fails. -/
inductive Fault
  | undefinedVariable (name : String)
  | lockedScope (name : String)
  | cannotApply (op : String) (left right : Value.Kind)
  | cannotRepeat (times : Float)
  | cannotCompare (left right : Value.Kind)
  | unknownComparator (op : String)
  | cannotEvaluate (kind : Tree.Kind)
  | cannotAssign (kind : Tree.Kind)
  | noMembers (member : String) (kind : Value.Kind)
  | cannotIndex (kind : Value.Kind)
  | indexNotNumeric (kind : Value.Kind)
  | indexNotIntegral (index : Float)
  | indexOutOfBounds (index : Float) (length : Nat)
  | notCallable (description : String)
  | constructorNotCallable (className : String)
  | unknownBuiltin (name : String)
  | tooFewArguments (name : String) (expected given : Nat)
  | noBuiltinName
  | builtinNameNotString (kind : Value.Kind)
  | unexpected (builtin expected : String) (given : Value.Kind)
  | noLength (kind : Value.Kind)
  | notASize (given : String)
  | sizeTooLarge (size : Float)
  | notANumeral (text : String)
  | notNumeric (kind : Value.Kind)
  | noLoader (target : String)
  /-- A module that could not be found or read: what was asked for, why, and whether the reason
  is a missing file. -/
  | importFailed (target reason : String) (missing : Bool)

namespace Fault

inductive Category
  | undefinedVariable
  | lockedScope
  | notAFunction
  | notAnObject
  | notAnArray
  | arity
  | indexOutOfBounds
  | moduleLoad
  | invalidType
  deriving DecidableEq

def Category.name : Category → String
  | .undefinedVariable => "undefined variable"
  | .lockedScope => "locked scope"
  | .notAFunction => "not a function"
  | .notAnObject => "not an object"
  | .notAnArray => "not an array"
  | .arity => "wrong number of arguments"
  | .indexOutOfBounds => "index out of bounds"
  | .moduleLoad => "module load failed"
  | .invalidType => "invalid type"

def category : Fault → Category
  | undefinedVariable _ => .undefinedVariable
  | lockedScope _ => .lockedScope
  | notCallable _ | constructorNotCallable _ | unknownBuiltin _ => .notAFunction
  | noMembers _ _ => .notAnObject
  | cannotIndex _ => .notAnArray
  | tooFewArguments _ _ _ | noBuiltinName => .arity
  | indexOutOfBounds _ _ => .indexOutOfBounds
  | noLoader _ | importFailed _ _ _ => .moduleLoad
  | _ => .invalidType

/-- Whether the fault comes from a file that does not exist. -/
def isMissingFile : Fault → Bool
  | importFailed _ _ missing => missing
  | _ => false

def expectedArguments (name atLeast : String) (expected given : Nat) : String :=
  name ++ " expected " ++ atLeast ++ toString expected ++ " argument(s), got " ++ toString given

def message : Fault → String
  | undefinedVariable name => "undefined variable '" ++ name ++ "'"
  | lockedScope name => "cannot declare '" ++ name ++ "' in a locked scope"
  | cannotApply op l r => "cannot apply '" ++ op ++ "' to " ++ l.name ++ " and " ++ r.name
  | cannotRepeat n => "cannot repeat a string " ++ Number.render n ++ " times"
  | cannotCompare l r => "cannot compare " ++ l.name ++ " and " ++ r.name
  | unknownComparator op => "unknown comparator '" ++ op ++ "'"
  | cannotEvaluate kind => "cannot evaluate " ++ kind.name ++ " node"
  | cannotAssign kind => "cannot assign to " ++ kind.name
  | noMembers member kind => "cannot access '" ++ member ++ "' of " ++ kind.name
  | cannotIndex kind => "cannot index " ++ kind.name
  | indexNotNumeric kind => "array index must be Numeric, got " ++ kind.name
  | indexNotIntegral x => "array index " ++ Number.render x ++ " is not an integer"
  | indexOutOfBounds x length =>
    "array index " ++ Number.render x ++ " is out of bounds (length " ++ toString length ++ ")"
  | notCallable description => description ++ " is not a function"
  | constructorNotCallable name => "constructor of " ++ name ++ " is not a function"
  | unknownBuiltin name => "unknown internal function '" ++ name ++ "'"
  | tooFewArguments name expected given => expectedArguments name "" expected given
  | noBuiltinName => expectedArguments builtinEscape "at least " 1 0
  | builtinNameNotString kind => builtinEscape ++ " expects a String name, got " ++ kind.name
  | unexpected builtin expected kind =>
    builtin ++ " expects a " ++ expected ++ ", got " ++ kind.name
  | noLength kind => "length is not defined for " ++ kind.name
  | notASize given => "array_of_size expects a non-negative Numeric, got " ++ given
  | sizeTooLarge x =>
    "array_of_size: " ++ Number.render x ++ " exceeds the maximum array size " ++
      toString maxArraySize
  | notANumeral text => "cannot convert " ++ Text.quote text ++ " to Numeric"
  | notNumeric kind => "cannot convert " ++ kind.name ++ " to Numeric"
  | noLoader target => "cannot load '" ++ target ++ "': no source loader configured"
  | importFailed target reason _ => "failed to import file " ++ target ++ ": " ++ reason

end Fault

end ScriptKit
