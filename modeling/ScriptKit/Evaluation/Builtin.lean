import ScriptKit.Text.Basic

namespace ScriptKit

/-- The functions that are there without being declared. -/
inductive Builtin
  | print
  | dump
  | printColor
  | boolean
  | number
  | string
  | gets
  | chomp
  | sleep
  | length
  | arrayOfSize
  | typeof
  | rand
  | variableNamed
  | require
  | load
  | eval
  | new
  | colorize
  deriving DecidableEq

namespace Builtin

def name : Builtin → String
  | print => "print"
  | dump => "dump"
  | printColor => "print_color"
  | boolean => "Boolean"
  | number => "Number"
  | string => "String"
  | gets => "gets"
  | chomp => "chomp"
  | sleep => "sleep"
  | length => "length"
  | arrayOfSize => "array_of_size"
  | typeof => "typeof"
  | rand => "rand"
  | variableNamed => "variable"
  | require => "require"
  | load => "load"
  | eval => "eval"
  | new => "new"
  | colorize => "colorize"

/-- The least number of arguments. -/
def arity : Builtin → Nat
  | print | dump | gets | rand => 0
  | printColor | colorize => 2
  | _ => 1

def all : List Builtin := [
  print, dump, printColor, boolean, number, string, gets, chomp, sleep, length, arrayOfSize,
  typeof, rand, variableNamed, require, load, eval, new, colorize]

def ofName? (name : String) : Option Builtin :=
  all.find? fun b => b.name = name

/-- The names of all of them, sorted. -/
def names : List String :=
  Text.sort (all.map Builtin.name)

end Builtin

end ScriptKit
