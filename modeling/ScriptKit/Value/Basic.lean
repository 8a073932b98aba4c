import ScriptKit.NameTable
import ScriptKit.Program

namespace ScriptKit

abbrev ArrayId := Nat
abbrev FunctionId := Nat
abbrev ClassId := Nat
abbrev ObjectId := Nat
abbrev ScopeId := Nat

/-- A value of the language. Arrays, functions, classes and objects are known by their identity in
a store. The absent value stands for none at all and is never made by a program. -/
inductive Value
  | absent
  | null
  | number (x : Float)
  | string (s : String)
  | boolean (b : Bool)
  | array (id : ArrayId)
  | function (id : FunctionId)
  | classValue (id : ClassId)
  | object (id : ObjectId)

inductive Value.Kind
  | absent
  | null
  | numeric
  | string
  | boolean
  | array
  | function
  | classValue
  | object
  deriving DecidableEq

namespace Value

/-- The names of the kinds by their number. -/
def kindNames : List String :=
  ["Null", "Numeric", "String", "Boolean", "Array", "Function", "Class", "Object"]

/-- The name of a kind by its number; numbers beyond the last kind have a name too. -/
def kindName (code : Nat) : String :=
  kindNames.getD code ("unknown_kind_" ++ toString code)

def Kind.name : Kind → String
  | .absent => "absent"
  | .null => kindName 0
  | .numeric => kindName 1
  | .string => kindName 2
  | .boolean => kindName 3
  | .array => kindName 4
  | .function => kindName 5
  | .classValue => kindName 6
  | .object => kindName 7

def kind : Value → Kind
  | absent => .absent
  | null => .null
  | number _ => .numeric
  | string _ => .string
  | boolean _ => .boolean
  | array _ => .array
  | function _ => .function
  | classValue _ => .classValue
  | object _ => .object

/-- Zero, false and null are not true; every other value is. -/
def truthy : Value → Bool
  | number x => x != 0
  | boolean b => b
  | null | absent => false
  | _ => true

end Value

/-- A function literal bound to the scope it was evaluated in. -/
structure Function where
  name : String
  parameters : List String
  body : List Tree
  file : SourceFile
  closure : Option ScopeId

/-- A class literal bound to the scope it was evaluated in. -/
structure Class where
  name : String
  body : List Tree
  file : SourceFile
  closure : Option ScopeId

/-- An object owns the scope in which its class body ran. -/
structure Object where
  ofClass : Option ClassId
  scope : Option ScopeId

/-- Names bound to values, inside of a parent scope. A locked scope takes no new names. -/
structure Scope where
  bindings : NameTable Value
  parent : Option ScopeId
  locked : Bool

/-- Everything that values refer to by identity. -/
structure Store where
  arrays : Array (Array Value)
  functions : Array Function
  classes : Array Class
  objects : Array Object
  scopes : Array Scope

namespace Store

def empty : Store := ⟨#[], #[], #[], #[], #[]⟩

def elements (s : Store) (id : ArrayId) : Array Value := s.arrays.getD id #[]

def newArray (s : Store) (elements : Array Value) : Value × Store :=
  (.array s.arrays.size, { s with arrays := s.arrays.push elements })

/-- Changes one element of an array. -/
def setElement (s : Store) (id : ArrayId) (i : Nat) (v : Value) : Store :=
  { s with arrays := s.arrays.modify id fun elements => elements.setIfInBounds i v }

def newFunction (s : Store) (f : Function) : Value × Store :=
  (.function s.functions.size, { s with functions := s.functions.push f })

def newClass (s : Store) (c : Class) : Value × Store :=
  (.classValue s.classes.size, { s with classes := s.classes.push c })

def newObject (s : Store) (o : Object) : Value × Store :=
  (.object s.objects.size, { s with objects := s.objects.push o })

end Store

end ScriptKit
