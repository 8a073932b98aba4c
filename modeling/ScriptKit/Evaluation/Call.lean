import ScriptKit.Evaluation.Module
import ScriptKit.Number.Integer
import ScriptKit.Style
import ScriptKit.Value.Index

namespace ScriptKit.Evaluator

open MonadMachine (act telling)

def argumentsName : String := "__arguments__"

def constructorName : String := "constructor"

def selfName : String := "self"

section Machine

def declare (scope : ScopeId) (name : String) (v : Value) : Eval Value :=
  Eval.bindIn (fun s => s.declaredIn scope name) name v

/-- Binds the parameters of a function to arguments, from the first on. -/
def bindParameters (scope : ScopeId) : List String → List Value → Eval Unit
  | p :: ps, v :: vs => do
    let _ ← declare scope p v
    bindParameters scope ps vs
  | _, _ => pure ()

/-- Makes what an operator gives. -/
def operate (op : String) (l r : Value) : Eval Value := do
  match ← Eval.ofExcept (← Eval.query fun s => s.compute op l r) with
  | .value v => return v
  | .elements vs => Eval.allocate fun s => s.newArray vs
  | .overflow => Eval.stop .overflow

/-- A value as the code of a style: a number without its fraction, or the text of an integer. -/
def styleCode (v : Value) : Eval Int := do
  match v with
  | .number x => return x.toInt64.toInt
  | v =>
    match Number.readInteger? (← Eval.query fun s => s.text v) with
    | some n => return n
    | none => Eval.raise (.unexpected "colorize" "Numeric color code" v.kind)

def colorize (host : Host) (text code : Value) : Eval String := do
  let t ← Eval.query fun s => s.text text
  let n ← styleCode code
  match Style.ofCode? n with
  | some style => return if host.colored then style.render t else t
  | none => return t

def printLines (host : Host) : List Value → Eval Unit
  | [] => pure ()
  | v :: vs => do
    Eval.write host ((← Eval.query fun s => s.text v) ++ "\n")
    printLines host vs

def dumpAll (host : Host) : List Value → Eval Unit
  | [] => pure ()
  | v :: vs => do
    Eval.write host (← Eval.query fun s => s.text v)
    dumpAll host vs

/-- A value read as a number. -/
def toNumber : Value → Eval Value
  | .number x => pure (.number x)
  | .boolean b => pure (.number (if b then 1 else 0))
  | .null => pure (.number 0)
  | .string t =>
    match Number.read? (Text.trim t) with
    | some ⟨x, true⟩ => pure (.number x)
    | _ => Eval.raise (.notANumeral t)
  | v => Eval.raise (.notNumeric v.kind)

def arrayOfSize (size : Value) (fill : Value) : Eval Value := do
  let refuse : Eval Value := do
    Eval.raise (.notASize (← Eval.query fun s => s.text size))
  match size with
  | .number x =>
    if x.isNaN || x < 0 then refuse
    else if Float.ofNat maxArraySize < x then Eval.raise (.sizeTooLarge x)
    else Eval.allocate fun s => s.newArray (Array.replicate x.toUInt64.toNat fill)
  | _ => refuse

/-- The argument of a function that takes a text. -/
def textArgument (b : Builtin) : Value → Eval String
  | .string t => pure t
  | v => Eval.raise (.unexpected b.name "String" v.kind)

end Machine

variable {M : Type → Type} [MonadMachine M]

/-- Runs a function in a scope that takes its parameters and the array of all arguments. More
arguments than parameters are allowed, fewer are not. -/
@[specialize]
def callIn (ev : Evaluator M) (f : Function) (arguments : List Value) (scope : ScopeId) :
    M Value := do
  if arguments.length < f.parameters.length then
    let name := if f.name = "" then "<anonymous>" else f.name
    act (Eval.raise (.tooFewArguments name f.parameters.length arguments.length))
  else
    act (bindParameters scope f.parameters arguments)
    let all ← act (Eval.allocate fun s => s.newArray arguments.toArray)
    let _ ← act (declare scope argumentsName all)
    ev.block ⟨f.file, scope⟩ f.body

@[specialize]
def callFunction (ev : Evaluator M) (f : Function) (arguments : List Value) : M Value := do
  let scope ← act (Eval.allocate fun s => s.newScope f.closure)
  ev.callIn f arguments scope

/-- Runs the constructor that a class body has declared in the scope of the new object. -/
@[specialize]
def callConstructor (ev : Evaluator M) (c : Class) (arguments : List Value) (scope : ScopeId) :
    M Unit := do
  match ← act (Eval.query fun s => s.get? scope constructorName) with
  | none => return
  | some (.function id) =>
    match ← act (Eval.query fun s => s.functions[id]?) with
    | some f =>
      let _ ← ev.callIn f arguments scope
      return
    | none => return
  | some _ => act (Eval.raise (.constructorNotCallable c.name))

/-- Makes an object: the class body and then the constructor run in the scope of the object, which
is locked afterwards and keeps neither the constructor nor its arguments. -/
@[specialize]
def construct (ev : Evaluator M) (id : ClassId) (c : Class) (arguments : List Value) :
    M Value := do
  let scope ← act (Eval.allocate fun s => s.newScope c.closure)
  let object ← act (Eval.allocate fun s => s.newObject ⟨some id, some scope⟩)
  let _ ← act (declare scope selfName object)
  let _ ← ev.block ⟨c.file, scope⟩ c.body
  ev.callConstructor c arguments scope
  act (Eval.allocate fun s =>
    (object, ((s.lock scope).unbind scope constructorName).unbind scope argumentsName))

/-- Runs a built-in function. -/
@[specialize]
def builtin (ev : Evaluator M) (host : Host) (frame : Frame) (b : Builtin)
    (arguments : List Value) : M Value := do
  match b, arguments with
  | .print, vs => act do
    printLines host vs
    return .null
  | .dump, vs => act do
    dumpAll host vs
    return .null
  | .gets, _ => act do return (← Eval.readLine).elim .null .string
  | .rand, _ => act do return .number (← Eval.draw host)
  | .printColor, text :: code :: _ => act do
    Eval.write host ((← colorize host text code) ++ "\n")
    return .null
  | .colorize, text :: code :: _ => act do return .string (← colorize host text code)
  | .boolean, v :: _ => return .boolean v.truthy
  | .number, v :: _ => act (toNumber v)
  | .string, v :: _ => act do return .string (← Eval.query fun s => s.text v)
  | .chomp, v :: _ => act do
    let t ← textArgument b v
    return .string (Text.dropEnding "\r" (Text.dropEnding "\n" t))
  | .sleep, v :: _ =>
    match v with
    | .number _ => return .null
    | v => act (Eval.raise (.unexpected b.name "Numeric" v.kind))
  | .length, v :: _ =>
    match v with
    | .array id => act do
      return .number (Float.ofNat (← Eval.query fun s => (s.elements id).size))
    | .string t => return .number (Float.ofNat t.length)
    | .number x => return .number x
    | v => act (Eval.raise (.noLength v.kind))
  | .arrayOfSize, size :: rest => act (arrayOfSize size (rest.headD .null))
  | .typeof, v :: _ => return .string v.kind.name
  | .variableNamed, v :: _ => act do
    let name ← Eval.query fun s => s.text v
    Eval.ofExcept (← Eval.query fun s => s.read frame.scope name)
  | .require, v :: _ => do
    let target ← act (textArgument b v)
    telling (.required frame.file.directory target) (pure ())
    ev.importModule host frame.file.directory target true
  | .load, v :: _ => do
    let target ← act (textArgument b v)
    ev.importModule host frame.file.directory target false
  | .eval, v :: _ => do
    let text ← act (textArgument b v)
    ev.evalText host frame text
  | .new, v :: rest =>
    match v with
    | .classValue id => do
      match ← act (Eval.query fun s => s.classes[id]?) with
      | some c => ev.construct id c rest
      | none => return .null
    | v => act (Eval.raise (.unexpected b.name "Class" v.kind))
  | _, _ => act (Eval.raise (.tooFewArguments b.name b.arity arguments.length))

@[specialize]
def callBuiltin (ev : Evaluator M) (host : Host) (frame : Frame) (name : String)
    (arguments : List Value) : M Value :=
  match Builtin.ofName? name with
  | none => act (Eval.raise (.unknownBuiltin name))
  | some b =>
    if arguments.length < b.arity then
      act (Eval.raise (.tooFewArguments name b.arity arguments.length))
    else do
      telling (fun _ => .called b arguments) (pure ())
      ev.builtin host frame b arguments

/-- Calls the built-in function that the first argument names. -/
@[specialize]
def callEscape (ev : Evaluator M) (host : Host) (frame : Frame) (arguments : List Value) :
    M Value :=
  match arguments with
  | [] => act (Eval.raise .noBuiltinName)
  | .string name :: rest => ev.callBuiltin host frame name rest
  | v :: _ => act (Eval.raise (.builtinNameNotString v.kind))

/-- Calls a value. A class makes an object and an array is indexed. -/
@[specialize]
def callValue (ev : Evaluator M) (callee : Value) (description : String)
    (arguments : List Value) : M Value := do
  match callee with
  | .function id =>
    match ← act (Eval.query fun s => s.functions[id]?) with
    | some f => ev.callFunction f arguments
    | none => return .null
  | .classValue id =>
    match ← act (Eval.query fun s => s.classes[id]?) with
    | some c => ev.construct id c arguments
    | none => return .null
  | .array id => act do Eval.ofExcept (← Eval.query fun s => s.indexAll (.array id) arguments)
  | _ => act (Eval.raise (.notCallable description))

/-- Calls what a node means. A name that is not bound means the built-in function of that name. -/
@[specialize]
def callNode (ev : Evaluator M) (host : Host) (frame : Frame) (callee : Option Tree)
    (arguments : List Value) : M Value := do
  let computed : M Value := do
    let v ← ev frame callee
    ev.callValue v v.kind.name arguments
  match callee with
  | some t =>
    if t.kind ≠ .identifier then computed
    else if t.text = builtinEscape then ev.callEscape host frame arguments
    else
      match ← act (Eval.query fun s => s.lookup? frame.scope t.text) with
      | some v => ev.callValue v ("'" ++ t.text ++ "'") arguments
      | none =>
        if (Builtin.ofName? t.text).isSome then ev.callBuiltin host frame t.text arguments
        else act (Eval.raise (.undefinedVariable t.text))
  | none => computed

end ScriptKit.Evaluator
