import ScriptKit.Value.Fault

namespace ScriptKit.Store

def scope? (s : Store) (id : ScopeId) : Option Scope := s.scopes[id]?

/-- Adds an empty scope. Its id is the number of scopes before. -/
def newScope (s : Store) (parent : Option ScopeId) : ScopeId × Store :=
  (s.scopes.size, { s with scopes := s.scopes.push ⟨.empty, parent, false⟩ })

def updateScope (s : Store) (id : ScopeId) (f : Scope → Scope) : Store :=
  { s with scopes := s.scopes.modify id f }

/-- A binding of one scope alone. -/
def get? (s : Store) (id : ScopeId) (name : String) : Option Value :=
  (s.scope? id).bind fun scope => scope.bindings.find? name

def binds (s : Store) (id : ScopeId) (name : String) : Bool :=
  (s.get? id name).isSome

def isLocked (s : Store) (id : ScopeId) : Bool :=
  (s.scope? id).any (·.locked)

def parentScope? (s : Store) (id : ScopeId) : Option ScopeId :=
  (s.scope? id).bind (·.parent)

/-- A scope and the scopes around it, as many as the fuel reaches. -/
def chainFrom (s : Store) : Nat → Option ScopeId → List ScopeId
  | 0, _ => []
  | _, none => []
  | fuel + 1, some id => id :: s.chainFrom fuel (s.parentScope? id)

/-- A scope and the scopes around it, innermost first. -/
def chain (s : Store) (id : ScopeId) : List ScopeId :=
  s.chainFrom s.scopes.size (some id)

/-- The outermost scope around a scope. -/
def rootScope (s : Store) (id : ScopeId) : ScopeId :=
  (s.chain id).getLastD id

/-- The innermost scope that binds a name. -/
def binder? (s : Store) (id : ScopeId) (name : String) : Option ScopeId :=
  (s.chain id).find? fun scope => s.binds scope name

/-- The value of a name as seen from a scope. -/
def lookup? (s : Store) (id : ScopeId) (name : String) : Option Value :=
  (s.binder? id name).bind fun scope => s.get? scope name

def bind (s : Store) (id : ScopeId) (name : String) (v : Value) : Store :=
  s.updateScope id fun scope => { scope with bindings := scope.bindings.insert name v }

/-- The scope that a declaration changes: the scope itself, unless it is locked. -/
def declaredIn (s : Store) (id : ScopeId) (name : String) : Except Fault ScopeId :=
  if s.isLocked id then .error (.lockedScope name) else .ok id

/-- The scope that a change of a name changes: the innermost one that binds it. -/
def writtenIn (s : Store) (id : ScopeId) (name : String) : Except Fault ScopeId :=
  match s.binder? id name with
  | some scope => .ok scope
  | none => .error (.undefinedVariable name)

/-- The scope itself, if it binds the name or can be made to. -/
def setIn (s : Store) (id : ScopeId) (name : String) : Except Fault ScopeId :=
  if s.binds id name then .ok id else s.declaredIn id name

/-- Binds a name in a scope, whether or not a scope around it binds it too. -/
def declare (s : Store) (id : ScopeId) (name : String) (v : Value) : Except Fault Store :=
  (s.declaredIn id name).map fun scope => s.bind scope name v

/-- Changes the innermost binding of a name. -/
def write (s : Store) (id : ScopeId) (name : String) (v : Value) : Except Fault Store :=
  (s.writtenIn id name).map fun scope => s.bind scope name v

/-- Changes a binding of a scope or declares it. -/
def set (s : Store) (id : ScopeId) (name : String) (v : Value) : Except Fault Store :=
  (s.setIn id name).map fun scope => s.bind scope name v

def read (s : Store) (id : ScopeId) (name : String) : Except Fault Value :=
  match s.lookup? id name with
  | some v => .ok v
  | none => .error (.undefinedVariable name)

def unbind (s : Store) (id : ScopeId) (name : String) : Store :=
  s.updateScope id fun scope => { scope with bindings := scope.bindings.erase name }

def lock (s : Store) (id : ScopeId) : Store :=
  s.updateScope id fun scope => { scope with locked := true }

/-- The names that a scope binds, sorted. -/
def boundNames (s : Store) (id : ScopeId) : List String :=
  (s.scope? id).elim [] fun scope => Text.sort scope.bindings.names

end ScriptKit.Store
