namespace ScriptKit

/-- Values by name, in the order in which the names came in. -/
structure NameTable (α : Type) where
  entries : List (String × α)
  deriving DecidableEq

namespace NameTable

variable {α : Type}

def empty : NameTable α := ⟨[]⟩

def find? (t : NameTable α) (name : String) : Option α :=
  t.entries.lookup name

def contains (t : NameTable α) (name : String) : Bool :=
  (t.find? name).isSome

def names (t : NameTable α) : List String :=
  t.entries.map Prod.fst

/-- Gives a name a value. A name that is there keeps its place; a new one comes last. -/
def insert (t : NameTable α) (name : String) (value : α) : NameTable α :=
  if t.contains name then
    ⟨t.entries.map fun e => if e.1 = name then (name, value) else e⟩
  else ⟨t.entries ++ [(name, value)]⟩

def erase (t : NameTable α) (name : String) : NameTable α :=
  ⟨t.entries.filter fun e => e.1 ≠ name⟩

def ofList (entries : List (String × α)) : NameTable α :=
  entries.foldl (fun t e => t.insert e.1 e.2) empty

end NameTable

end ScriptKit
