import ScriptKit.Text.Base64
import ScriptKit.Yaml.Node

namespace ScriptKit.Yaml

/-- Why a document cannot be decoded: it is not well-formed, it has values of the wrong types, or
what is decoded refuses it. -/
inductive DecodeError (ε : Type)
  | malformed
  | refused (e : ε)

/-- A step of decoding. A value of the wrong type is remembered and decoding goes on; every other
problem ends it. -/
abbrev Decode (ε : Type) := StateT Bool (Except (DecodeError ε))

namespace Decode

variable {ε α : Type}

def malformed : Decode ε α := fun _ => .error .malformed

def refuse (e : ε) : Decode ε α := fun _ => .error (.refused e)

/-- Remembers that a value has the wrong type. -/
def mismatch : Decode ε Unit := fun _ => .ok ((), true)

/-- Decodes a whole value: remembered mismatches count as errors in the end. -/
def run (d : Decode ε α) : Except (DecodeError ε) α :=
  match d false with
  | .ok (a, false) => .ok a
  | .ok (_, true) => .error .malformed
  | .error e => .error e

/-- The tags whose texts are held to them. -/
def checkedTags : List String :=
  [Tag.boolean, .integer, .float, .null, .timestamp].map Tag.name

def binaryTag : String := "!!binary"

/-- The text of a scalar as it is written, unless it stands for null or is encoded. A tag has to fit
the text. -/
def scalarText (tag text : String) : Decode ε (Option String) :=
  if checkedTags.contains tag then
    let found := Tag.ofText text
    if found.name = tag || (tag = Tag.float.name && found = .integer) then
      pure (if found = .null then none else some text)
    else malformed
  else if tag = binaryTag then
    match Text.Base64.decode text with
    | some decoded => pure (some decoded)
    | none => malformed
  else pure (some text)

section Documents

variable (doc : Document)

/-- A text, or nothing if the node is null or no scalar. -/
def string (n : Node) : Decode ε (Option String) :=
  match doc.target n with
  | .scalar tag text => scalarText tag text
  | _ => do
    mismatch
    return none

/-- Whether two keys of a mapping are written alike. -/
def sameKey : Node → Node → Bool
  | .scalar _ s, .scalar _ t => s = t
  | .alias s _, .alias t _ => s = t
  | .sequence _ _, .sequence _ _ => true
  | .mapping _ _, .mapping _ _ => true
  | _, _ => false

def hasRepeatedKey : List (Node × Node) → Bool
  | [] => false
  | (k, _) :: rest => rest.any (fun e => sameKey k e.1) || hasRepeatedKey rest

def isMergeKey : Node → Bool
  | .scalar tag text => text = "<<" && tag = Node.mergeTag
  | _ => false

/-- Reads the fields of a record from the entries of a mapping into a value. Names that are not
known are passed over or remembered as errors. A field that was set keeps its value; only a mapping
that is merged in may give it once more. -/
def entries (fields : List String) (strict merging : Bool)
    (set : α → String → Node → Decode ε α) :
    List String → α → List (Node × Node) → Decode ε (List String × α)
  | done, a, [] => pure (done, a)
  | done, a, (k, v) :: rest => do
    if isMergeKey k then entries fields strict merging set done a rest
    else
      match ← string doc k with
      | none => entries fields strict merging set done a rest
      | some name =>
        if done.contains name then
          if !merging then mismatch
          entries fields strict merging set done a rest
        else if fields.contains name then
          let a ← set a name v
          entries fields strict merging set (name :: done) a rest
        else
          if strict then mismatch
          entries fields strict merging set done a rest

/-- The value of the merge key of a mapping. -/
def mergeSource? (es : List (Node × Node)) : Option Node :=
  (es.filter fun e => isMergeKey e.1).getLast?.map Prod.snd

/-- What the value of a merge key stands for: one node, or several. -/
def sources : Node → List Node
  | .sequence _ items => items.map doc.target
  | n => [doc.target n]

/-- Goes on with the entries of a node that has to be a mapping. -/
def mapping (next : α → List (Node × Node) → Decode ε α) (a : α) : Node → Decode ε α
  | .mapping _ es => next a es
  | _ => malformed

/-- Reads the fields of a record from a mapping. Mappings that are merged in give the fields that
are not set otherwise. What is nested more deeply than the fuel would contain itself. -/
def fill (fields : List String) (strict : Bool) (set : α → String → Node → Decode ε α) :
    Nat → Bool → List String × α → List (Node × Node) → Decode ε (List String × α)
  | 0, _, _, _ => malformed
  | fuel + 1, merging, (done, a), es => do
    if hasRepeatedKey es then
      mismatch
      return (done, a)
    let own ← entries doc fields strict merging set done a es
    match mergeSource? es with
    | none => return own
    | some source => (sources doc source).foldlM (mapping (fill fields strict set fuel true)) own

/-- Reads a record, or nothing if the node is null or no mapping. -/
def record (fields : List String) (strict : Bool) (set : α → String → Node → Decode ε α)
    (initial : α) (n : Node) : Decode ε (Option α) :=
  match doc.target n with
  | .mapping _ es => do
    let (_, a) ← fill doc fields strict set doc.size false ([], initial) es
    return some a
  | .scalar tag text => do
    match ← scalarText tag text with
    | none => return none
    | some _ =>
      mismatch
      return none
  | _ => do
    mismatch
    return none

/-- Reads a list. Items that cannot be read are left out. -/
def list (item : Node → Decode ε (Option α)) (n : Node) : Decode ε (List α) :=
  match doc.target n with
  | .sequence _ items => do
    let found ← items.mapM item
    return found.filterMap id
  | .scalar tag text => do
    match ← scalarText tag text with
    | none => return []
    | some _ =>
      mismatch
      return []
  | _ => do
    mismatch
    return []

end Documents

end Decode

end ScriptKit.Yaml
