import ScriptKit.Yaml.Node
import ScriptKit.Yaml.Token

namespace ScriptKit.Yaml

/-- The tag of a scalar that has none of its own. -/
def scalarTag (plain : Bool) (text : String) : String :=
  if !plain then Tag.text.name
  else if text = "<<" then Node.mergeTag
  else (Tag.ofText text).name

/-- The tokens that are still to be read, the anchors so far with the latest first, the nodes that
have them, and how the handles of tags are replaced. -/
structure Composer where
  tokens : List Token
  anchors : List (String × Nat)
  anchored : List (Nat × Node)
  handles : List (String × String)

/-- A step of reading nodes, which fails if the tokens do not make up a document. -/
abbrev Compose := StateT Composer Option

namespace Compose

def failure {α : Type} : Compose α := fun _ => none

def peek : Compose Token := fun s => s.tokens.head?.map fun t => (t, s)

def skip : Compose Unit := fun s => some ((), { s with tokens := s.tokens.drop 1 })

def nextIs (ts : List Token) : Compose Bool := do
  return ts.contains (← peek)

def standardTags : String := "tag:yaml.org,2002:"

/-- A tag in its short form; the mark alone is no tag. -/
def shortTag (handle suffix : String) : Compose String := fun s =>
  let full? := if handle = "" then some suffix
    else (s.handles.lookup handle).map (· ++ suffix)
  full?.map fun full =>
    (if full = "!" then ""
      else if Text.hasOpening standardTags full then
        "!!" ++ String.ofList (full.toList.drop standardTags.length)
      else full, s)

/-- The anchor and the tag in front of a node, in either order. -/
def properties : Compose (Option String × Option String) := do
  match ← peek with
  | .anchor a =>
    skip
    match ← peek with
    | .tag h t =>
      skip
      return (some a, some (← shortTag h t))
    | _ => return (some a, none)
  | .tag h t =>
    skip
    let tag ← shortTag h t
    match ← peek with
    | .anchor a =>
      skip
      return (some a, some tag)
    | _ => return (none, some tag)
  | _ => return (none, none)

/-- Takes in an anchor under a number of its own. -/
def bindAnchor : Option String → Compose (Option Nat)
  | none => pure none
  | some a => fun s =>
    let number := s.anchors.length
    some (some number, { s with anchors := (a, number) :: s.anchors })

/-- A node that may have an anchor. -/
def anchoredBy (anchor : Option Nat) (n : Node) : Compose Node := fun s =>
  some (n, match anchor with
    | some number => { s with anchored := (number, n) :: s.anchored }
    | none => s)

def chosen (tag : Option String) (fallback : String) : String :=
  match tag with
  | some t => if t = "" then fallback else t
  | none => fallback

/-- A node with an anchor, which can be referred to in the node itself. -/
def anchoring (anchor : Option String) (read : Compose Node) : Compose Node := do
  let number ← bindAnchor anchor
  anchoredBy number (← read)

mutual

/-- Reads a node. Outside of flow collections block collections can begin here; as the value of a
key a sequence needs no indentation. -/
def node (block indentless : Bool) : Nat → Compose Node
  | 0 => failure
  | fuel + 1 => do
    match ← peek with
    | .alias a =>
      skip
      fun s => (s.anchors.lookup a).map fun number => (Node.alias a number, s)
    | _ =>
      let (anchor, tag) ← properties
      let sequenceTag := chosen tag "!!seq"
      let mappingTag := chosen tag "!!map"
      match ← peek with
      | .scalar plain text =>
        skip
        anchoring anchor do return .scalar (chosen tag (scalarTag plain text)) text
      | .flowSequenceStart =>
        skip
        anchoring anchor do return .sequence sequenceTag (← flowItems true fuel)
      | .flowMappingStart =>
        skip
        anchoring anchor do return .mapping mappingTag (← flowEntries true fuel)
      | t =>
        if t = .blockEntry && indentless then
          anchoring anchor do return .sequence sequenceTag (← indentlessItems fuel)
        else if t = .blockSequenceStart && block then do
          skip
          anchoring anchor do return .sequence sequenceTag (← blockItems fuel)
        else if t = .blockMappingStart && block then do
          skip
          anchoring anchor do return .mapping mappingTag (← blockEntries fuel)
        else if anchor.isSome || tag.isSome then do
          anchoring anchor do return .scalar (chosen tag (scalarTag true "")) ""
        else failure

/-- A node, or the empty one if one of the given tokens comes next. -/
def nodeUnless (ends : List Token) (block indentless : Bool) : Nat → Compose Node
  | 0 => failure
  | fuel + 1 => do
    if ← nextIs ends then return Node.empty
    node block indentless fuel

def blockItems : Nat → Compose (List Node)
  | 0 => failure
  | fuel + 1 => do
    match ← peek with
    | .blockEntry =>
      skip
      let n ← nodeUnless [.blockEntry, .blockEnd] true false fuel
      return n :: (← blockItems fuel)
    | .blockEnd =>
      skip
      return []
    | _ => failure

def indentlessItems : Nat → Compose (List Node)
  | 0 => failure
  | fuel + 1 => do
    match ← peek with
    | .blockEntry =>
      skip
      let n ← nodeUnless [.blockEntry, .key, .value, .blockEnd] true false fuel
      return n :: (← indentlessItems fuel)
    | _ => return []

def blockEntries : Nat → Compose (List (Node × Node))
  | 0 => failure
  | fuel + 1 => do
    match ← peek with
    | .key =>
      skip
      let k ← nodeUnless [.key, .value, .blockEnd] true true fuel
      let v ← valueAfter [.key, .value, .blockEnd] true fuel
      return (k, v) :: (← blockEntries fuel)
    | .blockEnd =>
      skip
      return []
    | _ => failure

/-- The value after its mark; without a mark the value is empty. -/
def valueAfter (ends : List Token) (block : Bool) : Nat → Compose Node
  | 0 => failure
  | fuel + 1 => do
    if (← peek) = .value then
      skip
      nodeUnless ends block block fuel
    else return Node.empty

def flowItems (first : Bool) : Nat → Compose (List Node)
  | 0 => failure
  | fuel + 1 => do
    if (← peek) = .flowSequenceEnd then
      skip
      return []
    if !first then
      if (← peek) = .flowEntry then skip else failure
    match ← peek with
    | .flowSequenceEnd =>
      skip
      return []
    | .key =>
      skip
      let keyEnds := [.value, .flowEntry, .flowSequenceEnd]
      let k ←
        if ← nextIs keyEnds then do
          skip
          pure Node.empty
        else node false false fuel
      let v ← valueAfter [.flowEntry, .flowSequenceEnd] false fuel
      return .mapping "!!map" [(k, v)] :: (← flowItems false fuel)
    | _ =>
      let n ← node false false fuel
      return n :: (← flowItems false fuel)

def flowEntries (first : Bool) : Nat → Compose (List (Node × Node))
  | 0 => failure
  | fuel + 1 => do
    if (← peek) = .flowMappingEnd then
      skip
      return []
    if !first then
      if (← peek) = .flowEntry then skip else failure
    match ← peek with
    | .flowMappingEnd =>
      skip
      return []
    | .key =>
      skip
      let k ← nodeUnless [.value, .flowEntry, .flowMappingEnd] false false fuel
      let v ← valueAfter [.flowEntry, .flowMappingEnd] false fuel
      return (k, v) :: (← flowEntries false fuel)
    | _ =>
      let k ← node false false fuel
      return (k, Node.empty) :: (← flowEntries false fuel)

end

/-- Reads the directives in front of a document and says whether there are any. Only one version of
the format is known. -/
def directives : Nat → Bool → Compose Bool
  | 0, _ => failure
  | fuel + 1, versioned => do
    match ← peek with
    | .versionDirective major minor =>
      if versioned || major ≠ 1 || minor ≠ 1 then failure
      else
        skip
        let _ ← directives fuel true
        return true
    | .tagDirective handle replacement =>
      skip
      let _ ← fun s => some ((), { s with handles := (handle, replacement) :: s.handles })
      let _ ← directives fuel versioned
      return true
    | _ => return false

/-- The first document; none if there is not any. What comes after it is not looked at. -/
def document (fuel : Nat) : Compose (Option Node) := do
  let directed ← directives fuel false
  match ← peek with
  | .documentStart =>
    skip
    let ends ← nextIs [.documentStart, .documentEnd, .streamEnd]
    let n ← match ← peek with
      | .versionDirective _ _ | .tagDirective _ _ => pure Node.empty
      | _ => if ends then pure Node.empty else node true false fuel
    let _ ← peek
    return some n
  | t =>
    if directed then failure
    else if t = .streamEnd then return none
    else
      let n ← node true false fuel
      let _ ← peek
      return some n

end Compose

/-- Reads the first document of a text. The outer `none` is an error, the inner one means that
the text has no document. -/
def read (text : String) : Option (Option Document) :=
  let chars := match text.toList with
    | c :: rest => if c.toNat = 0xfeff then rest else c :: rest
    | [] => []
  if !chars.all isAllowed then none
  else
    let ts := tokens chars
    (Compose.document (4 * ts.length + 4)
      ⟨ts, [], [], [("!", "!"), ("!!", Compose.standardTags)]⟩).map fun (root, s) =>
        root.map fun n => ⟨n, s.anchored⟩

end ScriptKit.Yaml
