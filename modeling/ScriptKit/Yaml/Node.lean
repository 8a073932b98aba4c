import ScriptKit.Yaml.Tag

namespace ScriptKit.Yaml

/-- A node of a document. An alias stands for the node that has its anchor, which may be one that
the alias is a part of. -/
inductive Node
  | scalar (tag : String) (text : String)
  | sequence (tag : String) (items : List Node)
  | mapping (tag : String) (entries : List (Node × Node))
  | alias (name : String) (anchor : Nat)

namespace Node

def mergeTag : String := "!!merge"

def empty : Node := scalar Tag.null.name ""

mutual

/-- The number of nodes in a node. -/
def size : Node → Nat
  | scalar _ _ => 1
  | sequence _ items => sizeItems items + 1
  | mapping _ entries => sizeEntries entries + 1
  | .alias _ _ => 1

def sizeItems : List Node → Nat
  | [] => 0
  | n :: rest => n.size + sizeItems rest

def sizeEntries : List (Node × Node) → Nat
  | [] => 0
  | (k, v) :: rest => k.size + v.size + sizeEntries rest

end

end Node

/-- A document: its first node, and the nodes that have anchors. No node with an anchor is an
alias. -/
structure Document where
  root : Node
  anchored : List (Nat × Node)

namespace Document

/-- What a node stands for. -/
def target (doc : Document) : Node → Node
  | .alias _ anchor => (doc.anchored.lookup anchor).getD .empty
  | n => n

/-- The number of nodes in a document, which is more than can be nested in it. -/
def size (doc : Document) : Nat :=
  Node.sizeItems (doc.anchored.map Prod.snd) + doc.root.size

end Document

/-- A library for documents. It reads the first document of a text, if that is well-formed and has
one, and writes a document. -/
structure Codec where
  read : String → Option (Option Document)
  render : Node → String

end ScriptKit.Yaml
