import ScriptKit.Location
import ScriptKit.Tree.Basic

namespace ScriptKit

abbrev NodeId := Nat

/-- One slot of an arena. -/
structure Arena.Node where
  kind : Tree.Kind
  parent : Option NodeId
  children : List NodeId
  text : String
  evaluated : Bool
  line : Nat

/-- The nodes of one program, each named by its place. The root is its own parent; other nodes
are attached below a node or detached. -/
structure Arena where
  file : String
  nodes : Array Arena.Node

namespace Arena

def root : NodeId := 0

def empty (file : String) : Arena :=
  ⟨file, #[⟨.program, some root, [], "", false, 1⟩]⟩

def size (a : Arena) : Nat := a.nodes.size

def node? (a : Arena) (id : NodeId) : Option Node := a.nodes[id]?

def kind? (a : Arena) (id : NodeId) : Option Tree.Kind := (a.node? id).map (·.kind)

def hasKind (a : Arena) (id : NodeId) (k : Tree.Kind) : Bool := a.kind? id = some k

def parent? (a : Arena) (id : NodeId) : Option NodeId := (a.node? id).bind (·.parent)

def children (a : Arena) (id : NodeId) : List NodeId := (a.node? id).elim [] (·.children)

def child? (a : Arena) (id : NodeId) (i : Nat) : Option NodeId := (a.children id)[i]?

def text (a : Arena) (id : NodeId) : String := (a.node? id).elim "" (·.text)

def line (a : Arena) (id : NodeId) : Nat := (a.node? id).elim 0 (·.line)

/-- The place of a node in its file; a node that does not exist is nowhere. -/
def location (a : Arena) (id : NodeId) : Location :=
  match a.node? id with
  | some n => ⟨a.file, n.line⟩
  | none => .nowhere

/-- Changes a node, if it exists. -/
def update (a : Arena) (id : NodeId) (f : Node → Node) : Arena :=
  { a with nodes := a.nodes.modify id f }

def setParent (a : Arena) (id : NodeId) (parent : Option NodeId) : Arena :=
  a.update id fun n => { n with parent }

def setChildList (a : Arena) (id : NodeId) (children : List NodeId) : Arena :=
  a.update id fun n => { n with children }

/-- Adds a detached node. Its id is the size of the arena before. -/
def add (a : Arena) (kind : Tree.Kind) (text : String) (line : Nat) : Arena :=
  { a with nodes := a.nodes.push ⟨kind, none, [], text, false, line⟩ }

/-- Takes a node out of the child list of its parent. The root stays where it is. -/
def detach (a : Arena) (id : NodeId) : Arena :=
  match a.parent? id with
  | none => a
  | some p =>
    if p = id then a
    else (a.setChildList p ((a.children p).erase id)).setParent id none

/-- Makes a node the last child of another. A node that is attached elsewhere is detached first,
so that no node has two parents. -/
def append (a : Arena) (parent child : NodeId) : Arena :=
  let a := a.detach child
  (a.setChildList parent (a.children parent ++ [child])).setParent child (some parent)

/-- Detaches the nodes that have another parent than `id`. -/
def detachOthers (a : Arena) (id : NodeId) (ids : List NodeId) : Arena :=
  ids.foldl (fun a c => if a.parent? c = some id then a else a.detach c) a

/-- Gives a node a new list of children. -/
def setChildren (a : Arena) (id : NodeId) (ids : List NodeId) : Arena :=
  let a := (a.detachOthers id ids).setChildList id ids
  ids.foldl (fun a c => a.setParent c (some id)) a

/-- The list with the first occurrence of an id replaced. -/
def replaceFirst (old new : NodeId) : List NodeId → List NodeId
  | [] => []
  | c :: rest => if c = old then new :: rest else c :: replaceFirst old new rest

/-- Puts a node in the place that another has in its parent; the other is left detached. -/
def replace (a : Arena) (old new : NodeId) : Arena :=
  match a.parent? old with
  | none => a
  | some p =>
    if old = new then a
    else
      let a := match a.parent? new with
        | none => a
        | some q => if q = old then a else a.detach new
      let a := (a.setChildList p (replaceFirst old new (a.children p))).setParent new (some p)
      if a.parent? old = some p then a.setParent old none else a

/-- Appends all children of one node to another. -/
def moveChildren (a : Arena) (source target : NodeId) : Arena :=
  let moved := a.children source
  moved.foldl (fun a c => (a.setParent c none).append target c) (a.setChildList source [])

/-- The ids below a node in the order of a visit that sees a node before its children and passes
over the children of the nodes that `skip` names, for trees no deeper than the fuel. -/
def walk (a : Arena) (skip : NodeId → Bool) : Nat → NodeId → List NodeId
  | 0, _ => []
  | fuel + 1, id =>
    id :: if skip id then [] else (a.children id).flatMap (a.walk skip fuel)

/-- The tree below a node, for trees no deeper than the fuel. -/
def toTree? (a : Arena) : Nat → NodeId → Option Tree
  | 0, _ => none
  | fuel + 1, id =>
    (a.node? id).map fun n =>
      .node n.kind n.text n.evaluated n.line (n.children.filterMap (a.toTree? fuel))

/-- The tree of the whole program. -/
def toTree (a : Arena) (id : NodeId) : Option Tree :=
  a.toTree? (a.size + 1) id

mutual

/-- Adds a tree below a node. -/
def addTree (a : Arena) (parent : NodeId) : Tree → Arena
  | .node kind text _ line children =>
    let id := a.size
    addTrees ((a.add kind text line).append parent id) id children

def addTrees (a : Arena) (parent : NodeId) : List Tree → Arena
  | [] => a
  | t :: ts => addTrees (addTree a parent t) parent ts

end

/-- The arena that holds the children of a program tree below its root. -/
def ofTree (file : String) (t : Tree) : Arena :=
  addTrees (empty file) root t.children

end Arena

end ScriptKit
