import ScriptKit.Number.Reader
import ScriptKit.Number.Text
import ScriptKit.Tree.Kind

namespace ScriptKit

/-- A program tree. A node has the text of its token, if it stands for one, and a line; a numeric
literal is evaluated once its text has been read as a number. -/
inductive Tree
  | node (kind : Tree.Kind) (text : String) (evaluated : Bool) (line : Nat) (children : List Tree)

namespace Tree

def leaf (kind : Kind) (text : String) (line : Nat) : Tree :=
  node kind text false line []

def branch (kind : Kind) (line : Nat) (children : List Tree) : Tree :=
  node kind "" false line children

def kind : Tree → Kind
  | node k _ _ _ _ => k

def text : Tree → String
  | node _ t _ _ _ => t

def line : Tree → Nat
  | node _ _ _ l _ => l

def children : Tree → List Tree
  | node _ _ _ _ cs => cs

def child? (t : Tree) (i : Nat) : Option Tree :=
  t.children[i]?

mutual

def decEq : (t u : Tree) → Decidable (t = u)
  | node k x e l ts, node k' x' e' l' us =>
    if h : k = k' ∧ x = x' ∧ e = e' ∧ l = l' then
      match decEqAll ts us with
      | isTrue hts => isTrue (by obtain ⟨rfl, rfl, rfl, rfl⟩ := h; rw [hts])
      | isFalse hts => isFalse fun heq => hts (node.inj heq).2.2.2.2
    else isFalse fun heq =>
      have hparts := node.inj heq
      h ⟨hparts.1, hparts.2.1, hparts.2.2.1, hparts.2.2.2.1⟩

def decEqAll : (ts us : List Tree) → Decidable (ts = us)
  | [], [] => isTrue rfl
  | [], _ :: _ => isFalse nofun
  | _ :: _, [] => isFalse nofun
  | t :: ts, u :: us =>
    match decEq t u with
    | isFalse ht => isFalse fun heq => ht (List.cons.inj heq).1
    | isTrue ht =>
      match decEqAll ts us with
      | isFalse hts => isFalse fun heq => hts (List.cons.inj heq).2
      | isTrue hts => isTrue (by rw [ht, hts])

end

instance : DecidableEq Tree := decEq

/-- The text shown for a node: an evaluated number is written as a number. -/
def shownText (kind : Kind) (text : String) (evaluated : Bool) : String :=
  if kind = .number && evaluated then Number.compact (Number.literalValue text) else text

/-- One line of a listing of a tree. -/
structure Row where
  depth : Nat
  kind : String
  text : String
  line : Nat

mutual

/-- The nodes of a tree from the root on, each before its children. -/
def rows (depth : Nat) : Tree → List Row
  | node k t e l cs => ⟨depth, k.name, shownText k t e, l⟩ :: rowsList (depth + 1) cs

def rowsList (depth : Nat) : List Tree → List Row
  | [] => []
  | t :: ts => rows depth t ++ rowsList depth ts

end

end Tree

end ScriptKit
