import ScriptKit.Tree.Basic
import ScriptKit.Yaml.Node

namespace ScriptKit.Tree

open Yaml

def textEntry (key value : String) : Node × Node :=
  (.scalar Tag.text.name key, .scalar Tag.text.name value)

mutual

/-- A tree as a document: each node with what it has of a text, a line and children. -/
def toDocument : Tree → Node
  | node k t e l cs =>
    let text := shownText k t e
    .mapping "!!map" (
      [textEntry "kind" k.name] ++
      (if text = "" then [] else [textEntry "text" text]) ++
      (if l = 0 then [] else [(.scalar Tag.text.name "line", .scalar "!!int" (toString l))]) ++
      (if cs.isEmpty then [] else
        [(.scalar Tag.text.name "children", .sequence "!!seq" (documents cs))]))

def documents : List Tree → List Node
  | [] => []
  | t :: ts => toDocument t :: documents ts

end

end ScriptKit.Tree
