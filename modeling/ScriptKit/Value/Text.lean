import ScriptKit.Value.Basic
import ScriptKit.Text.Quoted

namespace ScriptKit.Store

def functionText (s : Store) (id : FunctionId) : String :=
  match s.functions[id]? with
  | none => "<func>"
  | some f => if f.name = "" then "<func>" else "<func " ++ f.name ++ ">"

def className (s : Store) (id : ClassId) : String :=
  (s.classes[id]?).elim "" (·.name)

def objectText (s : Store) (id : ObjectId) : String :=
  match (s.objects[id]?).bind (·.ofClass) with
  | none => "<object>"
  | some c => "<" ++ s.className c ++ " object>"

/-- The text of a value that is not an array. -/
def scalarText (s : Store) : Value → String
  | .absent | .null => "null"
  | .number x => Number.render x
  | .string t => t
  | .boolean b => if b then "true" else "false"
  | .array _ => "[...]"
  | .function id => s.functionText id
  | .classValue id => "<class " ++ s.className id ++ ">"
  | .object id => s.objectText id

/-- The text of an array inside of the arrays `outer`: strings are quoted, and an array that
contains itself is cut short. -/
def arrayText (s : Store) : Nat → List ArrayId → ArrayId → String
  | 0, _, _ => "[...]"
  | fuel + 1, outer, id =>
    if outer.contains id then "[...]"
    else
      let part : Value → String
        | .string t => Text.quote t
        | .array inner => s.arrayText fuel (id :: outer) inner
        | v => s.scalarText v
      "[" ++ ", ".intercalate ((s.elements id).toList.map part) ++ "]"

/-- A value as it is printed. -/
def text (s : Store) : Value → String
  | .array id => s.arrayText (s.arrays.size + 1) [] id
  | v => s.scalarText v

end ScriptKit.Store
