namespace ScriptKit

/-- A line of a file. The line zero stands for no place at all. -/
structure Location where
  file : String
  line : Nat
  deriving DecidableEq

def Location.nowhere : Location := ⟨"", 0⟩

def Location.render (l : Location) : String :=
  if l.file = "" then "line " ++ toString l.line else l.file ++ ":" ++ toString l.line

end ScriptKit
