import ScriptKit.Grammar.Builder

namespace ScriptKit

/-- Text that the grammar could not read, and the line where reading got stuck. -/
structure Diagnostic where
  message : String
  line : Nat
  deriving DecidableEq

def Diagnostic.render (file : String) (d : Diagnostic) : String :=
  (Location.mk file d.line).render ++ ": " ++ d.message

namespace Grammar

def programTree (children : List Tree) : Tree :=
  .branch .program 1 children

end Grammar

/-- A program as the grammar builds it: the tree below the root of an arena, which also holds what
was abandoned on the way. A text without any significant token is not executed. -/
structure Parsed where
  executable : Bool
  arena : Arena
  diagnostic : Option Diagnostic

/-- The tree of the program as it was read. -/
def Parsed.root (p : Parsed) : Tree :=
  (p.arena.toTree Arena.root).getD (Grammar.programTree [])

namespace Grammar

/-- At most this many tokens of the unread text are shown. -/
def remainderLength : Nat := 8

/-- The diagnostic for the significant tokens from a place on. It stands at the furthest token
that was looked at. -/
def remainder (tokens : Array Token) (place furthest : Nat) : Diagnostic :=
  let unread := (tokens.toList.drop place).filter fun t => !t.isBlank
  ⟨"could not parse remainder: " ++
      " ".intercalate ((unread.take remainderLength).map Token.text),
    lineAt tokens (max place furthest)⟩

/-- The diagnostic of a reading that ended at a position, if tokens are left. -/
def leftOver (tokens : Array Token) (pos furthest : Nat) : Option Diagnostic :=
  let rest := skip tokens pos
  if rest < tokens.size then some (remainder tokens rest furthest) else none

/-- Reads a program from its tokens. -/
def parseTokens (tokens : List Token) (file : String := "") : Parsed :=
  let tokens := tokens.toArray
  if tokens.size ≤ skip tokens 0 then ⟨false, .empty file, none⟩
  else
    match buildRule tokens (enoughFuel tokens) .block Arena.root 0 (.start file) with
    | (.matched next, b) => ⟨true, b.arena, leftOver tokens next b.furthest⟩
    | (_, b) => ⟨true, b.arena, leftOver tokens 0 b.furthest⟩

end Grammar

end ScriptKit
