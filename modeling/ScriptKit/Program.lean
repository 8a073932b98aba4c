import ScriptKit.Arena.Normal
import ScriptKit.Grammar.Parse
import ScriptKit.Log
import ScriptKit.Token.Lexer

namespace ScriptKit

/-- A source text with the name shown in messages, the directory that relative targets start
from, and the absolute path it is known by. A virtual file does not come from a file system. -/
structure SourceFile where
  content : String
  name : String
  directory : String
  path : String
  virtual : Bool
  deriving DecidableEq

/-- A program that has been read: its tree in evaluated shapes, and the diagnostic if part of the
text was left unread. -/
structure Program where
  file : SourceFile
  executable : Bool
  tree : Tree
  diagnostic : Option Diagnostic

namespace Program

def structuredTree (file : String) (t : Tree) : Tree :=
  ((Arena.ofTree file t).structured.toTree Arena.root).getD t

def normalTree (file : String) (t : Tree) : Tree :=
  ((Arena.ofTree file t).normalised.toTree Arena.root).getD t

/-- The complaint about a program that was not read in full. -/
def incomplete? (p : Program) : Option String :=
  p.diagnostic.map (·.render p.file.name)

/-- Scans, parses and normalises a file. Only text that cannot be scanned is an error. The log
tells each phase. -/
def parse (file : SourceFile) : Except Token.LexError Program × List Log.Entry :=
  let named (message : String) (more : List (String × String)) : Log.Entry :=
    ⟨Log.debug, message, ("file", file.name) :: more⟩
  let scan := Token.scan file.content
  match scan.failure with
  | some e => (.error e, [named "lexing" []])
  | none =>
    let parsed := Grammar.parseTokens scan.tokens file.name
    let stuck := match parsed.diagnostic with
      | none => []
      | some d => [named "incomplete parse" [("at", (Location.mk file.name d.line).render)]]
    let tree := (parsed.arena.normalised.toTree Arena.root).getD parsed.root
    (.ok ⟨file, parsed.executable, tree, parsed.diagnostic⟩,
      [named "lexing" [], named "parsing" [("tokens", toString scan.tokens.length)]] ++ stuck ++
        [named "optimizing" []])

end Program

end ScriptKit
