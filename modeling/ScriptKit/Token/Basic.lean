import ScriptKit.Location
import ScriptKit.Text.Basic

namespace ScriptKit

inductive Token.Kind
  | comment
  | keyword
  | null
  | number
  | string
  | boolean
  | assignment
  | operator
  | comparator
  | semicolon
  | comma
  | dot
  | identifier
  | leftParen
  | rightParen
  | leftCurly
  | rightCurly
  | leftBracket
  | rightBracket
  | whitespace
  deriving DecidableEq

def Token.Kind.name : Token.Kind → String
  | comment => "COMMENT"
  | keyword => "KEYWORD"
  | null => "NULL"
  | number => "NUMERICAL"
  | string => "STRING"
  | boolean => "BOOLEAN"
  | assignment => "ASSIGNMENT"
  | operator => "OPERATOR"
  | comparator => "COMPARATOR"
  | semicolon => "TERMINAL"
  | comma => "COMMA"
  | dot => "DOT"
  | identifier => "IDENTIFIER"
  | leftParen => "LEFT_PAREN"
  | rightParen => "RIGHT_PAREN"
  | leftCurly => "LEFT_CURLY"
  | rightCurly => "RIGHT_CURLY"
  | leftBracket => "LEFT_BRACKET"
  | rightBracket => "RIGHT_BRACKET"
  | whitespace => "WHITESPACE"

/-- After a token of such a kind a minus sign is an operator and never part of a number. -/
def Token.Kind.endsOperand : Token.Kind → Bool
  | identifier | number | string | boolean | null | rightParen | rightBracket => true
  | _ => false

/-- A piece of source text as it is written, quotes included, with the line it begins on. -/
structure Token where
  kind : Token.Kind
  text : String
  line : Nat
  deriving DecidableEq

/-- White space and comments do not matter to the grammar. -/
def Token.isBlank (t : Token) : Bool :=
  t.kind = .whitespace || t.kind = .comment

def Token.render (file : String) (t : Token) : String :=
  "(" ++ (Location.mk file t.line).render ++ ") " ++ Text.padRight 13 t.kind.name ++
    " │" ++ t.text ++ "│"

end ScriptKit
