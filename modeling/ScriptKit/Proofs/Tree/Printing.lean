import ScriptKit.Proofs.Tree.Translation
import ScriptKit.Token.Lexer

namespace ScriptKit

/-- The kind and the text of a token, wherever it stands. -/
structure Word where
  kind : Token.Kind
  text : String
  deriving DecidableEq

namespace Word

/-- The word of a kind that has only one. -/
def of (kind : Token.Kind) : Word :=
  ⟨kind, match kind with
    | .assignment => "="
    | .semicolon => ";"
    | .comma => ","
    | .dot => "."
    | .leftParen => "("
    | .rightParen => ")"
    | .leftCurly => "\x7b"
    | .rightCurly => "\x7d"
    | .leftBracket => "["
    | .rightBracket => "]"
    | _ => ""⟩

def keyword (text : String) : Word := ⟨.keyword, text⟩

/-- A string literal that stands for a text. -/
def quoted (text : String) : Word :=
  ⟨.string, String.ofList ('"' :: text.toList.flatMap escaped ++ ['"'])⟩
where
  escaped (c : Char) : List Char := if c = '"' ∨ c = '\\' then ['\\', c] else [c]

/-- Words between two signs. -/
def between (first last : Token.Kind) (words : List Word) : List Word :=
  of first :: words ++ [of last]

def inParens : List Word → List Word := between .leftParen .rightParen

def inBrackets : List Word → List Word := between .leftBracket .rightBracket

def inBraces : List Word → List Word := between .leftCurly .rightCurly

/-- Words with a space after each. -/
def spaced (words : List Word) : List Char :=
  words.flatMap fun w => w.text.toList ++ [' ']

end Word

namespace Tree

open Word

/-- Whether a text is a token of a kind. -/
def isText (kind : Token.Kind) (text : String) : Bool :=
  Token.fullKind false text.toList = some kind

/-- A literal or a name that is no negative number. -/
def isSimple (t : Tree) : Bool :=
  t.kind.isLiteral && !(t.kind = .number && t.text.toList.head? = some '-')

/-- An operand stands in parentheses unless it is simple. -/
def asOperand (t : Tree) (words : List Word) : List Word :=
  if t.isSimple then words else inParens words

/-- Conditions and loops have nothing after their last brace. -/
def ending (t : Tree) : List Word :=
  if t.kind = .ifStatement ∨ t.kind = .whileStatement then [] else [of .semicolon]

mutual

/-- The words of a program, in the order they are written in. -/
def words : Tree → List Word
  | .node kind text _ _ children =>
    match kind, children with
    | .program, [.node _ _ _ _ statements] => statementWords statements
    | .block, statements => inBraces (statementWords statements)
    | .expressionList, items | .argumentList, items => itemWords items
    | .number, _ => [⟨.number, text⟩]
    | .string, _ => [quoted text]
    | .boolean, _ => [⟨.boolean, text⟩]
    | .identifier, _ => [⟨.identifier, text⟩]
    | .null, _ => [⟨.null, text⟩]
    | .binary, [left, right] =>
      left.asOperand (words left) ++ ⟨.operator, text⟩ :: right.asOperand (words right)
    | .comparison, [left, right] =>
      left.asOperand (words left) ++ ⟨.comparator, text⟩ :: right.asOperand (words right)
    | .assign, [target, value] => words target ++ of .assignment :: words value
    | .indexWrite, [base, .node _ _ _ _ indices, value] =>
      base.asOperand (words base) ++ indexWords indices ++ of .assignment :: words value
    | .call, [callee, list] => callee.asOperand (words callee) ++ inParens (words list)
    | .member, [object, name] => object.asOperand (words object) ++ of .dot :: words name
    | .index, [target, index] => target.asOperand (words target) ++ inBrackets (words index)
    | .array, [list] => inBrackets (words list)
    | .function, [parameters, body] =>
      keyword "func" :: (if text = "" then [] else [⟨.identifier, text⟩]) ++
        inParens (words parameters) ++ words body
    | .classLiteral, [body] => keyword "class" :: ⟨.identifier, text⟩ :: words body
    | .functionDefinition, [literal] | .classDefinition, [literal] => words literal
    | .declaration, [name] => keyword "let" :: words name
    | .initialisation, [name, value] =>
      keyword "let" :: words name ++ of .assignment :: words value
    | .ifStatement, [test, body] => keyword "if" :: inParens (words test) ++ words body
    | .ifStatement, [test, body, other] =>
      keyword "if" :: inParens (words test) ++ words body ++ keyword "else" :: words other
    | .whileStatement, [test, body] => keyword "while" :: inParens (words test) ++ words body
    | _, _ => []

/-- Statements one after the other. -/
def statementWords : List Tree → List Word
  | [] => []
  | t :: ts => words t ++ t.ending ++ statementWords ts

/-- Items with commas between them. -/
def itemWords : List Tree → List Word
  | [] => []
  | [t] => words t
  | t :: ts => words t ++ of .comma :: itemWords ts

/-- Indices one after the other, each in brackets. -/
def indexWords : List Tree → List Word
  | [] => []
  | t :: ts => inBrackets (words t) ++ indexWords ts

end

theorem itemWords_cons_cons (t u : Tree) (ts : List Tree) :
    itemWords (t :: u :: ts) = words t ++ of .comma :: itemWords (u :: ts) := rfl

/-- Whether the text of a node can be written: the only word of its kind, a name where one is
needed, and nothing for a node that has no text. Only numbers are evaluated. -/
def textFits : Tree → Bool
  | .node kind text evaluated _ _ =>
    evaluated = (kind = .number) &&
      match kind with
      | .string => true
      | .number => isText .number text
      | .boolean => isText .boolean text
      | .null => isText .null text
      | .identifier | .classLiteral => isText .identifier text
      | .function => text = "" || isText .identifier text
      | .binary => isText .operator text
      | .comparison => isText .comparator text
      | .expression => false
      | _ => text = ""

mutual

/-- Whether every node of a tree has a text that can be written. -/
def legible : Tree → Bool
  | .node kind text evaluated line children =>
    textFits (.node kind text evaluated line children) && legibleAll children

def legibleAll : List Tree → Bool
  | [] => true
  | t :: ts => legible t && legibleAll ts

end

/-- The source text of a program: its words with spaces after them. -/
def source (t : Tree) : String :=
  String.ofList (spaced t.words)

end Tree

end ScriptKit
