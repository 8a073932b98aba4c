import ScriptKit.Token.Basic
import ScriptKit.Tree.Kind

namespace ScriptKit.Grammar

/-- The named productions of the grammar. -/
inductive Rule
  | block
  | statement
  | ifStatement
  | expression
  | comparison
  | additive
  | multiplicative
  | power
  | suffixed
  | primary
  | function
  | classLiteral
  | array
  | expressionList
  | argumentList
  deriving DecidableEq, Hashable

/-- A production says which tokens to accept and which trees to build. Alternatives are tried in
order and the first that matches is taken. -/
inductive Production
  /-- One token of a kind, and of a text if one is given. -/
  | token (kind : Token.Kind) (text : Option String)
  | rule (r : Rule)
  /-- What the first matching alternative builds, below a new node. -/
  | node (kind : Tree.Kind) (alternatives : List (List Production))
  /-- What the first matching alternative builds, without a node of its own. -/
  | choice (alternatives : List (List Production))
  /-- As many repetitions as match. -/
  | many (parts : List Production)
  | optional (p : Production)
  /-- A head with suffixes: each suffix makes a new expression of all that is before it. -/
  | chain (head suffix : Production)

open Production

def kw (word : String) : Production := token .keyword (some word)

def op (symbol : String) : Production := token .operator (some symbol)

def punct (kind : Token.Kind) : Production := token kind none

def name : Production := punct .identifier

def semicolon : Production := punct .semicolon

def braced : List Production :=
  [punct .leftCurly, rule .block, punct .rightCurly]

def parenthesised (p : Production) : List Production :=
  [punct .leftParen, p, punct .rightParen]

def bracketed (p : Production) : List Production :=
  [punct .leftBracket, p, punct .rightBracket]

/-- One or more items with commas between them, or none at all. -/
def commaList (kind : Tree.Kind) (item : Production) : Production :=
  node kind [[item, many [punct .comma, item]], []]

def ifParts : List Production :=
  kw "if" :: parenthesised (rule .expression) ++ braced ++
    [optional (choice [[kw "else", rule .ifStatement], kw "else" :: braced])]

def whileParts : List Production :=
  kw "while" :: parenthesised (rule .expression) ++ braced

/-- The production of a rule.

A definition with a name is tried before any expression: a parenthesis or bracket after it begins
the next statement. -/
def production : Rule → Production
  | .block => node .block [[many [rule .statement]]]
  | .statement =>
    node .statement [
      ifParts,
      whileParts,
      [node .expression [kw "func" :: name :: parenthesised (rule .argumentList) ++ braced],
        optional semicolon],
      [rule .classLiteral, optional semicolon],
      [kw "let", name, punct .assignment, rule .expression, semicolon],
      [kw "let", name, semicolon],
      [rule .expression, semicolon],
      [rule .function, optional semicolon]]
  | .ifStatement => node .statement [ifParts]
  | .expression =>
    node .expression [
      [rule .suffixed, punct .assignment, rule .expression],
      [rule .comparison]]
  | .comparison =>
    node .expression [
      [rule .additive, punct .comparator, rule .additive],
      [rule .additive]]
  | .additive =>
    node .expression [
      [rule .multiplicative, many [choice [[op "+"], [op "-"]], rule .multiplicative]]]
  | .multiplicative =>
    node .expression [
      [rule .power, many [choice [[op "*"], [op "/"], [op "%"]], rule .power]]]
  | .power =>
    node .expression [
      [rule .suffixed, op "**", rule .power],
      [rule .suffixed]]
  | .suffixed =>
    chain (rule .primary)
      (choice [
        parenthesised (rule .expressionList),
        bracketed (rule .expression),
        [punct .dot, name]])
  | .primary =>
    choice [
      [node .expression [parenthesised (rule .expression)]],
      [rule .function],
      [rule .classLiteral],
      [rule .array],
      [punct .number],
      [punct .string],
      [punct .boolean],
      [punct .null],
      [name]]
  | .function =>
    node .expression [kw "func" :: optional name :: parenthesised (rule .argumentList) ++ braced]
  | .classLiteral => node .expression [kw "class" :: name :: braced]
  | .array => node .array [bracketed (rule .expressionList)]
  | .expressionList => commaList .expressionList (rule .expression)
  | .argumentList => commaList .argumentList name

end ScriptKit.Grammar
