namespace ScriptKit.Tree

/-- What a node of a program stands for. -/
inductive Kind
  | program
  | block
  | statement
  | temporary
  | expression
  | expressionList
  | argumentList
  | binary
  | comparison
  | assign
  | call
  | member
  | index
  | functionDefinition
  | classDefinition
  | indexWrite
  | declaration
  | initialisation
  | ifStatement
  | whileStatement
  | number
  | string
  | boolean
  | identifier
  | null
  | keyword
  | array
  | function
  | classLiteral
  | operator
  | comparator
  | assignment
  | leftParen
  | rightParen
  | leftCurly
  | rightCurly
  | leftBracket
  | rightBracket
  | semicolon
  | comma
  | dot
  deriving DecidableEq

def Kind.name : Kind → String
  | program => "Program"
  | block => "Block"
  | statement => "Statement"
  | temporary => "Temporary"
  | expression => "Expression"
  | expressionList => "ExpressionList"
  | argumentList => "ArgumentList"
  | binary => "BinaryExpression"
  | comparison => "ComparisonExpression"
  | assign => "VariableAssignment"
  | call => "CallExpression"
  | member => "MemberExpression"
  | index => "ArrayIndexExpression"
  | functionDefinition => "FunctionDefinitionExpression"
  | classDefinition => "ClassDefinition"
  | indexWrite => "ArrayIndexWrite"
  | declaration => "VariableDeclaration"
  | initialisation => "VariableInitialisation"
  | ifStatement => "IfStatement"
  | whileStatement => "WhileStatement"
  | number => "NumericLiteral"
  | string => "StringLiteral"
  | boolean => "BooleanLiteral"
  | identifier => "IdentifierLiteral"
  | null => "NullLiteral"
  | keyword => "KeywordLiteral"
  | array => "ArrayLiteral"
  | function => "FunctionLiteral"
  | classLiteral => "ClassLiteral"
  | operator => "Operator"
  | comparator => "Comparator"
  | assignment => "Assignment"
  | leftParen => "LeftParen"
  | rightParen => "RightParen"
  | leftCurly => "LeftCurly"
  | rightCurly => "RightCurly"
  | leftBracket => "LeftBracket"
  | rightBracket => "RightBracket"
  | semicolon => "Semicolon"
  | comma => "Comma"
  | dot => "Dot"

def Kind.all : List Kind := [
  .program, .block, .statement, .temporary, .expression, .expressionList, .argumentList, .binary,
  .comparison, .assign, .call, .member, .index, .functionDefinition, .classDefinition,
  .indexWrite, .declaration, .initialisation, .ifStatement, .whileStatement, .number, .string,
  .boolean, .identifier, .null, .keyword, .array, .function, .classLiteral, .operator,
  .comparator, .assignment, .leftParen, .rightParen, .leftCurly, .rightCurly, .leftBracket,
  .rightBracket, .semicolon, .comma, .dot]

def Kind.ofName? (name : String) : Option Kind :=
  Kind.all.find? fun k => k.name = name

/-- The kinds that stand for one punctuation, operator or keyword token. -/
def Kind.isTerminal : Kind → Bool
  | keyword | operator | comparator | assignment | leftParen | rightParen | leftCurly | rightCurly
  | leftBracket | rightBracket | semicolon | comma | dot => true
  | _ => false

/-- The kinds that carry a value straight from the source text. -/
def Kind.isLiteral : Kind → Bool
  | number | string | boolean | identifier | null => true
  | _ => false

/-- The kinds that can be an operand of an expression. -/
def Kind.isOperand (k : Kind) : Bool :=
  !k.isTerminal &&
    match k with
    | block | statement | expressionList | argumentList => false
    | _ => true

end ScriptKit.Tree
