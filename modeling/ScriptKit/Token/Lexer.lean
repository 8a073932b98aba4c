import ScriptKit.Token.Basic

namespace ScriptKit.Token

open ScriptKit.Text

/-- A rule of the lexer. Every text of the class `full` is a token of the kind; a text of the
class `growing` is none yet, but can become one when more text follows. -/
structure Rule where
  kind : Kind
  full : List Char → Bool
  growing : List Char → Bool := fun _ => false

def oneOf (words : List String) (s : List Char) : Bool :=
  words.any fun w => w.toList = s

def isWordChar (c : Char) : Bool :=
  isLetter c || isDigit c || c = '_'

def isComment : List Char → Bool
  | '#' :: rest => rest.all (· ≠ '\n')
  | _ => false

def isIdentifier : List Char → Bool
  | c :: rest => (isLetter c || c = '_') && rest.all isWordChar
  | [] => false

def isWhite (c : Char) : Bool :=
  c = ' ' || c = '\t' || c = '\n' || c = '\x0c' || c = '\r'

def isWhitespace (s : List Char) : Bool :=
  !s.isEmpty && s.all isWhite

def unsigned : List Char → List Char
  | '-' :: rest => rest
  | s => s

/-- A number has digits, and more digits after its point if it has one. -/
def isNumber (s : List Char) : Bool :=
  match (unsigned s).span isDigit with
  | ([], _) => false
  | (_, []) => true
  | (_, c :: fraction) => c = '.' && !fraction.isEmpty && fraction.all isDigit

def isNumberStart (s : List Char) : Bool :=
  s = ['-'] ||
    match (unsigned s).span isDigit with
    | ([], _) => false
    | (_, after) => after = ['.']

/-- How far a string literal has come. -/
inductive StringState
  | unopened
  | inside
  | escape
  | closed
  | broken
  deriving DecidableEq

def StringState.next : StringState → Char → StringState
  | unopened, c => if c = '"' then inside else broken
  | inside, c => if c = '"' then closed else if c = '\\' then escape else inside
  | escape, c => if c = '\n' then broken else inside
  | _, _ => broken

def stringState (s : List Char) : StringState :=
  s.foldl StringState.next .unopened

/-- The rules by priority: of two tokens of one length the earlier rule names the kind. -/
def rules : List Rule := [
  { kind := .comment, full := isComment },
  { kind := .keyword, full := oneOf ["let", "func", "if", "else", "while", "class"] },
  { kind := .null, full := oneOf ["null"] },
  { kind := .number, full := isNumber, growing := isNumberStart },
  { kind := .string
    full := fun s => stringState s = .closed
    growing := fun s => stringState s = .inside || stringState s = .escape },
  { kind := .boolean, full := oneOf ["true", "false"] },
  { kind := .assignment, full := oneOf ["="] },
  { kind := .operator, full := oneOf ["+", "-", "**", "*", "/", "%"] },
  { kind := .comparator
    full := oneOf [">=", "<=", "==", "!=", ">", "<"]
    growing := oneOf ["!"] },
  { kind := .semicolon, full := oneOf [";"] },
  { kind := .comma, full := oneOf [","] },
  { kind := .dot, full := oneOf ["."] },
  { kind := .identifier, full := isIdentifier },
  { kind := .leftParen, full := oneOf ["("] },
  { kind := .rightParen, full := oneOf [")"] },
  { kind := .leftCurly, full := oneOf ["\x7b"] },
  { kind := .rightCurly, full := oneOf ["\x7d"] },
  { kind := .leftBracket, full := oneOf ["["] },
  { kind := .rightBracket, full := oneOf ["]"] },
  { kind := .whitespace, full := isWhitespace }]

/-- Whether a rule takes part: where a minus sign is an operator, no number begins with one. -/
def Rule.applies (r : Rule) (minusIsOperator : Bool) (s : List Char) : Bool :=
  !(r.kind = .number && minusIsOperator && s.head? = some '-')

/-- The kind of token that a text is in full. -/
def fullKind (minusIsOperator : Bool) (s : List Char) : Option Kind :=
  (rules.find? fun r => r.applies minusIsOperator s && r.full s).map (·.kind)

/-- Whether a text is a token or can become one. -/
def isViable (minusIsOperator : Bool) (s : List Char) : Bool :=
  rules.any fun r => r.applies minusIsOperator s && (r.full s || r.growing s)

/-- What the text from one place on looks like: the longest token found, as its kind and the
number of characters after its first, and the text that was looked at. -/
structure Munch where
  best : Option (Kind × Nat)
  window : List Char

/-- Grows the candidate by one character at a time while it is viable. -/
def munch (minusIsOperator : Bool) (best : Option (Kind × Nat)) (seen : List Char) :
    List Char → Munch
  | [] => ⟨best, seen⟩
  | c :: rest =>
    let candidate := seen ++ [c]
    let best := match fullKind minusIsOperator candidate with
      | some kind => some (kind, seen.length)
      | none => best
    if isViable minusIsOperator candidate then munch minusIsOperator best candidate rest
    else ⟨best, candidate⟩

/-- Text that no rule accepts, up to the end of its line. -/
structure LexError where
  text : String
  line : Nat
  deriving DecidableEq

def LexError.message (file : String) (e : LexError) : String :=
  (Location.mk file e.line).render ++ ": could not parse input: (" ++ e.text ++ ")"

/-- The tokens of a text, white space and comments included, up to the first error. -/
structure Scan where
  tokens : List Token
  failure : Option LexError

def newlines (s : List Char) : Nat :=
  s.count '\n'

/-- Scans a text whose first `skip` characters belong to the token before it. -/
def scanFrom (skip line : Nat) (minusIsOperator : Bool) (done : List Token) : List Char → Scan
  | [] => ⟨done.reverse, none⟩
  | c :: rest =>
    match skip with
    | skip + 1 => scanFrom skip line minusIsOperator done rest
    | 0 =>
      let m := munch minusIsOperator none [] (c :: rest)
      match m.best with
      | none => ⟨done.reverse, some ⟨String.ofList (m.window.takeWhile (· ≠ '\n')), line⟩⟩
      | some (kind, more) =>
        let text := c :: rest.take more
        let token : Token := ⟨kind, String.ofList text, line⟩
        let minusIsOperator := if token.isBlank then minusIsOperator else kind.endsOperand
        scanFrom more (line + newlines text) minusIsOperator (token :: done) rest

/-- Splits a source text into tokens, each as long as the rules allow. -/
def scan (source : String) : Scan :=
  scanFrom 0 1 false [] source.toList

end ScriptKit.Token
