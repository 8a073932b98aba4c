import ScriptKit.Grammar.Production
import ScriptKit.Token.Literal
import ScriptKit.Tree.Basic

namespace ScriptKit.Grammar

/-- What a production makes of the tokens from a position on: trees and the position after them,
no match, or no answer because the fuel ran out. -/
inductive Outcome
  | matched (trees : List Tree) (next : Nat)
  | failed
  | exhausted

/-- An outcome, and the furthest token that was looked at to find it. -/
structure Attempt where
  outcome : Outcome
  reach : Nat

def Attempt.reaching (a : Attempt) (reach : Nat) : Attempt :=
  { a with reach := max reach a.reach }

def terminalKind : Token.Kind → Tree.Kind
  | .keyword => .keyword
  | .null => .null
  | .number => .number
  | .string => .string
  | .boolean => .boolean
  | .identifier => .identifier
  | .assignment => .assignment
  | .operator => .operator
  | .comparator => .comparator
  | .semicolon => .semicolon
  | .comma => .comma
  | .dot => .dot
  | .leftParen => .leftParen
  | .rightParen => .rightParen
  | .leftCurly => .leftCurly
  | .rightCurly => .rightCurly
  | .leftBracket => .leftBracket
  | .rightBracket => .rightBracket
  | .comment | .whitespace => .temporary

/-- The text of a leaf: for a string, what the literal stands for. -/
def terminalText (t : Token) : String :=
  if t.kind = .string then Token.unquote t.text else t.text

def terminal (t : Token) : Tree :=
  .leaf (terminalKind t.kind) (terminalText t) t.line

/-- The place of the first significant token from a position on. -/
def skip (tokens : Array Token) (pos : Nat) : Nat :=
  if h : pos < tokens.size then
    if tokens[pos].isBlank then skip tokens (pos + 1) else pos
  else pos
termination_by tokens.size - pos

/-- The first significant token from a position on. -/
def tokenAt? (tokens : Array Token) (pos : Nat) : Option Token :=
  tokens[skip tokens pos]?

/-- The line of the first significant token from a position on, or of the last token. -/
def lineAt (tokens : Array Token) (pos : Nat) : Nat :=
  match tokenAt? tokens pos with
  | some t => t.line
  | none => tokens.back?.elim 1 Token.line

/-- Whether a token is of a kind, and of a text if one is given. -/
def accepts (kind : Token.Kind) (text : Option String) (t : Token) : Bool :=
  t.kind = kind && text.all (· = t.text)

def readToken (tokens : Array Token) (kind : Token.Kind) (text : Option String) (pos : Nat) :
    Attempt :=
  match tokenAt? tokens pos with
  | none => ⟨.failed, 0⟩
  | some t =>
    if accepts kind text t then ⟨.matched [terminal t] (skip tokens pos + 1), skip tokens pos⟩
    else ⟨.failed, skip tokens pos⟩

/-- Goes on after a match. -/
def Attempt.andThen (a : Attempt) (f : List Tree → Nat → Attempt) : Attempt :=
  match a.outcome with
  | .matched trees next => (f trees next).reaching a.reach
  | _ => a

/-- Goes on after a failure. -/
def Attempt.orElse (a : Attempt) (f : Unit → Attempt) : Attempt :=
  match a.outcome with
  | .failed => (f ()).reaching a.reach
  | _ => a

/-- Changes the trees of a match. -/
def Attempt.map (f : List Tree → List Tree) (a : Attempt) : Attempt :=
  a.andThen fun trees next => ⟨.matched (f trees) next, 0⟩

/-- Repeats a step while it matches and moves on. -/
def readMany (step : Nat → Attempt) : Nat → Nat → Attempt
  | 0, _ => ⟨.exhausted, 0⟩
  | fuel + 1, pos =>
    match (step pos).outcome with
    | .matched trees next =>
      if next = pos then step pos
      else ((readMany step fuel next).map (trees ++ ·)).reaching (step pos).reach
    | .failed => ⟨.matched [] pos, (step pos).reach⟩
    | .exhausted => step pos

/-- Wraps a target into one more expression for every suffix that matches. -/
def readSuffixes (step : Nat → Attempt) : Nat → Tree → Nat → Attempt
  | 0, _, _ => ⟨.exhausted, 0⟩
  | fuel + 1, target, pos =>
    match (step pos).outcome with
    | .matched parts next =>
      (readSuffixes step fuel (.branch .expression target.line (target :: parts)) next).reaching
        (step pos).reach
    | .failed => ⟨.matched [target] pos, (step pos).reach⟩
    | .exhausted => step pos

mutual

/-- Reads a production from a position on, where `rule` reads the rules it refers to. -/
def readProduction (tokens : Array Token) (rule : Rule → Nat → Attempt) :
    Production → Nat → Attempt
  | .token kind text, pos => readToken tokens kind text pos
  | .rule r, pos => rule r pos
  | .node kind alternatives, pos =>
    (readChoice tokens rule alternatives pos).map fun trees =>
      [.branch kind (lineAt tokens pos) trees]
  | .choice alternatives, pos => readChoice tokens rule alternatives pos
  | .many parts, pos =>
    readMany (fun pos => readParts tokens rule parts pos) (tokens.size + 1) pos
  | .optional p, pos => (readProduction tokens rule p pos).orElse fun _ => ⟨.matched [] pos, 0⟩
  | .chain head suffix, pos =>
    (readProduction tokens rule head pos).andThen fun
      | target :: _, next =>
        readSuffixes (fun pos => readProduction tokens rule suffix pos) (tokens.size + 1) target
          next
      | [], _ => ⟨.failed, 0⟩

/-- Reads the parts of an alternative one after the other. -/
def readParts (tokens : Array Token) (rule : Rule → Nat → Attempt) :
    List Production → Nat → Attempt
  | [], pos => ⟨.matched [] pos, 0⟩
  | p :: parts, pos =>
    (readProduction tokens rule p pos).andThen fun trees next =>
      (readParts tokens rule parts next).map (trees ++ ·)

/-- Reads the first alternative that matches. -/
def readChoice (tokens : Array Token) (rule : Rule → Nat → Attempt) :
    List (List Production) → Nat → Attempt
  | [], _ => ⟨.failed, 0⟩
  | parts :: alternatives, pos =>
    (readParts tokens rule parts pos).orElse fun _ => readChoice tokens rule alternatives pos

end

/-- Reads a rule by its production alone, with rules no deeper within each other than the fuel. -/
def readRule (tokens : Array Token) : Nat → Rule → Nat → Attempt
  | 0, _, _ => ⟨.exhausted, 0⟩
  | fuel + 1, r, pos => readProduction tokens (readRule tokens fuel) (production r) pos

/-- Fuel for every reading of so many tokens: no more than a dozen rules lie within each other
before a token is taken. -/
def enoughFuel (tokens : Array Token) : Nat :=
  16 * (tokens.size + 2)

/-- The plain reading of a rule: every production is a function from a position to trees and the
position after them. -/
def reading (tokens : Array Token) (r : Rule) (pos : Nat) : Attempt :=
  readRule tokens (enoughFuel tokens) r pos

end ScriptKit.Grammar
