import ScriptKit.Text.Basic

namespace ScriptKit.Yaml

def isBlank (c : Char) : Bool := c = ' ' || c = '\t'

/-- The characters that end a line. -/
def isBreak (c : Char) : Bool :=
  c = '\n' || c = '\r' || c.toNat = 0x85 || c.toNat = 0x2028 || c.toNat = 0x2029

/-- Whether nothing, a blank or a line break comes first. -/
def endsWord : List Char → Bool
  | [] => true
  | c :: _ => isBlank c || isBreak c

/-- Characters that names of anchors, tags and directives are made of. -/
def isNameChar (c : Char) : Bool :=
  Text.isLetter c || Text.isDigit c || c = '_' || c = '-'

/-- The characters that may occur in a document at all. -/
def isAllowed (c : Char) : Bool :=
  let n := c.toNat
  n = 0x09 || n = 0x0a || n = 0x0d || (0x20 ≤ n && n ≤ 0x7e) || n = 0x85 ||
    (0xa0 ≤ n && n ≤ 0xfffd) || 0x10000 ≤ n

/-- A place in a text: what is still to be read, and where it stands. -/
structure Cursor where
  rest : List Char
  line : Nat
  column : Nat
  index : Nat

namespace Cursor

def start (text : List Char) : Cursor := ⟨text, 0, 0, 0⟩

def head? (c : Cursor) : Option Char := c.rest.head?

def atEnd (c : Cursor) : Bool := c.rest.isEmpty

def nextIs (c : Cursor) (p : Char → Bool) : Bool := c.head?.any p

/-- Goes on by characters of the same line. -/
def skip (c : Cursor) (n : Nat) : Cursor :=
  ⟨c.rest.drop n, c.line, c.column + n, c.index + n⟩

def skipWhile (c : Cursor) (p : Char → Bool) : Cursor :=
  c.skip (c.rest.takeWhile p).length

/-- Goes on to the next line. The line break is taken for a line feed, unless it is one of the two
that Unicode has for lines and paragraphs. -/
def skipBreak (c : Cursor) : List Char × Cursor :=
  match c.rest with
  | '\r' :: '\n' :: rest => (['\n'], ⟨rest, c.line + 1, 0, c.index + 2⟩)
  | b :: rest =>
    let shown := if b.toNat = 0x2028 || b.toNat = 0x2029 then b else '\n'
    ([shown], ⟨rest, c.line + 1, 0, c.index + 1⟩)
  | [] => ([], c)

/-- Whether a mark that begins or ends a document comes next. -/
def atDocumentMark (c : Cursor) : Bool :=
  c.column = 0 &&
    (c.rest.take 3 = ['-', '-', '-'] || c.rest.take 3 = ['.', '.', '.']) && endsWord (c.rest.drop 3)

end Cursor

/-- The blanks and line breaks between the words of a scalar. -/
structure Gap where
  blanks : List Char
  firstBreak : List Char
  otherBreaks : List Char
  broken : Bool

namespace Gap

def none : Gap := ⟨[], [], [], false⟩

/-- A gap that begins with a line break which is not to be seen. -/
def hidden : Gap := ⟨[], [], [], true⟩

/-- What a gap stands for: blanks for themselves, one line break for a blank, and several for all
of them but one. -/
def folded (g : Gap) : List Char :=
  if !g.broken then g.blanks
  else if g.firstBreak.head? = some '\n' then
    if g.otherBreaks.isEmpty then [' '] else g.otherBreaks
  else g.firstBreak ++ g.otherBreaks

/-- Reads a gap. A tab left of the indentation is not allowed. -/
def read (indent : Int) : Nat → Gap → Cursor → Option (Gap × Cursor)
  | 0, _, _ => Option.none
  | fuel + 1, g, c =>
    match c.head? with
    | Option.none => some (g, c)
    | some x =>
      if isBlank x then
        if g.broken && (c.column : Int) < indent && x = '\t' then Option.none
        else if g.broken then read indent fuel g (c.skip 1)
        else read indent fuel { g with blanks := g.blanks ++ [x] } (c.skip 1)
      else if isBreak x then
        let (shown, next) := c.skipBreak
        if g.broken then
          read indent fuel { g with otherBreaks := g.otherBreaks ++ shown } next
        else read indent fuel { g with blanks := [], firstBreak := shown, broken := true } next
      else some (g, c)

end Gap

end ScriptKit.Yaml
