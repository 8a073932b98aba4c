import ScriptKit.Yaml.Scalar

namespace ScriptKit.Yaml

inductive Token
  | versionDirective (major minor : Nat)
  | tagDirective (handle replacement : String)
  | documentStart
  | documentEnd
  | blockSequenceStart
  | blockMappingStart
  | blockEnd
  | flowSequenceStart
  | flowSequenceEnd
  | flowMappingStart
  | flowMappingEnd
  | blockEntry
  | flowEntry
  | key
  | value
  | alias (name : String)
  | anchor (name : String)
  | tag (handle suffix : String)
  | scalar (plain : Bool) (text : String)
  | streamEnd
  deriving DecidableEq

/-- A place where a key without a mark of its own may have begun. One that stands at the
indentation of its block has to turn out to be a key. -/
structure SimpleKey where
  required : Bool
  token : Nat
  line : Nat
  column : Nat
  index : Nat

/-- What the tokens read so far leave open. For each level of flow collections there is at most one
possible key, the innermost first. -/
structure Scanner where
  cursor : Cursor
  tokens : Array Token
  flowLevel : Nat
  indent : Int
  outerIndents : List Int
  keys : List (Option SimpleKey)
  keyAllowed : Bool

namespace Scanner

def start (text : List Char) : Scanner :=
  ⟨.start text, #[], 0, -1, [], [none], true⟩

def emit (s : Scanner) (t : Token) : Scanner := { s with tokens := s.tokens.push t }

def insertAt (s : Scanner) (i : Nat) (t : Token) : Scanner :=
  { s with tokens := (s.tokens.toList.take i ++ t :: s.tokens.toList.drop i).toArray }

/-- Emits a token that is written with the given number of characters. -/
def emitMark (s : Scanner) (length : Nat) (t : Token) : Scanner :=
  { s with cursor := s.cursor.skip length }.emit t

def currentKey (s : Scanner) : Option SimpleKey := (s.keys.head?).bind id

def setKey (s : Scanner) (k : Option SimpleKey) : Scanner :=
  { s with keys := k :: s.keys.drop 1 }

/-- Gives up the possible key; one that was required is an error. -/
def dropKey (s : Scanner) : Option Scanner :=
  match s.currentKey with
  | some k => if k.required then none else some (s.setKey none)
  | none => some s

/-- Remembers that a key may begin here. -/
def saveKey (s : Scanner) : Option Scanner :=
  if !s.keyAllowed then some s
  else
    let c := s.cursor
    let required := s.flowLevel = 0 && s.indent = c.column
    s.dropKey.map (·.setKey (some ⟨required, s.tokens.size, c.line, c.column, c.index⟩))

/-- The possible key, if its line has not ended and it is not too long. -/
def validKey (s : Scanner) : Option (Option SimpleKey) :=
  match s.currentKey with
  | none => some none
  | some k =>
    if k.line < s.cursor.line || k.index + 1024 < s.cursor.index then
      if k.required then none else some none
    else some (some k)

/-- Opens a block collection at a column right of the current indentation. -/
def openBlock (s : Scanner) (column : Nat) (place : Nat) (t : Token) : Scanner :=
  if 0 < s.flowLevel || (column : Int) ≤ s.indent then s
  else { s with outerIndents := s.indent :: s.outerIndents, indent := column }.insertAt place t

/-- Closes the block collections that stand right of a column. -/
def closeBlocks (column : Int) : List Int → Scanner → Scanner
  | outer, s =>
    if 0 < s.flowLevel || s.indent ≤ column then s
    else match outer with
      | [] => { s with indent := -1 }
      | i :: rest =>
        closeBlocks column rest ({ s with indent := i, outerIndents := rest }.emit .blockEnd)

def unindent (s : Scanner) (column : Int) : Scanner :=
  closeBlocks column s.outerIndents s

/-- Goes on to the next token past blanks, comments and line breaks. Outside of flow collections a
tab cannot stand where a key may begin, and a key may begin on a new line. -/
def skipToToken : Nat → Scanner → Scanner
  | 0, s => s
  | fuel + 1, s =>
    let c := s.cursor
    let c := if c.column = 0 && c.nextIs (·.toNat = 0xfeff) then c.skip 1 else c
    let tabs := 0 < s.flowLevel || !s.keyAllowed
    let c := c.skipWhile fun x => x = ' ' || (tabs && x = '\t')
    let c := if c.nextIs (· = '#') then c.skipWhile fun x => !isBreak x else c
    if c.nextIs isBreak then
      skipToToken fuel
        { s with cursor := c.skipBreak.2, keyAllowed := s.keyAllowed || s.flowLevel = 0 }
    else { s with cursor := c }

/-- Reads a scalar that may be a key. -/
def flowScalar (s : Scanner) (double : Bool) : Option Scanner := do
  let s ← s.saveKey
  let (text, c) ← Scalar.quoted double s.cursor
  return { s with cursor := c, keyAllowed := false }.emit (.scalar false (String.ofList text))

def plainScalar (s : Scanner) : Option Scanner := do
  let s ← s.saveKey
  let (text, c, broken) ← Scalar.plain (0 < s.flowLevel) (s.indent + 1) s.cursor
  return { s with cursor := c, keyAllowed := broken }.emit (.scalar true (String.ofList text))

def blockScalar (s : Scanner) (literal : Bool) : Option Scanner := do
  let s ← s.dropKey
  let (text, c) ← Scalar.block literal s.indent s.cursor
  return { s with cursor := c, keyAllowed := true }.emit (.scalar false (String.ofList text))

/-- Reads the name of an anchor or of an alias. -/
def anchorName (s : Scanner) (make : String → Token) : Option Scanner := do
  let s ← s.saveKey
  let c := s.cursor.skip 1
  let name := c.rest.takeWhile isNameChar
  let c := c.skip name.length
  if name.isEmpty || !(endsWord c.rest || c.nextIs fun x => "?:,]\x7d%@".toList.contains x ||
      x.toNat = 0x60) then none
  else
    return { s with cursor := c, keyAllowed := false }.emit (make (String.ofList name))

def isTagChar (c : Char) : Bool :=
  isNameChar c || ";/?:@&=+$,.!~*'()[]%".toList.contains c

def tagToken (s : Scanner) : Option Scanner := do
  let s ← s.saveKey
  let after := s.cursor.skip 1
  let (token, c) ←
    if after.nextIs (· = '<') then
      let uri := (after.skip 1).rest.takeWhile isTagChar
      let c := after.skip (1 + uri.length)
      if uri.isEmpty || !c.nextIs (· = '>') then none
      else some (Token.tag "" (String.ofList uri), c.skip 1)
    else
      let name := after.rest.takeWhile isNameChar
      let c := after.skip name.length
      if c.nextIs (· = '!') then
        let suffix := (c.skip 1).rest.takeWhile isTagChar
        if suffix.isEmpty then none
        else some (Token.tag (String.ofList ('!' :: name ++ ['!'])) (String.ofList suffix),
          c.skip (1 + suffix.length))
      else
        let suffix := after.rest.takeWhile isTagChar
        let c := after.skip suffix.length
        if suffix.isEmpty then some (Token.tag "" "!", c)
        else some (Token.tag "!" (String.ofList suffix), c)
  if !endsWord c.rest then none
  else return { s with cursor := c, keyAllowed := false }.emit token

/-- The rest of the line of a directive, which holds nothing but a comment. -/
def endOfDirective (c : Cursor) : Option Cursor :=
  let c := c.skipWhile isBlank
  let c := if c.nextIs (· = '#') then c.skipWhile fun x => !isBreak x else c
  if c.atEnd then some c else if c.nextIs isBreak then some c.skipBreak.2 else none

def directive (s : Scanner) : Option Scanner := do
  let s ← (s.unindent (-1)).dropKey
  let c := s.cursor.skip 1
  let name := c.rest.takeWhile isNameChar
  let c := c.skip name.length
  if !endsWord c.rest then none
  else
    let c := c.skipWhile isBlank
    let digits (c : Cursor) : List Char := c.rest.takeWhile Text.isDigit
    let number (ds : List Char) : Nat :=
      ds.foldl (fun n d => n * 10 + (d.toNat - '0'.toNat)) 0
    let (token, c) ←
      match String.ofList name with
      | "YAML" =>
        let major := digits c
        let c := c.skip major.length
        let minor := digits (c.skip 1)
        if major.isEmpty || minor.isEmpty || !c.nextIs (· = '.') then none
        else some (Token.versionDirective (number major) (number minor), c.skip (1 + minor.length))
      | "TAG" =>
        let handle := c.rest.takeWhile fun x => !isBlank x && !isBreak x
        let c := (c.skip handle.length).skipWhile isBlank
        let replacement := c.rest.takeWhile isTagChar
        if handle.head? ≠ some '!' || handle.getLast? ≠ some '!' || replacement.isEmpty then none
        else some (Token.tagDirective (String.ofList handle) (String.ofList replacement),
          c.skip replacement.length)
      | _ => none
    let c ← endOfDirective c
    return { s with cursor := c, keyAllowed := false }.emit token

def documentMark (s : Scanner) (t : Token) : Option Scanner := do
  let s ← (s.unindent (-1)).dropKey
  return { s with keyAllowed := false }.emitMark 3 t

def flowStart (s : Scanner) (t : Token) : Option Scanner := do
  let s ← s.saveKey
  let inner := { s with keys := none :: s.keys, flowLevel := s.flowLevel + 1, keyAllowed := true }
  return inner.emitMark 1 t

def flowEnd (s : Scanner) (t : Token) : Option Scanner := do
  let s ← s.dropKey
  let s := if s.flowLevel = 0 then s
    else { s with keys := s.keys.drop 1, flowLevel := s.flowLevel - 1 }
  return { s with keyAllowed := false }.emitMark 1 t

def flowEntry (s : Scanner) : Option Scanner := do
  let s ← s.dropKey
  return { s with keyAllowed := true }.emitMark 1 .flowEntry

def blockEntry (s : Scanner) : Option Scanner := do
  if s.flowLevel = 0 && !s.keyAllowed then none
  else
    let s := s.openBlock s.cursor.column s.tokens.size .blockSequenceStart
    let s ← s.dropKey
    return { s with keyAllowed := true }.emitMark 1 .blockEntry

def explicitKey (s : Scanner) : Option Scanner := do
  if s.flowLevel = 0 && !s.keyAllowed then none
  else
    let s := s.openBlock s.cursor.column s.tokens.size .blockMappingStart
    let s ← s.dropKey
    return { s with keyAllowed := s.flowLevel = 0 }.emitMark 1 .key

/-- Reads the mark of a value. If a key may have begun before it, it is marked as one now. -/
def valueMark (s : Scanner) : Option Scanner := do
  match ← s.validKey with
  | some k =>
    let s := (s.insertAt k.token .key).openBlock k.column k.token .blockMappingStart
    return { s.setKey none with keyAllowed := false }.emitMark 1 .value
  | none =>
    if s.flowLevel = 0 && !s.keyAllowed then none
    else
      let s := (s.setKey none).openBlock s.cursor.column s.tokens.size .blockMappingStart
      return { s with keyAllowed := s.flowLevel = 0 }.emitMark 1 .value

def streamEnd (s : Scanner) : Option Scanner := do
  let s ← (s.unindent (-1)).dropKey
  return { s with keyAllowed := false }.emit .streamEnd

/-- Whether a plain scalar can begin with the given characters. -/
def startsPlain (inFlow : Bool) (text : List Char) : Bool :=
  match text with
  | [] => false
  | c :: rest =>
    (!endsWord text && !("-?:,[]\x7b\x7d#&*!|>'\"%@".toList.contains c || c.toNat = 0x60)) ||
      (c = '-' && !rest.head?.any isBlank) ||
      (!inFlow && (c = '?' || c = ':') && !endsWord rest)

/-- Reads the next token, and with it those that the indentation implies. -/
def next (s : Scanner) : Option Scanner :=
  let s := skipToToken (s.cursor.rest.length + 1) s
  let s := s.unindent s.cursor.column
  let inFlow := decide (0 < s.flowLevel)
  let c := s.cursor
  let endsAfter := endsWord (c.rest.drop 1)
  match c.rest with
  | [] => s.streamEnd
  | x :: _ =>
    if c.column = 0 && x = '%' then s.directive
    else if c.atDocumentMark then
      s.documentMark (if x = '-' then .documentStart else .documentEnd)
    else if x = '[' then s.flowStart .flowSequenceStart
    else if x = '\x7b' then s.flowStart .flowMappingStart
    else if x = ']' then s.flowEnd .flowSequenceEnd
    else if x = '\x7d' then s.flowEnd .flowMappingEnd
    else if x = ',' then s.flowEntry
    else if x = '-' && endsAfter then s.blockEntry
    else if x = '?' && (inFlow || endsAfter) then s.explicitKey
    else if x = ':' && (inFlow || endsAfter) then s.valueMark
    else if x = '*' then s.anchorName .alias
    else if x = '&' then s.anchorName .anchor
    else if x = '!' then s.tagToken
    else if x = '|' && !inFlow then s.blockScalar true
    else if x = '>' && !inFlow then s.blockScalar false
    else if x = '\'' then s.flowScalar false
    else if x = '"' then s.flowScalar true
    else if startsPlain inFlow c.rest then s.plainScalar
    else none

/-- Reads all tokens, and says whether the end was reached. -/
def run : Nat → Scanner → Array Token × Bool
  | 0, s => (s.tokens, false)
  | fuel + 1, s =>
    match s.next with
    | none => (s.tokens, false)
    | some s => if s.tokens.back? = some .streamEnd then (s.tokens, true) else run fuel s

end Scanner

/-- The tokens of a text. Of a text with an error only those count that stand at least two tokens
before it, because tokens are read that far ahead. -/
def tokens (text : List Char) : List Token :=
  match Scanner.run (text.length + 2) (.start text) with
  | (all, true) => all.toList
  | (all, false) => all.toList.take (all.size - 2)

end ScriptKit.Yaml
