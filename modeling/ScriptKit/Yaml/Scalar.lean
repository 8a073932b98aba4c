import ScriptKit.Yaml.Cursor

namespace ScriptKit.Yaml.Scalar

/-- The characters up to the end of a word of a plain scalar. -/
def plainWord (inFlow : Bool) : List Char → List Char
  | [] => []
  | c :: rest =>
    if isBlank c || isBreak c then []
    else if c = ':' && endsWord rest then []
    else if inFlow && ",?[]\x7b\x7d".toList.contains c then []
    else c :: plainWord inFlow rest

/-- Reads the words of a plain scalar. The last part of the result says whether a line break
follows it. -/
def plainFrom (inFlow : Bool) (indent : Int) :
    Nat → List Char → Gap → Cursor → Option (List Char × Cursor × Bool)
  | 0, _, _, _ => none
  | fuel + 1, text, gap, c =>
    let done (gap : Gap) (text : List Char) (c : Cursor) : Option (List Char × Cursor × Bool) :=
      some (text, c, gap.broken)
    if c.atDocumentMark || c.nextIs (· = '#') then done gap text c
    else
      let word := plainWord inFlow c.rest
      let text := if word.isEmpty then text else text ++ gap.folded ++ word
      let gap := if word.isEmpty then gap else Gap.none
      let c := c.skip word.length
      if !c.nextIs fun x => isBlank x || isBreak x then done gap text c
      else
        match gap.read indent (c.rest.length + 1) c with
        | none => none
        | some (gap, c) =>
          if !inFlow && (c.column : Int) < indent then done gap text c
          else plainFrom inFlow indent fuel text gap c

def plain (inFlow : Bool) (indent : Int) (c : Cursor) : Option (List Char × Cursor × Bool) :=
  plainFrom inFlow indent (c.rest.length + 1) [] Gap.none c

/-- The character that a letter after a backslash stands for. -/
def escaped? : Char → Option Nat
  | '0' => some 0
  | 'a' => some 7
  | 'b' => some 8
  | 't' | '\t' => some 9
  | 'n' => some 10
  | 'v' => some 11
  | 'f' => some 12
  | 'r' => some 13
  | 'e' => some 27
  | ' ' => some 32
  | '"' => some 34
  | '\'' => some 39
  | '/' => some 47
  | '\\' => some 92
  | 'N' => some 0x85
  | '_' => some 0xa0
  | 'L' => some 0x2028
  | 'P' => some 0x2029
  | _ => none

/-- The number of hexadecimal digits after a letter that asks for some. -/
def digitCount? : Char → Option Nat
  | 'x' => some 2
  | 'u' => some 4
  | 'U' => some 8
  | _ => none

def codePoint? (digits : List Char) (count : Nat) : Option Char :=
  if digits.length ≠ count || !digits.all (fun d => (Text.hexValue? d).isSome) then none
  else
    let n := digits.foldl (fun n d => n * 16 + (Text.hexValue? d).getD 0) 0
    if (0xd800 ≤ n && n ≤ 0xdfff) || 0x10ffff < n then none else some (Char.ofNat n)

/-- The characters of a quoted scalar up to a blank, a line break or the closing quote. A line break
after a backslash ends them too, and begins the gap that follows. -/
def quotedWord (double : Bool) : Nat → List Char → Cursor → Option (List Char × Cursor × Gap)
  | 0, _, _ => none
  | fuel + 1, text, c =>
    match c.rest with
    | [] => some (text, c, Gap.none)
    | x :: rest =>
      if isBlank x || isBreak x then some (text, c, Gap.none)
      else if double && x = '"' then some (text, c, Gap.none)
      else if !double && x = '\'' then
        if rest.head? = some '\'' then quotedWord double fuel (text ++ ['\'']) (c.skip 2)
        else some (text, c, Gap.none)
      else if double && x = '\\' then
        match rest with
        | [] => none
        | y :: more =>
          if isBreak y then some (text, (c.skip 1).skipBreak.2, Gap.hidden)
          else match escaped? y, digitCount? y with
            | some n, _ => quotedWord double fuel (text ++ [Char.ofNat n]) (c.skip 2)
            | none, some count =>
              match codePoint? (more.take count) count with
              | some p => quotedWord double fuel (text ++ [p]) (c.skip (2 + count))
              | none => none
            | none, none => none
      else quotedWord double fuel (text ++ [x]) (c.skip 1)

def quotedFrom (double : Bool) : Nat → List Char → Cursor → Option (List Char × Cursor)
  | 0, _, _ => none
  | fuel + 1, text, c =>
    if c.atDocumentMark || c.atEnd then none
    else
      match quotedWord double (c.rest.length + 1) text c with
      | none => none
      | some (text, c, gap) =>
        if c.nextIs fun x => x = (if double then '"' else '\'') then some (text, c.skip 1)
        else
          match gap.read 0 (c.rest.length + 1) c with
          | none => none
          | some (gap, c) => quotedFrom double fuel (text ++ gap.folded) c

/-- Reads a quoted scalar from its opening quote on. -/
def quoted (double : Bool) (c : Cursor) : Option (List Char × Cursor) :=
  quotedFrom double (c.rest.length + 1) [] (c.skip 1)

inductive Chomping
  | strip
  | clip
  | keep
  deriving DecidableEq

/-- The marks in the first line of a block scalar: what becomes of the line breaks at its end, and
how far it is indented. -/
def blockHeader (c : Cursor) : Option (Chomping × Nat × Cursor) :=
  let chomping (c : Cursor) : Option (Chomping × Cursor) :=
    match c.head? with
    | some '+' => some (.keep, c.skip 1)
    | some '-' => some (.strip, c.skip 1)
    | _ => none
  let increment (c : Cursor) : Option (Nat × Cursor) :=
    match c.head? with
    | some d => if Text.isDigit d then some (d.toNat - '0'.toNat, c.skip 1) else none
    | none => none
  let marks : Option (Chomping × Option Nat × Cursor) :=
    match chomping c, increment c with
    | some (k, c), _ =>
      match increment c with
      | some (n, c) => some (k, some n, c)
      | none => some (k, none, c)
    | none, some (n, c) =>
      match chomping c with
      | some (k, c) => some (k, some n, c)
      | none => some (.clip, some n, c)
    | none, none => some (.clip, none, c)
  match marks with
  | none | some (_, some 0, _) => none
  | some (k, n, c) =>
    let c := c.skipWhile isBlank
    let c := if c.nextIs (· = '#') then c.skipWhile fun x => !isBreak x else c
    if c.atEnd then some (k, n.getD 0, c)
    else if c.nextIs isBreak then some (k, n.getD 0, c.skipBreak.2)
    else none

/-- Reads empty lines and the blanks in front of the next line of a block scalar. An indentation of
zero is one yet to be found; the deepest blanks seen are kept. -/
def emptyLines (indent : Nat) :
    Nat → Nat → List Char → Cursor → Option (Nat × List Char × Cursor)
  | 0, _, _, _ => none
  | fuel + 1, deepest, breaks, c =>
    let blanks := (c.rest.takeWhile (· = ' ')).length
    let c := c.skip (if indent = 0 then blanks else min blanks (indent - c.column))
    let deepest := max deepest c.column
    if (indent = 0 || c.column < indent) && c.nextIs (· = '\t') then none
    else if !c.nextIs isBreak then some (deepest, breaks, c)
    else
      let (shown, c) := c.skipBreak
      emptyLines indent fuel deepest (breaks ++ shown) c

/-- Reads the lines of a block scalar that are indented as deep as its first one. -/
def blockLines (literal : Bool) (indent : Nat) : Nat → List Char → List Char → List Char → Bool →
    Cursor → Option (List Char × List Char × List Char × Cursor)
  | 0, _, _, _, _, _ => none
  | fuel + 1, text, lastBreak, breaks, afterBlank, c =>
    if c.column ≠ indent || c.atEnd then some (text, lastBreak, breaks, c)
    else
      let blank := c.nextIs isBlank
      let joint :=
        if !literal && !afterBlank && !blank && lastBreak.head? = some '\n' then
          if breaks.isEmpty then [' '] else []
        else lastBreak
      let line := c.rest.takeWhile fun x => !isBreak x
      let (shown, next) := (c.skip line.length).skipBreak
      match emptyLines indent (next.rest.length + 1) 0 [] next with
      | none => none
      | some (_, following, next) =>
        blockLines literal indent fuel (text ++ joint ++ breaks ++ line) shown following blank next

/-- Reads a block scalar from its mark on, inside of a block indented as given. -/
def block (literal : Bool) (outer : Int) (c : Cursor) : Option (List Char × Cursor) :=
  match blockHeader (c.skip 1) with
  | none => none
  | some (chomping, increment, c) =>
    let given : Nat := if increment = 0 then 0 else (max outer 0).toNat + increment
    match emptyLines given (c.rest.length + 1) 0 [] c with
    | none => none
    | some (deepest, breaks, c) =>
      let indent := if given ≠ 0 then given else max deepest (max (outer + 1).toNat 1)
      match blockLines literal indent (c.rest.length + 1) [] [] breaks false c with
      | none => none
      | some (text, lastBreak, breaks, c) =>
        let tail := match chomping with
          | .strip => []
          | .clip => lastBreak
          | .keep => lastBreak ++ breaks
        some (text ++ tail, c)

end ScriptKit.Yaml.Scalar
