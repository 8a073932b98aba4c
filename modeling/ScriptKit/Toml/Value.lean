import ScriptKit.Text.Basic

namespace ScriptKit.Toml

/-- A value of a configuration file. The text of numbers and dates is not looked into. -/
inductive Value
  | string (s : String)
  | boolean (b : Bool)
  | number
  | date
  | array (items : List Value)
  | table (entries : List (List String × Value))

abbrev Rest := List Char

def isBlank (c : Char) : Bool := c = ' ' || c = '\t'

def skipBlanks (s : Rest) : Rest := s.dropWhile isBlank

/-- Characters that cannot stand in a file. -/
def isControl (c : Char) : Bool :=
  (c.toNat < 0x20 && c ≠ '\t') || c.toNat = 0x7f

def isBareKeyChar (c : Char) : Bool :=
  Text.isLetter c || Text.isDigit c || c = '-' || c = '_'

/-- A comment up to the end of its line. -/
def skipComment (s : Rest) : Option Rest :=
  match s with
  | '#' :: rest =>
    let text := rest.takeWhile (· ≠ '\n')
    let broken := text.getLast? = some '\r' && rest.drop text.length ≠ []
    let text := if broken then text.dropLast else text
    if text.any isControl then none else some (rest.drop text.length)
  | s => some s

/-- The line break at the beginning of a text. -/
def skipNewline : Rest → Option Rest
  | '\n' :: rest => some rest
  | '\r' :: '\n' :: rest => some rest
  | _ => none

/-- The character that an escape sequence stands for, from behind the backslash on. -/
def escape (s : Rest) : Option (Char × Rest) :=
  let numbered (count : Nat) (rest : Rest) : Option (Char × Rest) :=
    let digits := rest.take count
    if digits.length ≠ count || !digits.all (fun d => (Text.hexValue? d).isSome) then none
    else
      let n := digits.foldl (fun n d => n * 16 + (Text.hexValue? d).getD 0) 0
      if (0xd800 ≤ n && n ≤ 0xdfff) || 0x10ffff < n then none
      else some (Char.ofNat n, rest.drop count)
  match s with
  | 'b' :: rest => some (Char.ofNat 8, rest)
  | 't' :: rest => some ('\t', rest)
  | 'n' :: rest => some ('\n', rest)
  | 'f' :: rest => some (Char.ofNat 12, rest)
  | 'r' :: rest => some ('\r', rest)
  | 'e' :: rest => some (Char.ofNat 27, rest)
  | '"' :: rest => some ('"', rest)
  | '\\' :: rest => some ('\\', rest)
  | 'u' :: rest => numbered 4 rest
  | 'U' :: rest => numbered 8 rest
  | _ => none

/-- The rest of a string on one line, from behind its opening quote on. -/
def basicString : Nat → List Char → Rest → Option (String × Rest)
  | 0, _, _ => none
  | fuel + 1, text, s =>
    match s with
    | [] => none
    | '"' :: rest => some (String.ofList text.reverse, rest)
    | '\\' :: rest =>
      match escape rest with
      | some (c, rest) => basicString fuel (c :: text) rest
      | none => none
    | c :: rest => if isControl c then none else basicString fuel (c :: text) rest

def literalString (s : Rest) : Option (String × Rest) :=
  let text := s.takeWhile (· ≠ '\'')
  match s.drop text.length with
  | '\'' :: rest => if text.any isControl then none else some (String.ofList text, rest)
  | _ => none

/-- The quotes that end a string of several lines: up to two more belong to the string. -/
def closing (quote : Char) (s : Rest) : Option (List Char × Rest) :=
  let run := (s.takeWhile (· = quote)).length
  if run < 3 then none
  else
    let inside := min (run - 3) 2
    some (List.replicate inside quote, s.drop (inside + 3))

/-- White space and line breaks after a backslash at the end of a line. -/
def skipLineEnd (s : Rest) : Option Rest :=
  match skipNewline (skipBlanks s) with
  | some rest => some (rest.dropWhile fun c => isBlank c || c = '\n' || c = '\r')
  | none => none

def multilineString (basic : Bool) : Nat → List Char → Rest → Option (String × Rest)
  | 0, _, _ => none
  | fuel + 1, text, s =>
    match closing (if basic then '"' else '\'') s with
    | some (more, rest) => some (String.ofList (text.reverse ++ more), rest)
    | none =>
      match s with
      | [] => none
      | '\\' :: rest =>
        if !basic then multilineString basic fuel ('\\' :: text) rest
        else match escape rest, skipLineEnd rest with
          | some (c, rest), _ => multilineString basic fuel (c :: text) rest
          | none, some rest => multilineString basic fuel text rest
          | none, none => none
      | '\r' :: '\n' :: rest => multilineString basic fuel ('\n' :: '\r' :: text) rest
      | '\n' :: rest => multilineString basic fuel ('\n' :: text) rest
      | c :: rest => if isControl c then none else multilineString basic fuel (c :: text) rest

def string (s : Rest) : Option (String × Rest) :=
  let afterBreak (rest : Rest) : Rest := (skipNewline rest).getD rest
  match s with
  | '"' :: '"' :: '"' :: rest => multilineString true (rest.length + 1) [] (afterBreak rest)
  | '"' :: rest => basicString (rest.length + 1) [] rest
  | '\'' :: '\'' :: '\'' :: rest => multilineString false (rest.length + 1) [] (afterBreak rest)
  | '\'' :: rest => literalString rest
  | _ => none

/-- One part of a key: a bare word or a string on one line. -/
def keyPart (s : Rest) : Option (String × Rest) :=
  match s with
  | '"' :: rest => basicString (rest.length + 1) [] rest
  | '\'' :: rest => literalString rest
  | s =>
    let word := s.takeWhile isBareKeyChar
    if word.isEmpty then none else some (String.ofList word, s.drop word.length)

/-- A key: parts with dots between them. -/
def key : Nat → Rest → Option (List String × Rest)
  | 0, _ => none
  | fuel + 1, s =>
    match keyPart s with
    | none => none
    | some (part, rest) =>
      match skipBlanks rest with
      | '.' :: more => (key fuel (skipBlanks more)).map fun (parts, rest) => (part :: parts, rest)
      | rest => some ([part], rest)

def isDateChar (c : Char) : Bool :=
  Text.isDigit c || "-+Tt:.Zz".toList.contains c

/-- A date or a time; one blank may stand between them. -/
def date (s : Rest) : Rest :=
  let first := s.dropWhile isDateChar
  match first with
  | ' ' :: d :: rest => if Text.isDigit d then rest.dropWhile isDateChar else first
  | first => first

def isDate (s : Rest) : Bool :=
  let digits := (s.take 5).takeWhile Text.isDigit
  let next := s.drop digits.length
  (digits.length = 2 && next.head? = some ':') || (digits.length = 4 && next.head? = some '-')

/-- A number is whatever is made of the characters of numbers. -/
def number (s : Rest) : Option Rest :=
  let based (isDigit : Char → Bool) (rest : Rest) : Option Rest :=
    some (rest.dropWhile fun c => isDigit c || c = '_')
  let decimal (s : Rest) : Option Rest :=
    let rest := s.dropWhile fun c => Text.isDigit c || "+-_.eE".toList.contains c
    match rest with
    | 'i' :: 'n' :: 'f' :: after => some after
    | 'n' :: 'a' :: 'n' :: after => some after
    | 'i' :: _ | 'n' :: _ => none
    | rest => if rest.length = s.length then none else some rest
  match s with
  | '0' :: 'x' :: d :: rest => based (fun c => (Text.hexValue? c).isSome) (d :: rest)
  | '0' :: 'o' :: d :: rest => based (fun c => '0' ≤ c && c ≤ '7') (d :: rest)
  | '0' :: 'b' :: d :: rest => based (fun c => c = '0' || c = '1') (d :: rest)
  | '0' :: c :: d :: rest =>
    if c = '.' || c = 'e' || c = 'E' then decimal s else some (c :: d :: rest)
  | s => decimal s

/-- Blanks, comments and line breaks, which may stand between the items of an array. -/
def skipLines : Nat → Rest → Option Rest
  | 0, s => some s
  | fuel + 1, s =>
    match skipBlanks s with
    | '#' :: rest =>
      match skipComment ('#' :: rest) with
      | some rest => skipLines fuel rest
      | none => none
    | '\n' :: rest => skipLines fuel rest
    | '\r' :: rest =>
      match rest with
      | '\n' :: rest => skipLines fuel rest
      | _ => none
    | s => some s

mutual

def value : Nat → Rest → Option (Value × Rest)
  | 0, _ => none
  | fuel + 1, s =>
    match s with
    | [] => none
    | c :: rest =>
      if c = '"' || c = '\'' then (string s).map fun (t, rest) => (.string t, rest)
      else if c = '[' then (items fuel rest).map fun (vs, rest) => (.array vs, rest)
      else if c = '\x7b' then
        match skipBlanks rest with
        | '\x7d' :: rest => some (.table [], rest)
        | rest => (entries fuel rest).map fun (es, rest) => (.table es, rest)
      else if c = 't' then
        if s.take 4 = "true".toList then some (.boolean true, s.drop 4) else none
      else if c = 'f' then
        if s.take 5 = "false".toList then some (.boolean false, s.drop 5) else none
      else if isDate s then some (.date, date s)
      else (number s).map fun rest => (.number, rest)

/-- The items of an array from behind its bracket or the comma before them on. -/
def items : Nat → Rest → Option (List Value × Rest)
  | 0, _ => none
  | fuel + 1, s =>
    match skipLines (s.length + 1) s with
    | none => none
    | some (']' :: rest) => some ([], rest)
    | some s =>
      match value fuel s with
      | none => none
      | some (v, rest) =>
        match skipLines (rest.length + 1) rest with
        | some (']' :: rest) => some ([v], rest)
        | some (',' :: rest) => (items fuel rest).map fun (vs, rest) => (v :: vs, rest)
        | _ => none

/-- The entries of a table on one line. -/
def entries : Nat → Rest → Option (List (List String × Value) × Rest)
  | 0, _ => none
  | fuel + 1, s =>
    match key (s.length + 1) (skipBlanks s) with
    | some (k, '=' :: rest) =>
      match value fuel (skipBlanks rest) with
      | none => none
      | some (v, rest) =>
        match skipBlanks rest with
        | '\x7d' :: rest => some ([(k, v)], rest)
        | ',' :: rest => (entries fuel rest).map fun (es, rest) => ((k, v) :: es, rest)
        | _ => none
    | _ => none

end

end ScriptKit.Toml
