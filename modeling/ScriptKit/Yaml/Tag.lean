import ScriptKit.Number.Reader

namespace ScriptKit.Yaml

/-- What an unquoted text stands for. -/
inductive Tag
  | null
  | boolean
  | integer
  | float
  | timestamp
  | text
  deriving DecidableEq

namespace Tag

/-- The short form in which tags are written. -/
def name : Tag → String
  | null => "!!null"
  | boolean => "!!bool"
  | integer => "!!int"
  | float => "!!float"
  | timestamp => "!!timestamp"
  | text => "!!str"

def nullWords : List String := ["", "~", "null", "Null", "NULL"]

def booleanWords : List String := ["true", "True", "TRUE", "false", "False", "FALSE"]

def floatWords : List String := [
  ".nan", ".NaN", ".NAN", ".inf", ".Inf", ".INF", "+.inf", "+.Inf", "+.INF", "-.inf", "-.Inf",
  "-.INF"]

def unsigned (s : List Char) : List Char :=
  match s with
  | '+' :: rest => rest
  | '-' :: rest => rest
  | rest => rest

def digitsBelow (base : Nat) (s : List Char) : Option Nat :=
  if s.isEmpty || !s.all (fun c => (Text.hexValue? c).any (· < base)) then none
  else some (s.foldl (fun n c => n * base + (Text.hexValue? c).getD 0) 0)

/-- The size of an integer with an optional mark of its base; a zero in front marks base 8. -/
def magnitude (s : List Char) : Option Nat :=
  match s with
  | '0' :: c :: rest =>
    match Text.toLower c with
    | 'x' => digitsBelow 16 rest
    | 'b' => digitsBelow 2 rest
    | 'o' => digitsBelow 8 rest
    | _ => digitsBelow 8 (c :: rest)
  | s => digitsBelow 10 s

/-- Integers have 64 bits; only those without a sign reach up to the end of that range. -/
def isInteger (s : List Char) : Bool :=
  match s with
  | '-' :: rest => (magnitude rest).any (· ≤ Number.twoTo 63)
  | '+' :: rest => (magnitude rest).any (· < Number.twoTo 63)
  | rest => (magnitude rest).any (· < Number.twoTo 64)

/-- Digits with an optional point among them, and an optional exponent. -/
def isFloatNumeral (s : List Char) : Bool :=
  let body := unsigned s
  let whole := body.takeWhile Text.isDigit
  let afterWhole := body.dropWhile Text.isDigit
  let (fraction, rest, pointed) := match afterWhole with
    | '.' :: more => (more.takeWhile Text.isDigit, more.dropWhile Text.isDigit, true)
    | more => ([], more, false)
  let exponent := match rest with
    | [] => true
    | e :: more =>
      let digits := unsigned more
      Text.toLower e = 'e' && !digits.isEmpty && digits.all Text.isDigit
  (!whole.isEmpty || (pointed && !fraction.isEmpty)) && exponent

def isFloat (s : List Char) : Bool :=
  isFloatNumeral s && (Number.read? (String.ofList s)).any (·.inRange)

/-- One or two digits at the front of a text, if their value is below a limit. -/
def shortNumber (limit : Nat) (s : List Char) : Option (Nat × List Char) :=
  let digits := (s.takeWhile Text.isDigit).take 2
  match digitsBelow 10 digits with
  | some n => if n < limit then some (n, s.drop digits.length) else none
  | none => none

def daysIn (year month : Nat) : Nat :=
  match month with
  | 2 => if year % 4 = 0 && (year % 100 ≠ 0 || year % 400 = 0) then 29 else 28
  | 4 | 6 | 9 | 11 => 30
  | _ => 31

/-- A date at the front of a text, and what follows it. -/
def date (s : List Char) : Option (List Char) := do
  let year ← if (s.takeWhile Text.isDigit).length = 4 then digitsBelow 10 (s.take 4) else none
  let '-' :: s := s.drop 4 | none
  let (month, s) ← shortNumber 13 s
  let '-' :: s := s | none
  let (day, s) ← shortNumber 32 s
  if 1 ≤ month && 1 ≤ day && day ≤ daysIn year month then some s else none

/-- A time of day at the front of a text, and what follows it. -/
def timeOfDay (s : List Char) : Option (List Char) := do
  let (_, s) ← shortNumber 24 s
  let ':' :: s := s | none
  let (_, s) ← shortNumber 60 s
  let ':' :: s := s | none
  let (_, s) ← shortNumber 60 s
  match s with
  | c :: d :: rest =>
    if (c = '.' || c = ',') && Text.isDigit d then some ((d :: rest).dropWhile Text.isDigit)
    else some s
  | s => some s

def isZone (s : List Char) : Bool :=
  match s with
  | ['Z'] => true
  | [sign, h, i, ':', m, n] =>
    (sign = '+' || sign = '-') && (digitsBelow 10 [h, i]).any (· < 25) &&
      (digitsBelow 10 [m, n]).any (· < 61)
  | _ => false

/-- A date alone, or with a time of day: after a blank it has no zone, after a letter it has one. -/
def isTimestamp (s : List Char) : Bool :=
  match date s with
  | none => false
  | some [] => true
  | some (c :: rest) =>
    match timeOfDay rest with
    | none => false
    | some zone =>
      if c = ' ' then zone.isEmpty
      else (c = 'T' || c = 't') && isZone zone

/-- The tag of an unquoted text. -/
def ofText (s : String) : Tag :=
  let chars := s.toList
  if nullWords.contains s then null
  else if booleanWords.contains s then boolean
  else if floatWords.contains s then float
  else match chars with
    | '.' :: _ => if (Number.read? s).any (·.inRange) then float else text
    | c :: _ =>
      if !(Text.isDigit c || c = '+' || c = '-') then text
      else
        let plain := chars.filter (· ≠ '_')
        if isTimestamp chars then timestamp
        else if isInteger plain then integer
        else if isFloat plain then float
        else text
    | [] => null

end Tag

end ScriptKit.Yaml
