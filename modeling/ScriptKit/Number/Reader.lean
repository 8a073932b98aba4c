import ScriptKit.Number.Binary
import ScriptKit.Text.Basic

namespace ScriptKit.Number

open ScriptKit.Text

/-- A numeral that was read: the nearest double, and whether the numeral is in its range. -/
structure Reading where
  value : Float
  inRange : Bool

/-- Underscores stand between digits only; the mark of the base counts as a digit. -/
def underscoresOk (isDigit : Char → Bool) : Bool → List Char → Bool
  | _, [] => true
  | afterDigit, '_' :: rest =>
    match rest with
    | [] => false
    | c :: _ => afterDigit && isDigit c && underscoresOk isDigit false rest
  | _, c :: rest => underscoresOk isDigit (isDigit c) rest

/-- The digits before and after the point, underscores left out, and the text after them. -/
def readDigits (isDigit : Char → Bool) : Bool → List Char → List Char × List Char × List Char
  | _, [] => ([], [], [])
  | seenPoint, c :: rest =>
    if c = '_' then readDigits isDigit seenPoint rest
    else if c = '.' && !seenPoint then
      let (whole, fraction, after) := readDigits isDigit true rest
      (whole, fraction, after)
    else if isDigit c then
      let (whole, fraction, after) := readDigits isDigit seenPoint rest
      if seenPoint then (whole, c :: fraction, after) else (c :: whole, fraction, after)
    else ([], [], c :: rest)

def digitsValue (base : Nat) (digits : List Char) : Nat :=
  digits.foldl (fun n c => n * base + (hexValue? c).getD 0) 0

/-- The exponent after its mark, which is required to be present in full. -/
def readExponent (s : List Char) : Option Int :=
  let (negative, digits) := match s with
    | '+' :: rest => (false, rest)
    | '-' :: rest => (true, rest)
    | rest => (false, rest)
  match digits with
  | [] => none
  | c :: _ =>
    if isDigit c && digits.all (fun c => isDigit c || c = '_') then
      let n := min (digitsValue 10 (digits.filter isDigit)) 100000
      some (if negative then -n else n)
    else none

/-- The double nearest to `coefficient * 10 ^ power`; exponents far out of range are not
computed. -/
def ofDecimal (negative : Bool) (coefficient : Nat) (power : Int) : Reading :=
  let size : Int := (Nat.toDigits 10 coefficient).length + power
  if coefficient = 0 || size < -400 then ⟨nearest negative 0 1, true⟩
  else if 400 < size then ⟨infinity negative, false⟩
  else
    let x := if power < 0 then nearest negative coefficient (tenTo power.natAbs)
      else nearest negative (coefficient * tenTo power.natAbs) 1
    ⟨x, !x.isInf⟩

def ofHexadecimal (negative : Bool) (coefficient : Nat) (power : Int) : Reading :=
  let size : Int := (Nat.log2 coefficient : Int) + power
  if coefficient = 0 || size < -1200 then ⟨nearest negative 0 1, true⟩
  else if 1200 < size then ⟨infinity negative, false⟩
  else
    let x := if power < 0 then nearest negative coefficient (twoTo power.natAbs)
      else nearest negative (coefficient * twoTo power.natAbs) 1
    ⟨x, !x.isInf⟩

def readDecimal (negative : Bool) (s : List Char) : Option Reading :=
  let (whole, fraction, after) := readDigits isDigit false s
  let digits := whole ++ fraction
  if digits.isEmpty || !underscoresOk isDigit false s then none
  else
    let exponent := match after with
      | [] => some 0
      | c :: rest => if toLower c = 'e' then readExponent rest else none
    exponent.map fun e => ofDecimal negative (digitsValue 10 digits) (e - fraction.length)

def readHexadecimal (negative : Bool) (s : List Char) : Option Reading :=
  let isHex (c : Char) : Bool := (hexValue? c).isSome
  let (whole, fraction, after) := readDigits isHex false s
  let digits := whole ++ fraction
  if digits.isEmpty || !underscoresOk isHex true s then none
  else match after with
    | c :: rest =>
      if toLower c = 'p' then
        (readExponent rest).map fun e =>
          ofHexadecimal negative (digitsValue 16 digits) (e - 4 * fraction.length)
      else none
    | [] => none

/-- Reads a whole text as a numeral: an optional sign, then decimal digits with an optional
exponent, hexadecimal digits with a binary exponent, or the name of an infinity; a name of
"not a number" has no sign. -/
def read? (s : String) : Option Reading :=
  let (signed, negative, body) := match s.toList with
    | '+' :: rest => (true, false, rest)
    | '-' :: rest => (true, true, rest)
    | rest => (false, false, rest)
  let word := String.ofList (body.map toLower)
  if word = "inf" || word = "infinity" then some ⟨infinity negative, true⟩
  else if word = "nan" && !signed then some ⟨notANumber, true⟩
  else match body with
    | '0' :: x :: d :: rest =>
      if toLower x = 'x' then readHexadecimal negative (d :: rest) else readDecimal negative body
    | _ => readDecimal negative body

/-- The value of a numeric literal; a text that is no numeral has the value zero. -/
def literalValue (s : String) : Float :=
  match read? s with
  | some r => r.value
  | none => 0

end ScriptKit.Number
