namespace ScriptKit.Text

/-- The characters with the Unicode property White_Space. -/
def isSpace (c : Char) : Bool :=
  let n := c.toNat
  (0x09 ≤ n && n ≤ 0x0d) || n = 0x20 || n = 0x85 || n = 0xa0 || n = 0x1680 ||
    (0x2000 ≤ n && n ≤ 0x200a) || n = 0x2028 || n = 0x2029 || n = 0x202f || n = 0x205f ||
    n = 0x3000

def isDigit (c : Char) : Bool :=
  '0' ≤ c && c ≤ '9'

def isLetter (c : Char) : Bool :=
  ('a' ≤ c && c ≤ 'z') || ('A' ≤ c && c ≤ 'Z')

/-- An ASCII letter in lower case; every other character is kept. -/
def toLower (c : Char) : Char :=
  if 'A' ≤ c && c ≤ 'Z' then Char.ofNat (c.toNat + 32) else c

/-- The value of a hexadecimal digit in either case. -/
def hexValue? (c : Char) : Option Nat :=
  let l := toLower c
  if isDigit l then some (l.toNat - '0'.toNat)
  else if 'a' ≤ l && l ≤ 'f' then some (l.toNat - 'a'.toNat + 10)
  else none

def trimLeft (s : List Char) : List Char :=
  s.dropWhile isSpace

def trimRight (s : List Char) : List Char :=
  (s.reverse.dropWhile isSpace).reverse

/-- The text without the white space at its two ends. -/
def trim (s : String) : String :=
  String.ofList (trimRight (trimLeft s.toList))

/-- A text in lower case, as far as that is ASCII: beyond the letters of ASCII, the capital I with a
dot and the sign of the kelvin have such a lower case. -/
def lower (s : String) : String :=
  String.ofList (s.toList.map fun c =>
    if c.toNat = 0x130 then 'i' else if c.toNat = 0x212a then 'k' else toLower c)

/-- A text in upper case, as far as that is ASCII: beyond the letters of ASCII, the i without a dot
and the long s have such an upper case. -/
def upper (s : String) : String :=
  String.ofList (s.toList.map fun c =>
    if c.toNat = 0x131 then 'I' else if c.toNat = 0x17f then 'S'
    else if 'a' ≤ c && c ≤ 'z' then Char.ofNat (c.toNat - 32) else c)

/-- The pieces between the occurrences of a character: one more than there are occurrences. -/
def splitChar (sep : Char) : List Char → List (List Char)
  | [] => [[]]
  | c :: rest =>
    match splitChar sep rest with
    | [] => [[]]
    | piece :: pieces => if c = sep then [] :: piece :: pieces else (c :: piece) :: pieces

def lines (s : String) : List String :=
  (splitChar '\n' s.toList).map String.ofList

/-- The text without the given ending, if it has it. -/
def dropEnding (ending s : String) : String :=
  if ending.toList.isSuffixOf s.toList then
    String.ofList (s.toList.take (s.toList.length - ending.toList.length))
  else s

def hasOpening (opening s : String) : Bool :=
  opening.toList.isPrefixOf s.toList

/-- The text filled up with blanks on the right. -/
def padRight (width : Nat) (s : String) : String :=
  String.ofList (s.toList ++ List.replicate (width - s.toList.length) ' ')

/-- The digits of a number to the base 16, at least `width` of them. -/
def hex (width n : Nat) : String :=
  let digits := Nat.toDigits 16 n
  String.ofList (List.replicate (width - digits.length) '0' ++ digits)

/-- Texts in the order of their code points, which is the order of their UTF-8 bytes. -/
def sort (names : List String) : List String :=
  names.mergeSort fun a b => decide (a ≤ b)

end ScriptKit.Text
