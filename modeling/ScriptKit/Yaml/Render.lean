import ScriptKit.Yaml.Node
import ScriptKit.Yaml.Token

namespace ScriptKit.Yaml

namespace Render

/-- Words that older readers take for truth values. -/
def oldBooleans : List String := [
  "y", "Y", "yes", "Yes", "YES", "on", "On", "ON", "n", "N", "no", "No", "NO", "off", "Off", "OFF"]

/-- Numbers of minutes, seconds or degrees at the end of a text: after each colon one or two digits
up to 59, and at the very end digits after a point. -/
def sixties : Nat → List Char → Bool
  | 0, _ => false
  | fuel + 1, s =>
    match s with
    | ':' :: rest =>
      let digits := rest.takeWhile Text.isDigit
      let small := match digits with
        | [_] => true
        | [d, _] => d < '6'
        | _ => false
      let after := rest.drop digits.length
      small && (after.isEmpty || sixties fuel after ||
        match after with
        | '.' :: fraction => fraction.all fun c => Text.isDigit c || c = '_'
        | _ => false)
    | _ => false

/-- Whether older readers take a text for a number to the base 60. -/
def isBase60 (s : String) : Bool :=
  let body := Tag.unsigned s.toList
  body.head?.any Text.isDigit &&
    sixties s.length (body.dropWhile fun c => Text.isDigit c || c = '_')

/-- Characters that can be written as they are. -/
def isPrintable (c : Char) : Bool :=
  let n := c.toNat
  n = 0x0a || (0x20 ≤ n && n ≤ 0x7e) || (0xa0 ≤ n && n ≤ 0xfffd && n ≠ 0xfeff)

/-- Characters that mean something else at the beginning of a plain scalar. -/
def isLeadingIndicator (c : Char) : Bool :=
  "#,[]\x7b\x7d&*!|>'\"%@".toList.contains c || c.toNat = 0x60

/-- Whether some character and the one before or after it are as given. -/
def anyPair (p : Char → Char → Bool) (s : List Char) : Bool :=
  (s.zip (s.drop 1)).any fun (a, b) => p a b

def isSpecial (c : Char) : Bool := c ≠ '\t' && !isPrintable c

def blanksBeforeBreak (s : List Char) : Bool :=
  anyPair (fun a b => a = ' ' && isBreak b) s

def isOpenMark (opening s : List Char) : Bool := opening.isPrefixOf s

/-- Whether a text can be read back as it is. -/
def plainAllowed (s : List Char) : Bool :=
  let marked := isOpenMark ['-', '-', '-'] s || isOpenMark ['.', '.', '.'] s
  let follows (rest : List Char) : Bool := rest.isEmpty || rest.head?.any isBlank
  let leading := match s with
    | c :: rest =>
      isLeadingIndicator c || ((c = '?' || c = ':' || c = '-') && follows rest)
    | [] => false
  let colon := anyPair (fun a b => a = ':' && isBlank b) s || s.getLast? = some ':'
  let comment := anyPair (fun a b => (isBlank a || isBreak a) && b = '#') s
  let edge (c : Option Char) : Bool := c.any fun c => c = ' ' || isBreak c
  !(marked || leading || colon || comment || edge s.head? || edge s.getLast? ||
    s.any isBreak || s.any isSpecial || s.contains '\t')

/-- Whether a text can stand between single quotes. -/
def singleAllowed (s : List Char) : Bool :=
  !(anyPair (fun a b => isBreak a && b = ' ') s || blanksBeforeBreak s || s.contains '\t' ||
    s.any isSpecial)

/-- Whether a text can stand in lines of its own. -/
def literalAllowed (s : List Char) : Bool :=
  !(s.getLast? = some ' ' || blanksBeforeBreak s || s.any isSpecial)

def spaces (n : Nat) : List Char := List.replicate n ' '

def upperHex (width n : Nat) : List Char :=
  (Text.hex width n).toList.map fun c => if 'a' ≤ c && c ≤ 'f' then Char.ofNat (c.toNat - 32) else c

def escapeChar (c : Char) : List Char :=
  if isPrintable c && !isBreak c && c ≠ '"' && c ≠ '\\' then [c]
  else '\\' :: match c.toNat with
    | 0x00 => ['0']
    | 0x07 => ['a']
    | 0x08 => ['b']
    | 0x09 => ['t']
    | 0x0a => ['n']
    | 0x0b => ['v']
    | 0x0c => ['f']
    | 0x0d => ['r']
    | 0x1b => ['e']
    | 0x22 => ['"']
    | 0x5c => ['\\']
    | 0x85 => ['N']
    | 0x2028 => ['L']
    | 0x2029 => ['P']
    | n =>
      if n ≤ 0xff then 'x' :: upperHex 2 n
      else if n ≤ 0xffff then 'u' :: upperHex 4 n
      else 'U' :: upperHex 8 n

def double (s : List Char) : List Char :=
  '"' :: s.flatMap escapeChar ++ ['"']

/-- The text with an indentation after each line break that is not a line feed. -/
def single (indent : Nat) (s : List Char) : List Char :=
  let rec body : Bool → List Char → List Char
    | _, [] => []
    | afterBreak, c :: rest =>
      let indentation := if afterBreak && !isBreak c then spaces indent else []
      let shown := if c = '\'' then ['\'', '\''] else [c]
      indentation ++ shown ++ body (isBreak c) rest
  '\'' :: body false s ++ ['\'']

/-- The text in lines of its own. The first line says how far they are indented if that cannot be
seen, and what becomes of the line breaks at the end. -/
def literal (indent : Nat) (s : List Char) : List Char :=
  let rec body : Bool → List Char → List Char
    | atStart, [] => if atStart then [] else ['\n']
    | atStart, c :: rest =>
      if isBreak c then c :: body true rest
      else (if atStart then spaces indent else []) ++ c :: body false rest
  let hint := if s.head?.any (fun c => c = ' ' || isBreak c) then ['2'] else []
  let chomp := match s.reverse with
    | [] => ['-']
    | [c] => if isBreak c then ['+'] else ['-']
    | c :: d :: _ => if !isBreak c then ['-'] else if isBreak d then ['+'] else []
  '|' :: hint ++ chomp ++ (if s.head?.any isBreak then [] else ['\n']) ++ body true s

/-- A text as the value of an entry, up to the end of its last line. -/
def textLines (indent : Nat) (text : String) : List Char :=
  let s := text.toList
  let ordinary := Tag.ofText text = .text && !isBase60 text && !oldBooleans.contains text
  if s.contains '\n' then
    if literalAllowed s then literal indent s else double s ++ ['\n']
  else if !ordinary then double s ++ ['\n']
  else if plainAllowed s then s ++ ['\n']
  else if singleAllowed s then single indent s ++ ['\n']
  else double s ++ ['\n']

def scalarLines (indent : Nat) (tag text : String) : List Char :=
  if tag = Tag.text.name then textLines indent text else text.toList ++ ['\n']

mutual

/-- A node as the value of a key or an item of a list, from behind the mark on. -/
def valueLines (indent : Nat) : Node → List Char
  | .scalar tag text => ' ' :: scalarLines (indent + 2) tag text
  | .sequence _ [] => " []\n".toList
  | .sequence _ items => '\n' :: itemLines (indent + 2) items
  | .mapping _ [] => " \x7b\x7d\n".toList
  | .mapping _ entries => '\n' :: entryLines (indent + 2) entries
  | .alias name _ => ' ' :: '*' :: name.toList ++ ['\n']

def itemLines (indent : Nat) : List Node → List Char
  | [] => []
  | n :: rest =>
    let item := match n with
      | .mapping _ (e :: es) => (entryLines (indent + 2) (e :: es)).drop (indent + 1)
      | n => valueLines indent n
    spaces indent ++ '-' :: item ++ itemLines indent rest

def entryLines (indent : Nat) : List (Node × Node) → List Char
  | [] => []
  | (k, v) :: rest =>
    let key := match k with
      | .scalar tag text => (scalarLines indent tag text).dropLast
      | _ => []
    spaces indent ++ key ++ ':' :: valueLines indent v ++ entryLines indent rest

end

end Render

/-- A node as a document of its own. -/
def render (n : Node) : String :=
  String.ofList (match n with
    | .mapping _ (e :: es) => Render.entryLines 0 (e :: es)
    | .sequence _ (i :: is) => Render.itemLines 0 (i :: is)
    | n => (Render.valueLines 0 n).drop 1)

end ScriptKit.Yaml
