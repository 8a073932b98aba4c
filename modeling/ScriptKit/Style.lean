import ScriptKit.Text.Basic
import ScriptKit.Text.Width

namespace ScriptKit

/-- How a terminal shows text, by the number of its control code. -/
inductive Style
  | foreground (code : Nat)
  | background (code : Nat)
  | bold
  | faint
  | italic
  | underline
  | reverse
  | strikethrough
  deriving DecidableEq

namespace Style

def ofCode? (code : Int) : Option Style :=
  let n := code.toNat
  if (30 ≤ code && code ≤ 37) || (90 ≤ code && code ≤ 97) then some (foreground n)
  else if (40 ≤ code && code ≤ 47) || (100 ≤ code && code ≤ 107) then some (background n)
  else match code with
    | 1 => some bold
    | 2 => some faint
    | 3 => some italic
    | 4 => some underline
    | 7 => some reverse
    | 9 => some strikethrough
    | _ => none

def code : Style → Nat
  | foreground n => n
  | background n => n
  | bold => 1
  | faint => 2
  | italic => 3
  | underline => 4
  | reverse => 7
  | strikethrough => 9

def escape : String := String.singleton (Char.ofNat 0x1b)

/-- A text between the control sequences that turn a style on and off. -/
def wrap (codes text : String) : String :=
  escape ++ "[" ++ codes ++ "m" ++ text ++ escape ++ "[0m"

/-- Styles one line. Lines below and through the text are drawn character by character. -/
def line (s : Style) (text : String) : String :=
  let each (styled : Char → String) : String := String.join (text.toList.map styled)
  match s with
  | underline =>
    each fun c => wrap (if Text.isSpace c then "4" else "4;4") (String.singleton c)
  | strikethrough => each fun c => wrap "9" (String.singleton c)
  | s => wrap (toString s.code) text

/-- The blanks that fill a line up; a style that colours the ground colours them too. -/
def filling (s : Style) (width : Nat) : String :=
  let blanks := String.ofList (List.replicate width ' ')
  if width = 0 then ""
  else match s with
    | background n => wrap (toString n) blanks
    | reverse => wrap "7" blanks
    | _ => blanks

/-- Line feeds without the carriage returns before them. -/
def plainBreaks : List Char → List Char
  | '\r' :: '\n' :: rest => '\n' :: plainBreaks rest
  | c :: rest => c :: plainBreaks rest
  | [] => []

/-- Styles a text line by line. Several lines are filled up to the same width. -/
def render (s : Style) (text : String) : String :=
  let styled := (Text.lines (String.ofList (plainBreaks text.toList))).map s.line
  match styled with
  | [single] => single
  | several =>
    let widest := several.foldl (fun n l => max n (Text.width l)) 0
    "\n".intercalate (several.map fun l => l ++ s.filling (widest - Text.width l))

end Style

end ScriptKit
