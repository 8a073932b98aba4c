import ScriptKit.Text.Basic
import ScriptKit.Text.Printable

namespace ScriptKit.Text

/-- How a character is written between double quotes: a quote and a backslash after a backslash,
a printable character as itself, a control character by its letter, any other by its number. -/
def quoteChar (c : Char) : List Char :=
  if c = '"' || c = '\\' then ['\\', c]
  else if isPrintable c then [c]
  else match c.toNat with
    | 0x07 => ['\\', 'a']
    | 0x08 => ['\\', 'b']
    | 0x09 => ['\\', 't']
    | 0x0a => ['\\', 'n']
    | 0x0b => ['\\', 'v']
    | 0x0c => ['\\', 'f']
    | 0x0d => ['\\', 'r']
    | n =>
      if n < 0x80 then '\\' :: 'x' :: (hex 2 n).toList
      else if n < 0x10000 then '\\' :: 'u' :: (hex 4 n).toList
      else '\\' :: 'U' :: (hex 8 n).toList

def quoteChars (s : List Char) : List Char :=
  '"' :: s.flatMap quoteChar ++ ['"']

/-- The text between double quotes, on one line and with printable characters only. -/
def quote (s : String) : String :=
  String.ofList (quoteChars s.toList)

end ScriptKit.Text
