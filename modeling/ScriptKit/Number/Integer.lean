import ScriptKit.Number.Power
import ScriptKit.Text.Basic

namespace ScriptKit.Number

/-- Reads a whole text as a decimal integer of 64 bits: an optional sign and digits. -/
def readInteger? (s : String) : Option Int :=
  let (negative, digits) := match s.toList with
    | '+' :: rest => (false, rest)
    | '-' :: rest => (true, rest)
    | rest => (false, rest)
  if digits.isEmpty || !digits.all Text.isDigit then none
  else
    let n : Int := digits.foldl (fun n c => n * 10 + (c.toNat - '0'.toNat)) 0
    let value := if negative then -n else n
    if -(twoTo 63 : Int) ≤ value && value < twoTo 63 then some value else none

end ScriptKit.Number
