import ScriptKit.Text.Basic

namespace ScriptKit.Text.Base64

/-- The six bits that a character stands for. -/
def bits? (c : Char) : Option Nat :=
  if 'A' ≤ c && c ≤ 'Z' then some (c.toNat - 'A'.toNat)
  else if 'a' ≤ c && c ≤ 'z' then some (c.toNat - 'a'.toNat + 26)
  else if isDigit c then some (c.toNat - '0'.toNat + 52)
  else if c = '+' then some 62
  else if c = '/' then some 63
  else none

/-- The bytes that four characters stand for. -/
def bytes (a b c d : Nat) : List UInt8 :=
  [a * 4 + b / 16, b * 16 + c / 4, c * 64 + d].map UInt8.ofNat

/-- Decodes groups of four characters. In the last one equals signs may stand for what is missing of
three bytes. -/
def decodeGroups : List Char → Option (List UInt8)
  | [] => some []
  | [a, b, '=', '='] => do return (bytes (← bits? a) (← bits? b) 0 0).take 1
  | [a, b, c, '='] => do return (bytes (← bits? a) (← bits? b) (← bits? c) 0).take 2
  | a :: b :: c :: d :: rest => do
    let front := bytes (← bits? a) (← bits? b) (← bits? c) (← bits? d)
    return front ++ (← decodeGroups rest)
  | _ => none

/-- The text that is encoded in another one. Line breaks do not count. -/
def decode (s : String) : Option String :=
  match decodeGroups (s.toList.filter fun c => c ≠ '\n' && c ≠ '\r') with
  | some bs => String.fromUTF8? (ByteArray.mk bs.toArray)
  | none => none

end ScriptKit.Text.Base64
