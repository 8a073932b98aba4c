import ScriptKit.Value.Equality
import ScriptKit.Value.Fault
import ScriptKit.Value.Text

namespace ScriptKit

namespace Number

/-- The remainder with the sign of the divisor. -/
def modulo (x y : Float) : Float :=
  if x.isNaN || y.isNaN || x.isInf || y == 0 then notANumber
  else
    let m := if y.isInf then x else remainder x y
    if m != 0 && decide (m < 0) != decide (y < 0) then m + y else m

def arithmetic (op : String) (x y : Float) : Float :=
  match op with
  | "+" => x + y
  | "-" => x - y
  | "*" => x * y
  | "/" => x / y
  | "%" => modulo x y
  | "**" => Float.pow x y
  | _ => notANumber

end Number

/-- What an operator gives: a value, the elements of an array that is yet to be made, or a text that
is too long for any machine. -/
inductive Computed
  | value (v : Value)
  | elements (vs : Array Value)
  | overflow

namespace Store

/-- The number of bytes that no text can have. -/
def textLimit : Nat := Number.twoTo 63

/-- A string repeated a whole number of times. -/
def repeatString (t : String) (n : Float) : Except Fault Computed :=
  if n < 0 || !Number.isIntegral n then .error (.cannotRepeat n)
  else if Float.ofNat textLimit ≤ n || textLimit ≤ t.utf8ByteSize * n.toUInt64.toNat then
    .ok .overflow
  else .ok (.value (.string (String.join (List.replicate n.toUInt64.toNat t))))

/-- Applies an arithmetic operator. Besides numbers, a string takes any value on its right and a
number on its left, arrays are joined, and a string is repeated by a number on either side. -/
def compute (s : Store) (op : String) (l r : Value) : Except Fault Computed :=
  match op, l, r with
  | op, .number x, .number y => .ok (.value (.number (Number.arithmetic op x y)))
  | "+", .string x, r => .ok (.value (.string (x ++ s.text r)))
  | "+", .number x, .string y => .ok (.value (.string (Number.render x ++ y)))
  | "+", .array x, .array y => .ok (.elements (s.elements x ++ s.elements y))
  | "*", .string x, .number n | "*", .number n, .string x => repeatString x n
  | op, l, r => .error (.cannotApply op l.kind r.kind)

/-- Decides a comparator by the order of its operands. -/
def decideOrder (op : String) (order : Ordering) : Except Fault Value :=
  match op with
  | "<" => .ok (.boolean (order = .lt))
  | ">" => .ok (.boolean (order = .gt))
  | "<=" => .ok (.boolean (order ≠ .gt))
  | ">=" => .ok (.boolean (order ≠ .lt))
  | _ => .error (.unknownComparator op)

/-- Applies a comparator. Only numbers and strings have an order, each among themselves; a
comparison with what is not a number is false. -/
def compare (s : Store) (op : String) (l r : Value) : Except Fault Value :=
  match op, l, r with
  | "==", l, r => .ok (.boolean (s.equal l r))
  | "!=", l, r => .ok (.boolean (!s.equal l r))
  | op, .number x, .number y =>
    if x < y then decideOrder op .lt
    else if y < x then decideOrder op .gt
    else if x == y then decideOrder op .eq
    else .ok (.boolean false)
  | op, .string x, .string y =>
    decideOrder op (if x < y then .lt else if x = y then .eq else .gt)
  | _, l, r => .error (.cannotCompare l.kind r.kind)

end Store

end ScriptKit
