import ScriptKit.Number.Decimal
import ScriptKit.Text.Basic

namespace ScriptKit.Number

/-- Digits written in full, with zeros up to the point where that is needed. -/
def positional (digits : List Char) (exponent : Int) : List Char :=
  if exponent < 0 then '0' :: '.' :: List.replicate (exponent.natAbs - 1) '0' ++ digits
  else
    let whole := exponent.toNat + 1
    if digits.length ≤ whole then digits ++ List.replicate (whole - digits.length) '0'
    else digits.take whole ++ '.' :: digits.drop whole

/-- One digit before the point and an exponent with a sign and at least two digits. -/
def exponential (digits : List Char) (exponent : Int) : List Char :=
  let mantissa := match digits with
    | [] => ['0']
    | [d] => [d]
    | d :: rest => d :: '.' :: rest
  let power := Nat.toDigits 10 exponent.natAbs
  mantissa ++ 'e' :: (if exponent < 0 then '-' else '+') ::
    List.replicate (2 - power.length) '0' ++ power

/-- The exponents whose numbers the compact form writes in full. -/
def isCompact (exponent : Int) : Bool :=
  -4 ≤ exponent && exponent < 6

def signed (negative : Bool) (digits : List Char) : String :=
  String.ofList (if negative then '-' :: digits else digits)

/-- The fewest digits that read back as the same number, with an exponent outside of the compact
range. -/
def compact (x : Float) : String :=
  if x.isNaN then "NaN"
  else if x.isInf then (if x < 0 then "-Inf" else "+Inf")
  else
    let b := Binary.ofFloat x
    let (digits, exponent) := (shortest b).scientific
    signed b.negative
      (if isCompact exponent then positional digits exponent else exponential digits exponent)

/-- Whether a finite number is an integer of a magnitude below 10^21. -/
def isShortIntegral (b : Binary) : Bool :=
  let whole := if b.exponent < 0 then b.significand % twoTo b.exponent.natAbs = 0 else true
  let magnitude := if b.exponent < 0 then b.significand / twoTo b.exponent.natAbs
    else b.significand * twoTo b.exponent.natAbs
  whole && magnitude < tenTo 21

/-- A number as a program sees it: integers below 10^21 in full, every other number compact. -/
def render (x : Float) : String :=
  if x.isNaN then "NaN"
  else if x.isInf then (if x < 0 then "-Infinity" else "Infinity")
  else
    let b := Binary.ofFloat x
    if isShortIntegral b then
      let (digits, exponent) := (shortest b).scientific
      signed b.negative (positional digits exponent)
    else compact x

end ScriptKit.Number
