import ScriptKit.Number.Power

namespace ScriptKit.Number

/-- A finite double is `significand * 2 ^ exponent`, with its sign kept apart. -/
structure Binary where
  negative : Bool
  significand : Nat
  exponent : Int
  deriving DecidableEq

def Binary.ofBits (bits : UInt64) : Binary :=
  let fraction := bits.toNat % twoTo 52
  let scale := bits.toNat / twoTo 52 % twoTo 11
  { negative := bits.toNat / twoTo 63 % 2 = 1
    significand := if scale = 0 then fraction else fraction + twoTo 52
    exponent := (max scale 1 : Nat) - 1075 }

def Binary.ofFloat (x : Float) : Binary :=
  .ofBits x.toBits

/-- A number without a fraction. Infinities count as such. -/
def isIntegral (x : Float) : Bool :=
  let b := Binary.ofFloat x
  !x.isNaN && (0 ≤ b.exponent || b.significand % twoTo b.exponent.natAbs = 0)

def infinity (negative : Bool) : Float :=
  Float.ofBits (UInt64.ofNat ((if negative then twoTo 63 else 0) + 2047 * twoTo 52))

def notANumber : Float :=
  Float.ofBits 0x7ff8000000000001

/-- The quotient of two numbers rounded to the nearest integer, a half to the even one. -/
def roundQuotient (num den : Nat) : Nat :=
  let q := num / den
  let r := num % den
  if 2 * r < den || (2 * r = den && q % 2 = 0) then q else q + 1

/-- The double nearest to `num / den`, a tie going to the even significand; too large a quotient
gives an infinity. -/
def nearest (negative : Bool) (num den : Nat) : Float :=
  if num = 0 || den = 0 then Float.ofBits (if negative then 0x8000000000000000 else 0)
  else
    let estimate : Int := (Nat.log2 num : Int) - Nat.log2 den - 52
    let quotient (e : Int) : Nat :=
      if e < 0 then roundQuotient (num * twoTo e.natAbs) den
      else roundQuotient num (den * twoTo e.natAbs)
    let fits : Bool :=
      if estimate < 0 then twoTo 52 * den ≤ num * twoTo estimate.natAbs
      else twoTo 52 * (den * twoTo estimate.natAbs) ≤ num
    let e := max (if fits then estimate else estimate - 1) (-1074)
    let m := quotient e
    let (m, e) := if m = twoTo 53 then (twoTo 52, e + 1) else (m, e)
    if e > 971 then infinity negative
    else
      let scale := if m < twoTo 52 then 0 else (e + 1075).toNat
      let sign := if negative then twoTo 63 else 0
      Float.ofBits (UInt64.ofNat (sign + scale * twoTo 52 + m % twoTo 52))

/-- The remainder of the magnitudes with the sign of the dividend, for finite operands and a
divisor other than zero. -/
def remainder (x y : Float) : Float :=
  let a := Binary.ofFloat x
  let b := Binary.ofFloat y
  let low := min a.exponent b.exponent
  let units (x : Binary) : Nat := x.significand * twoTo (x.exponent - low).toNat
  let m := units a % units b
  if low < 0 then nearest a.negative m (twoTo low.natAbs)
  else nearest a.negative (m * twoTo low.natAbs) 1

end ScriptKit.Number
