import ScriptKit.Number.Binary

namespace ScriptKit.Number

/-- A decimal is `coefficient * 10 ^ power`. -/
structure Decimal where
  coefficient : Nat
  power : Int
  deriving DecidableEq

/-- The same decimal without zeros at the end of its coefficient, as far as the fuel reaches. -/
def Decimal.strip : Nat → Decimal → Decimal
  | 0, d => d
  | fuel + 1, d =>
    if d.coefficient ≠ 0 && d.coefficient % 10 = 0 then
      strip fuel ⟨d.coefficient / 10, d.power + 1⟩
    else d

/-- The positive rationals that round to one double: those from `low` to `high`, over `den`, with
the ends included if `closed`; the double itself is `mid`. -/
structure Interval where
  low : Nat
  mid : Nat
  high : Nat
  den : Nat
  closed : Bool

def Interval.ofBinary (b : Binary) : Interval :=
  let lowest := b.significand = twoTo 52 && b.exponent > -1074
  let e := b.exponent - 2
  let scale := if e < 0 then 1 else twoTo e.natAbs
  { low := (4 * b.significand - (if lowest then 1 else 2)) * scale
    mid := 4 * b.significand * scale
    high := (4 * b.significand + 2) * scale
    den := if e < 0 then twoTo e.natAbs else 1
    closed := b.significand % 2 = 0 }

/-- Whether a decimal lies in the interval. -/
def Interval.contains (i : Interval) (d : Decimal) : Bool :=
  let value :=
    if d.power < 0 then d.coefficient * i.den
    else d.coefficient * tenTo d.power.natAbs * i.den
  let unit := if d.power < 0 then tenTo d.power.natAbs else 1
  if i.closed then i.low * unit ≤ value && value ≤ i.high * unit
  else i.low * unit < value && value < i.high * unit

/-- The decimal exponent of `num / den`, which is not less than one. -/
def exponentAbove (num den : Nat) : Int :=
  (Nat.toDigits 10 (num / den)).length - 1

/-- The decimal exponent of `num / den`, which is less than one, counting down from `count`. -/
def exponentBelow : Nat → Nat → Nat → Int → Int
  | 0, _, _, e => e
  | fuel + 1, num, den, e => if den ≤ num then e else exponentBelow fuel (num * 10) den (e - 1)

def Interval.exponent (i : Interval) : Int :=
  if i.den ≤ i.mid then exponentAbove i.mid i.den else exponentBelow 400 i.mid i.den 0

/-- Of the two neighbours of the double on the grid of the multiples of `10 ^ power`, the one in
the interval; of two such the nearer, and of two as near the even one. -/
def Interval.onGrid (i : Interval) (power : Int) : Option Decimal :=
  let num := if power < 0 then i.mid * tenTo power.natAbs else i.mid
  let den := if power < 0 then i.den else i.den * tenTo power.natAbs
  let below := num / den
  let rest := num % den
  let down := i.contains ⟨below, power⟩
  let up := i.contains ⟨below + 1, power⟩
  if down && up then
    some ⟨if 2 * rest < den || (2 * rest = den && below % 2 = 0) then below else below + 1, power⟩
  else if down then some ⟨below, power⟩
  else if up then some ⟨below + 1, power⟩
  else none

/-- The coarsest grid point found when the grid is refined digit by digit. -/
def Interval.refine (i : Interval) (exponent : Int) : Nat → Nat → Decimal
  | 0, digits => ⟨i.mid / i.den, exponent - digits⟩
  | fuel + 1, digits =>
    match i.onGrid (exponent - digits) with
    | some d => d
    | none => refine i exponent fuel (digits + 1)

/-- The decimal with the fewest digits that reads back as the same positive double. -/
def shortest (b : Binary) : Decimal :=
  if b.significand = 0 then ⟨0, 0⟩
  else
    let i := Interval.ofBinary b
    (i.refine i.exponent 17 0).strip 400

/-- The digits of a decimal and the exponent of its first digit. -/
def Decimal.scientific (d : Decimal) : List Char × Int :=
  let digits := Nat.toDigits 10 d.coefficient
  (digits, d.power + digits.length - 1)

end ScriptKit.Number
