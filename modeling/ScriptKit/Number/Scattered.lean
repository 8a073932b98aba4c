import ScriptKit.Number.Power

namespace ScriptKit.Number

/-- The number at a place of a sequence that looks random, from zero to below one. -/
def scattered (i : Nat) : Float :=
  let x : UInt64 := (i.toUInt64 + 1) * 0x9E3779B97F4A7C15
  let y := (x ^^^ (x >>> 30)) * 0xBF58476D1CE4E5B9
  let z := (y ^^^ (y >>> 27)) * 0x94D049BB133111EB
  ((z ^^^ (z >>> 31)) >>> 11).toFloat / Float.ofNat (twoTo 53)

end ScriptKit.Number
