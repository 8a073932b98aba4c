import ScriptKit.Value.Basic

namespace ScriptKit.Store

/-- Whether all pairs of two lists of one length are related. -/
def allPairs (related : Value → Value → Bool) : List Value → List Value → Bool
  | [], [] => true
  | l :: ls, r :: rs => related l r && allPairs related ls rs
  | _, _ => false

/-- Equality of values while the pairs of arrays in `pending` are being compared: such a pair counts
as equal, so that arrays that contain themselves can be compared. -/
def equalWithin (s : Store) : Nat → List (ArrayId × ArrayId) → Value → Value → Bool
  | 0, _, _, _ => true
  | fuel + 1, pending, l, r =>
    match l, r with
    | .absent, .absent | .null, .null => true
    | .number x, .number y => x == y
    | .string x, .string y => x = y
    | .boolean x, .boolean y => x = y
    | .array x, .array y =>
      x = y ||
        ((s.elements x).size = (s.elements y).size &&
          (pending.contains (x, y) ||
            allPairs (s.equalWithin fuel ((x, y) :: pending))
              (s.elements x).toList (s.elements y).toList))
    | .function x, .function y => x = y
    | .classValue x, .classValue y => x = y
    | .object x, .object y => x = y
    | _, _ => false

/-- Scalars are equal by value, functions, classes and objects by identity, and arrays if their
elements are. -/
def equal (s : Store) (l r : Value) : Bool :=
  s.equalWithin (s.arrays.size * s.arrays.size + 2) [] l r

end ScriptKit.Store
