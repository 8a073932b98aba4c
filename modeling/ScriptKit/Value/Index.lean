import ScriptKit.Value.Operator

namespace ScriptKit.Store

/-- The position that an index value means in an array of a given length. -/
def position (length : Nat) : Value → Except Fault Nat
  | .number x =>
    if !Number.isIntegral x then .error (.indexNotIntegral x)
    else if x < 0 || Float.ofNat length ≤ x then .error (.indexOutOfBounds x length)
    else .ok x.toUInt64.toNat
  | v => .error (.indexNotNumeric v.kind)

/-- The array and the position in it that a value and an index mean. -/
def cell (s : Store) (target index : Value) : Except Fault (ArrayId × Nat) :=
  match target with
  | .array id => (position (s.elements id).size index).map fun i => (id, i)
  | v => .error (.cannotIndex v.kind)

def element (s : Store) (id : ArrayId) (i : Nat) : Value :=
  (s.elements id).getD i .null

def index (s : Store) (target index : Value) : Except Fault Value :=
  (s.cell target index).map fun (id, i) => s.element id i

/-- Reads through nested arrays. -/
def indexAll (s : Store) (target : Value) : List Value → Except Fault Value
  | [] => .ok target
  | i :: rest => do s.indexAll (← s.index target i) rest

/-- The cell of nested arrays that an index and the indices after it mean. -/
def innerCell (s : Store) (target i : Value) : List Value → Except Fault (ArrayId × Nat)
  | [] => s.cell target i
  | next :: rest => do s.innerCell (← s.index target i) next rest

end ScriptKit.Store
