/-!
# Checked arithmetic

Arithmetic on 64-bit signed integers that has no result where the exact one does not fit or where
there is none. Division goes toward zero.
-/

namespace TreeCompiler.Arithmetic

/-- The 64-bit integer of a value, if it fits. -/
def ofInt? (value : Int) : Option Int64 :=
  if Int64.minValue.toInt ≤ value ∧ value ≤ Int64.maxValue.toInt then some (Int64.ofInt value)
  else none

def neg? (value : Int64) : Option Int64 := ofInt? (-value.toInt)

/-- The sum. -/
def add? (left right : Int64) : Option Int64 := ofInt? (left.toInt + right.toInt)

/-- The difference. -/
def sub? (left right : Int64) : Option Int64 := ofInt? (left.toInt - right.toInt)

/-- The product. -/
def mul? (left right : Int64) : Option Int64 := ofInt? (left.toInt * right.toInt)

/-- The quotient. -/
def div? (left right : Int64) : Option Int64 :=
  if right = 0 then none else ofInt? (left.toInt.tdiv right.toInt)

/-- The remainder. There is none where there is no quotient. -/
def mod? (left right : Int64) : Option Int64 :=
  (div? left right).map fun _ => Int64.ofInt (left.toInt.tmod right.toInt)

end TreeCompiler.Arithmetic
