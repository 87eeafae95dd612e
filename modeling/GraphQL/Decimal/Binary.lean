/-!
# Binary floats

The exact value of a finite binary float, read from its bits: a sign, and a natural number times a
power of two.
-/

namespace GraphQL.Decimal

structure Binary where
  mantissa : Nat
  exponent : Int

/-- The magnitude of a finite float; its sign is dropped. -/
def Binary.ofFloat (x : Float) : Binary :=
  let bits := x.toBits.toNat
  let fraction := bits % Nat.pow 2 52
  let field : Nat := bits / Nat.pow 2 52 % Nat.pow 2 11
  if field = 0 then ⟨fraction, -1074⟩ else ⟨Nat.pow 2 52 + fraction, (field : Int) - 1075⟩

/-- The natural number that a magnitude is, if it has no fraction. -/
def Binary.natural? (x : Binary) : Option Nat :=
  let scaled := x.mantissa * Nat.pow 2 x.exponent.toNat
  let unit := Nat.pow 2 (-x.exponent).toNat
  if scaled % unit = 0 then some (scaled / unit) else none

/-- True of a float whose sign bit is set, the negative zero included. -/
def isNegative (x : Float) : Bool := Nat.pow 2 63 ≤ x.toBits.toNat

/-- The integer that a float is, if it is finite and has no fraction. -/
def integer? (x : Float) : Option Int :=
  if x.isFinite then
    (Binary.ofFloat x).natural?.map fun size => if isNegative x then -(size : Int) else size
  else none

end GraphQL.Decimal
