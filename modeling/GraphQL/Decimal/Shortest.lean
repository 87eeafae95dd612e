import GraphQL.Decimal.Binary

/-!
# Shortest decimals

The decimal with the fewest digits that reads back as a given finite binary float, computed in
exact natural number arithmetic. Of two such decimals the one nearer to the float is taken, and
of two equally near the one with the even last digit.
-/

namespace GraphQL.Decimal

/-- The reals that round to a float: those between `low / unit` and `high / unit` around the
float's own magnitude `middle / unit`. The two ends belong to them when `closed` holds. -/
structure Reach where
  low : Nat
  middle : Nat
  high : Nat
  unit : Nat
  closed : Bool

/-- Half a step on either side; below a power of two the steps are half as wide. An end rounds
to the neighbour with the even mantissa. -/
def Binary.reach (x : Binary) : Reach :=
  let factor := Nat.pow 2 (x.exponent - 2).toNat
  let below := if x.mantissa = Nat.pow 2 52 ∧ x.exponent ≠ -1074 then 1 else 2
  { low := (4 * x.mantissa - below) * factor
    middle := 4 * x.mantissa * factor
    high := (4 * x.mantissa + 2) * factor
    unit := Nat.pow 2 (2 - x.exponent).toNat
    closed := x.mantissa % 2 = 0 }

namespace Reach

/-- The decimal `digits * 10 ^ exponent` lies in the reach. -/
def holds (reach : Reach) (digits : Nat) (exponent : Int) : Bool :=
  let point := digits * Nat.pow 10 exponent.toNat * reach.unit
  let scale := Nat.pow 10 (-exponent).toNat
  if reach.closed then reach.low * scale ≤ point && point ≤ reach.high * scale
  else reach.low * scale < point && point < reach.high * scale

/-- The digits of a decimal in the reach with the given exponent, the nearest to the middle. Only
the two neighbours of the middle can be the nearest. -/
def nearest? (reach : Reach) (exponent : Int) : Option Nat :=
  let top := reach.middle * Nat.pow 10 (-exponent).toNat
  let bottom := reach.unit * Nat.pow 10 exponent.toNat
  let lower := top / bottom
  let upper := lower + 1
  match reach.holds lower exponent, reach.holds upper exponent with
  | true, true =>
    let below := top - lower * bottom
    let above := upper * bottom - top
    some (if below < above ∨ (below = above ∧ lower % 2 = 0) then lower else upper)
  | true, false => some lower
  | false, true => some upper
  | false, false => none

/-- The place `k` of the middle's first digit: `10 ^ (k - 1)` is the highest power of ten that
does not exceed the middle. -/
def place (reach : Reach) : Int :=
  if reach.unit ≤ reach.middle then (Nat.toDigits 10 (reach.middle / reach.unit)).length
  else
    match (List.range 400).find? fun zeros => reach.unit ≤ reach.middle * Nat.pow 10 zeros with
    | some zeros => 1 - (zeros : Int)
    | none => 0

end Reach

structure Scaled where
  digits : Nat
  exponent : Int

/-- The same decimal without zeros at its end; at most `fuel` of them are removed. -/
def Scaled.trimmed : (fuel : Nat) → Scaled → Scaled
  | 0, x => x
  | fuel + 1, x =>
    if x.digits ≠ 0 ∧ x.digits % 10 = 0 then trimmed fuel ⟨x.digits / 10, x.exponent + 1⟩ else x

/-- The shortest decimal that reads back as the magnitude of a finite float. Seventeen digits
always suffice. -/
def shortest (x : Float) : Scaled :=
  let binary := Binary.ofFloat x
  let reach := binary.reach
  let place := reach.place
  let found := if binary.mantissa = 0 then none else
    (List.range 17).findSome? fun (count : Nat) =>
      let exponent : Int := place - (count + 1 : Nat)
      (reach.nearest? exponent).map fun digits => (⟨digits, exponent⟩ : Scaled)
  (found.getD ⟨0, 0⟩).trimmed 18

end GraphQL.Decimal
