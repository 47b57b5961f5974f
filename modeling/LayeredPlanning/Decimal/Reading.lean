/-!
# Reading decimal fractions

A decimal with a fraction or an exponent is read to a 64-bit float in two steps.  The digits are
gathered into a 64-bit significand; digits that no longer fit are counted in the exponent if they
stand before the point and dropped if they stand after it.  The significand, rounded to a float, is
then multiplied or divided once by a power of ten.  The second step rounds again, so the result can
differ from the nearest float in the last bit.
-/

namespace LayeredPlanning.Decimal

/-- A significand has to stay below this. -/
def significandLimit : Nat := 18446744073709551616

/-- Appends digits before the point to a significand; answers it with the number of digits from
the first one that does not fit. -/
def gatherWhole (significand : Nat) : List Nat → Nat × Nat
  | [] => (significand, 0)
  | digit :: rest =>
    if significand * 10 + digit < significandLimit then
      gatherWhole (significand * 10 + digit) rest
    else (significand, rest.length + 1)

/-- Appends digits after the point to a significand, up to the first one that does not fit;
answers it with the number of digits appended. -/
def gatherFraction (significand : Nat) : List Nat → Nat × Nat
  | [] => (significand, 0)
  | digit :: rest =>
    if significand * 10 + digit < significandLimit then
      let (gathered, count) := gatherFraction (significand * 10 + digit) rest
      (gathered, count + 1)
    else (significand, 0)

/-- The largest power of ten by which a float is scaled at once. -/
def largestPower : Nat := 308

/-- The float nearest to a power of ten. -/
def powerOfTen (n : Nat) : Float := Float.ofScientific 1 false n

/-- `x` times ten to the power `exponent`, unless that is too large for a float.  Very negative
exponents are worked off in steps, until nothing but zero is left. -/
def scale (x : Float) (exponent : Int) : Option Float :=
  if x == 0 then some x
  else if exponent < -(largestPower : Int) then
    scale (x / powerOfTen largestPower) (exponent + largestPower)
  else if exponent < 0 then some (x / powerOfTen exponent.natAbs)
  else if exponent ≤ largestPower then
    let y := x * powerOfTen exponent.natAbs
    if y.isInf then none else some y
  else none
termination_by exponent.natAbs
decreasing_by
  simp only [largestPower] at *
  omega

/-- The float that a decimal is read to, unless it is too large for a float. -/
def toFloat? (negative : Bool) (whole fraction : List Nat) (exponent : Int) : Option Float :=
  let (significand, dropped) := gatherWhole 0 whole
  let (significand, used) := gatherFraction significand fraction
  let magnitude? := scale (Float.ofScientific significand false 0)
    ((dropped : Int) - (used : Int) + exponent)
  magnitude?.map fun x ↦ if negative then -x else x

end LayeredPlanning.Decimal
