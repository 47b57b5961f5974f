/-!
# Shortest decimal texts of floats

A finite 64-bit float is written with the fewest decimal digits that are still closer to it than to
any other float; of two such decimals the nearer is taken, and of two equally near the even one.
The search works on the exact value `mantissa * 2 ^ exponent`, in integers.
-/

namespace LayeredPlanning.Decimal

/-- The magnitude of a finite float: `mantissa * 2 ^ exponent`. -/
structure Binary where
  /-- The mantissa. -/
  mantissa : Nat
  /-- The exponent. -/
  exponent : Int
deriving DecidableEq

namespace Binary

/-- The highest bit of the mantissa of a normal float, which is not stored: the 52nd power of
two. -/
def hiddenBit : Nat := 4503599627370496

/-- The magnitude held by the lower 63 bits of a float. -/
def ofBits (bits : UInt64) : Binary :=
  let fraction : Nat := bits.toNat % hiddenBit
  let field : Nat := bits.toNat / hiddenBit % 2048
  if field = 0 then ⟨fraction, -1074⟩ else ⟨hiddenBit + fraction, (field : Int) - 1075⟩

/-- A fraction of natural numbers. -/
structure Ratio where
  /-- The numerator. -/
  num : Nat
  /-- The denominator. -/
  den : Nat

/-- `n * 2 ^ e` in units of `10 ^ grid`. -/
def onGrid (n : Nat) (e grid : Int) : Ratio where
  num := n * Nat.pow 2 e.toNat * Nat.pow 10 (-grid).toNat
  den := Nat.pow 2 (-e).toNat * Nat.pow 10 grid.toNat

/-- Four times the lower end of the numbers that round to `x`.  Below a power of two the next float
is only half as far away. -/
def lowerEnd (x : Binary) : Nat :=
  if x.mantissa = hiddenBit ∧ -1074 < x.exponent then 4 * x.mantissa - 1 else 4 * x.mantissa - 2

/-- Four times the upper end of the numbers that round to `x`. -/
def upperEnd (x : Binary) : Nat := 4 * x.mantissa + 2

/-- Whether `k * 10 ^ grid` rounds to `x`: the ends belong to an even mantissa. -/
def roundsTo (x : Binary) (grid : Int) (k : Nat) : Bool :=
  let low := onGrid x.lowerEnd (x.exponent - 2) grid
  let high := onGrid x.upperEnd (x.exponent - 2) grid
  if x.mantissa % 2 = 0 then low.num ≤ k * low.den && k * high.den ≤ high.num
  else low.num < k * low.den && k * high.den < high.num

/-- The multiple of `10 ^ grid` nearest to `x`, if one of the two multiples around `x` rounds to
`x`. -/
def nearestOn? (x : Binary) (grid : Int) : Option Nat :=
  let value := onGrid x.mantissa x.exponent grid
  let below := value.num / value.den
  match x.roundsTo grid below, x.roundsTo grid (below + 1) with
  | false, false => none
  | true, false => some below
  | false, true => some (below + 1)
  | true, true =>
    let twice := 2 * (value.num % value.den)
    if twice < value.den ∨ twice = value.den ∧ below % 2 = 0 then some below
    else some (below + 1)

/-- The shortest decimal `digits * 10 ^ grid` that rounds to `x`: the grids are tried from coarse to
fine. -/
def shortest (x : Binary) : Nat × Int :=
  let grids := (List.range 660).map fun (i : Nat) ↦ 310 - (i : Int)
  (grids.findSome? fun grid ↦ (x.nearestOn? grid).map (·, grid)).getD (0, 0)

end Binary

/-- Decimals from `10 ^ -5` up to `10 ^ 16` are written out, others with an exponent. -/
def isWrittenOut (leading : Int) : Bool := -5 ≤ leading && leading < 16

/-- The text of `digits * 10 ^ grid`, where the digits do not end in zero.  A number written out has
a digit on both sides of the point; an exponent has its sign. -/
def layOut (digits : List Char) (grid : Int) : String :=
  let point := digits.length + grid
  if isWrittenOut (point - 1) then
    if 0 ≤ grid then String.ofList (digits ++ List.replicate grid.toNat '0') ++ ".0"
    else if 0 < point then
      String.ofList (digits.take point.toNat) ++ "." ++ String.ofList (digits.drop point.toNat)
    else "0." ++ String.ofList (List.replicate (-point).toNat '0' ++ digits)
  else
    let fraction := if digits.tail.isEmpty then "" else "." ++ String.ofList digits.tail
    let sign := if 0 ≤ point - 1 then "+" else "-"
    String.ofList (digits.take 1) ++ fraction ++ "e" ++ sign ++ toString (point - 1).natAbs

/-- The shortest text of a finite float. -/
def text (x : Float) : String :=
  let magnitude := Binary.ofBits x.toBits
  let sign := if x.toBits.toNat < 9223372036854775808 then "" else "-"
  if magnitude.mantissa = 0 then sign ++ "0.0"
  else
    let (digits, grid) := magnitude.shortest
    sign ++ layOut (Nat.toDigits 10 digits) grid

end LayeredPlanning.Decimal
