/-!
# Scrambled keys

Pairs of costs in a scrambled but fixed order, to fill a registry with.
-/

namespace LayeredPlanning.Samples

/-- The least number from `s` on whose square is at least `n`. -/
def leastSide (n s : Nat) : Nat := if n ≤ s * s then s else leastSide n (s + 1)
termination_by n - s
decreasing_by
  have := Nat.le_mul_self s
  omega

/-- `n` pairs: the numbers below `n`, stepped through by a fixed stride, as row and column of a
square just large enough. -/
def scrambledKeys (n : Nat) : List (Nat × Nat) :=
  let side := leastSide n 1
  (List.range n).map fun i ↦ (i * 7919 % n / side, i * 7919 % n % side)

end LayeredPlanning.Samples
