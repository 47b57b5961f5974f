/-!
# Costs

A cost is an integer.  Costs that are recorded or reported live in the range of 64-bit signed
words; sums that may leave that range are clamped to it by `Cost.saturate`.
-/

namespace LayeredPlanning

namespace Cost

/-- The largest representable cost. -/
def max : Int := 9223372036854775807

/-- The smallest representable cost. -/
def min : Int := -9223372036854775808

/-- `c` is representable. -/
def InRange (c : Int) : Prop := min ≤ c ∧ c ≤ max

instance instDecidableInRange (c : Int) : Decidable (InRange c) :=
  inferInstanceAs (Decidable (_ ∧ _))

/-- The representable cost nearest to `c`. -/
def saturate (c : Int) : Int := if max < c then max else if c < min then min else c

/-- A sum that stops at the ends of the range. -/
def satAdd (a b : Int) : Int := saturate (a + b)

/-- A difference that stops at the ends of the range. -/
def satSub (a b : Int) : Int := saturate (a - b)

/-- A representable cost is its own saturation. -/
theorem saturate_of_inRange {c : Int} (h : InRange c) : saturate c = c := by
  unfold InRange at h
  grind [saturate]

/-- A saturation is representable. -/
theorem inRange_saturate (c : Int) : InRange (saturate c) := by
  grind [saturate, InRange, min, max]

/-- Saturation never moves a cost past the upper end. -/
theorem saturate_le_max (c : Int) : saturate c ≤ max := (inRange_saturate c).2

/-- A sum of costs that are not negative is not negative. -/
theorem satAdd_nonneg {a b : Int} (ha : 0 ≤ a) (hb : 0 ≤ b) : 0 ≤ satAdd a b := by
  grind [satAdd, saturate, min, max]

end Cost

end LayeredPlanning
