/-!
# Strict linear orders

States, costs and keys are kept in ascending order throughout.  `StrictOrder` collects the three
facts about `<` that this needs, and `order` is the three-way comparison that `<` induces.
-/

namespace LayeredPlanning

universe u

/-- `<` is a strict linear order. -/
class StrictOrder (α : Type u) [LT α] : Prop where
  /-- Nothing is below itself. -/
  irrefl : ∀ a : α, ¬ a < a
  /-- Comparisons chain. -/
  trans : ∀ {a b c : α}, a < b → b < c → a < c
  /-- Two elements of which neither is below the other are equal. -/
  eq_of_not_lt : ∀ {a b : α}, ¬ a < b → ¬ b < a → a = b

namespace StrictOrder

variable {α : Type u} [LT α] [StrictOrder α]

/-- A smaller element differs from a larger one. -/
theorem ne {a b : α} (h : a < b) : a ≠ b := fun e ↦ irrefl b (e ▸ h)

/-- `<` holds in one direction at most. -/
theorem asymm {a b : α} (h : a < b) : ¬ b < a := fun h' ↦ irrefl a (trans h h')

end StrictOrder

/-- Integers are strictly and linearly ordered. -/
instance instStrictOrderInt : StrictOrder Int where
  irrefl a := Int.lt_irrefl a
  trans h h' := Int.lt_trans h h'
  eq_of_not_lt h h' := Int.le_antisymm (Int.not_lt.mp h') (Int.not_lt.mp h)

/-- The three-way comparison that `<` induces. -/
def order {α : Type u} [LT α] [DecidableLT α] (a b : α) : Ordering :=
  if a < b then .lt else if b < a then .gt else .eq

section Order

variable {α : Type u} [LT α] [DecidableLT α]

/-- `order` answers `lt` exactly on smaller elements. -/
@[simp] theorem order_eq_lt {a b : α} : order a b = .lt ↔ a < b := by
  unfold order
  split
  · simp_all
  · split <;> simp_all

/-- `order` answers `eq` exactly on equal elements. -/
@[simp] theorem order_eq_eq [StrictOrder α] {a b : α} : order a b = .eq ↔ a = b := by
  unfold order
  split
  · next h => simpa using StrictOrder.ne h
  · split
    · next h => simpa using (StrictOrder.ne h).symm
    · next h h' => simpa using StrictOrder.eq_of_not_lt h h'

end Order

/-- Elements sorted ascending; equal ones stay as they are. -/
def sortAscending {α : Type u} [LT α] [DecidableLT α] (xs : List α) : List α :=
  xs.mergeSort fun a b ↦ !decide (b < a)

end LayeredPlanning
