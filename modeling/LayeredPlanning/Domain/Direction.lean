import LayeredPlanning.Order.Strict

/-!
# Search directions

Layers are closed from the initial state towards the goals, or from the goals towards the initial
state.
-/

namespace LayeredPlanning

/-- The way in which a search runs along the transitions. -/
inductive Direction where
  /-- From the initial state, along the transitions. -/
  | forward
  /-- From the goals, against the transitions. -/
  | backward
deriving DecidableEq

namespace Direction

/-- The name of a direction in texts. -/
def name : Direction → String
  | forward => "forward"
  | backward => "backward"

/-- The other way. -/
def opposite : Direction → Direction
  | forward => backward
  | backward => forward

/-- `forward` comes before `backward`. -/
instance instLT : LT Direction := ⟨fun d e ↦ d = forward ∧ e = backward⟩

instance instDecidableLT : DecidableLT Direction :=
  fun d e ↦ inferInstanceAs (Decidable (d = forward ∧ e = backward))

/-- Turning round twice changes nothing. -/
@[simp] theorem opposite_opposite (d : Direction) : d.opposite.opposite = d := by cases d <;> rfl

end Direction

end LayeredPlanning
