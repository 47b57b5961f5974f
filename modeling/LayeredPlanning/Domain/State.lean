import LayeredPlanning.Order.Strict

/-!
# Concrete states

A state assigns a 32-bit value to each variable.  States are compared variable by variable, and of
two states of which one continues the other the shorter comes first.
-/

namespace LayeredPlanning

/-- A concrete state: one value per variable. -/
@[ext]
structure State where
  /-- The values, in variable order. -/
  values : List UInt32
deriving DecidableEq

namespace State

/-- The state of a single variable. -/
def single (v : UInt32) : State := ⟨[v]⟩

instance instLT : LT State := ⟨fun s t ↦ s.values < t.values⟩

instance instDecidableLT : DecidableLT State :=
  fun s t ↦ inferInstanceAs (Decidable (s.values < t.values))

/-- States are compared through their values. -/
theorem lt_iff {s t : State} : s < t ↔ s.values < t.values := .rfl

instance instStrictOrder : StrictOrder State where
  irrefl s := List.lt_irrefl s.values
  trans h h' := List.lt_trans h h'
  eq_of_not_lt h h' := State.ext (List.le_antisymm (List.not_lt.mp h') (List.not_lt.mp h))

/-- The values between brackets, with `separator` between neighbours. -/
def bracketed (separator : String) (s : State) : String :=
  "[" ++ separator.intercalate (s.values.map fun v ↦ toString v.toNat) ++ "]"

/-- The text of a state: `[3,1,4]`. -/
def text (s : State) : String := s.bracketed ","

/-- The text of a state that names its kind, for diagnostics: `ConcreteState[3, 1, 4]`. -/
def diagnosticText (s : State) : String := "ConcreteState" ++ s.bracketed ", "

end State

end LayeredPlanning
