import LayeredPlanning.Domain.Cost
import LayeredPlanning.Order.Strict

/-!
# Actions

An action has an identifier, a name and a cost that is never negative; `Action.ofCost?` is the
checked way to make one.  Actions are ordered by identifier, then name, then cost.
-/

namespace LayeredPlanning

/-- An action with a cost of at least zero. -/
structure Action where
  /-- The identifier. -/
  id : UInt32
  /-- The name. -/
  name : String
  /-- What the action costs. -/
  cost : Int
  /-- Costs are never negative. -/
  cost_nonneg : 0 ≤ cost
deriving DecidableEq

/-- Why an action is refused. -/
inductive ActionError where
  /-- The cost is below zero. -/
  | negativeCost (action : String) (cost : Int)
deriving DecidableEq

/-- The text of the refusal. -/
def ActionError.message : ActionError → String
  | negativeCost action cost => "action " ++ action ++ " has negative cost " ++ toString cost

namespace Action

/-- Actions that agree in identifier, name and cost are equal. -/
@[ext] theorem ext {a b : Action} (hid : a.id = b.id) (hname : a.name = b.name)
    (hcost : a.cost = b.cost) : a = b := by
  cases a; cases b; cases hid; cases hname; cases hcost; rfl

/-- The action of the given cost, unless that is negative. -/
def ofCost? (id : UInt32) (name : String) (cost : Int) : Except ActionError Action :=
  if h : 0 ≤ cost then .ok ⟨id, name, cost, h⟩ else .error (.negativeCost name cost)

/-- Whether the action is free. -/
def isZeroCost (a : Action) : Bool := decide (a.cost = 0)

/-- The text of an action: `(name) [cost]`. -/
def text (a : Action) : String := "(" ++ a.name ++ ") [" ++ toString a.cost ++ "]"

instance instLT : LT Action where
  lt a b := a.id < b.id ∨
    a.id = b.id ∧ (a.name < b.name ∨ a.name = b.name ∧ a.cost < b.cost)

instance instDecidableLT : DecidableLT Action :=
  fun a b ↦ inferInstanceAs (Decidable (a.id < b.id ∨ a.id = b.id ∧
    (a.name < b.name ∨ a.name = b.name ∧ a.cost < b.cost)))

/-- An action is free exactly if it costs zero. -/
@[simp] theorem isZeroCost_iff {a : Action} : a.isZeroCost = true ↔ a.cost = 0 :=
  decide_eq_true_iff

end Action

end LayeredPlanning
