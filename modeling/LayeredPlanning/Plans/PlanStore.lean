import LayeredPlanning.Plans.Plan

/-!
# Plan stores

A plan store is offered plans and says of each whether it counts.  Reconstruction works with any
store; the defaults describe a store that wants plans of any cost until its quota is met.
-/

namespace LayeredPlanning

/-- What a store says of a plan. -/
inductive Verdict where
  /-- The plan is new and counts. -/
  | accepted
  /-- A plan with the same actions counts already. -/
  | duplicate
  /-- The plan is not wanted. -/
  | filtered
deriving DecidableEq

/-- The name of a verdict in texts. -/
def Verdict.name : Verdict → String
  | accepted => "accepted"
  | duplicate => "duplicate"
  | filtered => "filtered"

/-- Something that can be offered plans. -/
class PlanStore (σ : Type) where
  /-- Offers a plan. -/
  submit : σ → Plan → Verdict × σ
  /-- The number of plans wanted. -/
  quota : σ → Nat
  /-- The number of plans that count so far. -/
  acceptedCount : σ → Nat
  /-- Whether no further plan is wanted. -/
  foundEnough : σ → Bool := fun store ↦ decide (quota store ≤ acceptedCount store)
  /-- Whether plans of a cost may still be accepted. -/
  admitsCost : σ → Int → Bool := fun _ _ ↦ true
  /-- Tells the store that no plan of this or a higher cost will come, since it refused the cost. -/
  closeAtCost : σ → Int → σ := fun store _ ↦ store

end LayeredPlanning
