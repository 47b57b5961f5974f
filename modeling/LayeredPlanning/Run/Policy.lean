import LayeredPlanning.Domain.Direction
import LayeredPlanning.Plans.PlanDatabase

/-!
# Run policies

A policy says in which directions a run searches, how far, and which plans it keeps.
-/

namespace LayeredPlanning

/-- The directions in which a run searches. -/
inductive SearchMode where
  /-- From the initial state only; a cut is a layer that meets the goals. -/
  | forward
  /-- From the goals only; a cut is a layer that meets the initial state. -/
  | backward
  /-- From both ends; a cut is a layer of one search that meets a layer of the other. -/
  | bidirectional
deriving DecidableEq

namespace SearchMode

/-- The name of a mode in texts. -/
def name : SearchMode → String
  | forward => "forward"
  | backward => "backward"
  | bidirectional => "bidirectional"

/-- Whether the run searches in a direction. -/
def uses : SearchMode → Direction → Bool
  | forward, .forward => true
  | forward, .backward => false
  | backward, .forward => false
  | backward, .backward => true
  | bidirectional, _ => true

end SearchMode

/-- How a run searches and which plans it keeps. -/
structure RunPolicy where
  /-- The directions in which the run searches. -/
  mode : SearchMode := .bidirectional
  /-- The largest cost of a layer that a search closes. -/
  maxCost : Int := 64
  /-- Which plans are wanted. -/
  selection : Selection := .default
  /-- Whether plans that visit a state twice are unwanted. -/
  simpleOnly : Bool := false
  /-- Whether the first accepted plan is enough. -/
  singleSolution : Bool := false
deriving DecidableEq

namespace RunPolicy

/-- The fault of a policy: a negative horizon, or the fault of its selection. -/
def fault? (policy : RunPolicy) : Option ReconstructionError :=
  if policy.maxCost < 0 then
    some (.unsupportedPolicy
      ("max_cost must be non-negative, got " ++ toString policy.maxCost))
  else policy.selection.fault?

/-- The plan store of a run, unless the selection has a fault. -/
def database? (policy : RunPolicy) : Except ReconstructionError PlanDatabase :=
  PlanDatabase.ofSelection? policy.selection policy.simpleOnly

/-- The policy as a JSON value. -/
def toJson (policy : RunPolicy) : Json :=
  .object [("direction", .string policy.mode.name), ("max_cost", .int policy.maxCost),
    ("selection", policy.selection.toJson), ("simple_plans_only", .bool policy.simpleOnly),
    ("single_solution", .bool policy.singleSolution)]

end RunPolicy

end LayeredPlanning
