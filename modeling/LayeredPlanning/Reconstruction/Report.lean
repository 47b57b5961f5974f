import LayeredPlanning.Canonical.ContentHash
import LayeredPlanning.Canonical.JsonText

/-!
# Reconstruction reports

The decisions taken on cuts, in order, with the counters at the end.  A report has a canonical text
and a digest of it.
-/

namespace LayeredPlanning

/-- What became of a cut. -/
inductive CutOutcome where
  /-- Its plans were submitted. -/
  | reconstructed (accepted duplicates filtered : Nat)
  /-- It was dropped, since it is cheaper than cuts whose plans are known. -/
  | belowWatermark (watermark : Int)
  /-- The plan store refused its cost. -/
  | outsideQualityBound
deriving DecidableEq

/-- A decision on a cut. -/
structure CutEvent where
  /-- The cost from the initial state. -/
  g : Int
  /-- The cost to a goal. -/
  h : Int
  /-- The cost of plans through the cut. -/
  f : Int
  /-- The number of meeting states. -/
  meetingStates : Nat
  /-- What became of the cut. -/
  outcome : CutOutcome
deriving DecidableEq

/-- The decisions on cuts, with the counters at the end. -/
structure Report where
  /-- The decisions, in order. -/
  events : List CutEvent
  /-- The cost from which on plans are not yet known, once a cut has been reconstructed. -/
  planCostBound? : Option Int
  /-- The number of plans accepted. -/
  acceptedPlans : Nat
  /-- The number of plans aimed for. -/
  targetPlans : Nat
  /-- The number of states on accepted plans. -/
  goalPathStates : Nat
deriving DecidableEq

/-- What became of a cut, as a JSON value. -/
def CutOutcome.toJson : CutOutcome → Json
  | reconstructed accepted duplicates filtered =>
    .object [("accepted", .nat accepted), ("duplicates", .nat duplicates),
      ("filtered", .nat filtered), ("type", .string "reconstructed")]
  | belowWatermark watermark =>
    .object [("type", .string "below_watermark"), ("watermark", .int watermark)]
  | outsideQualityBound => .object [("type", .string "outside_quality_bound")]

/-- A decision as a JSON value. -/
def CutEvent.toJson (event : CutEvent) : Json :=
  .object [("f", .int event.f), ("g", .int event.g), ("h", .int event.h),
    ("meeting_states", .nat event.meetingStates), ("outcome", event.outcome.toJson)]

namespace Report

/-- The report as a JSON value. -/
def toJson (report : Report) : Json :=
  .object [("accepted_plans", .nat report.acceptedPlans),
    ("events", .ofList CutEvent.toJson report.events),
    ("goal_path_states", .nat report.goalPathStates),
    ("plan_cost_bound", .ofOption .int report.planCostBound?),
    ("target_plans", .nat report.targetPlans)]

/-- The canonical text of the report. -/
def canonicalText (report : Report) : Except CanonicalError String := report.toJson.canonicalText

/-- The hash of the canonical text. -/
def digest (report : Report) : Except CanonicalError ContentHash :=
  report.canonicalText.map fun text ↦
    .ofBytes ContentHash.reportDomain (ContentHash.textBytes text)

end Report

end LayeredPlanning
