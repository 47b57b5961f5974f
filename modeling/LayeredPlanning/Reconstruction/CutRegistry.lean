import LayeredPlanning.Reconstruction.Report
import LayeredPlanning.Reconstruction.Walk

/-!
# The cut registry

The registry keeps the cuts that searches report, cheapest first and one for each pair of costs, and
turns them into plans as soon as the searches have proved that no cheaper plan can come up.

The watermark is the least cost reconstructed in the latest productive call of `construct`.  Cuts
are consumed cheapest first, so a cut that is registered later and costs less has no plans that are
not known; it is dropped.
-/

namespace LayeredPlanning

/-- Cuts in order, the plan store that they feed, and what has become of earlier cuts. -/
structure CutRegistry (σ : Type) where
  /-- The cuts that wait, cheapest first. -/
  cuts : List Cut
  /-- The watermark, once a cut has been reconstructed. -/
  planCostBound? : Option Int
  /-- The states on accepted plans. -/
  goalPathStates : StateSet
  /-- The plan store. -/
  store : σ
  /-- Whether the first accepted plan is enough. -/
  singleSolution : Bool
  /-- The decisions on cuts so far. -/
  events : List CutEvent
deriving DecidableEq

/-- The decision `outcome` on a cut. -/
def CutEvent.ofCut (cut : Cut) (outcome : CutOutcome) : CutEvent :=
  ⟨cut.g, cut.h, cut.f, cut.states.size, outcome⟩

/-- The number of plans aimed for where a store wants `quota` plans. -/
def targetPlans (singleSolution : Bool) (quota : Nat) : Nat :=
  if singleSolution then Nat.min quota 1 else quota

namespace CutRegistry

variable {σ : Type}

/-- The registry without cuts. -/
def ofStore (store : σ) (singleSolution : Bool) : CutRegistry σ :=
  ⟨[], none, ∅, store, singleSolution, []⟩

/-- Registers a cut, or adds its states to the cut of the same costs.  A cut with a negative
component, or whose total cannot be represented, is refused. -/
def register (registry : CutRegistry σ) (cut : Cut) :
    Except ReconstructionError (CutRegistry σ) :=
  if cut.g < 0 ∨ cut.h < 0 then
    .error (.invalidCut cut.g cut.h "cost components must be non-negative")
  else if Cost.max < cut.g + cut.h then .error (.invalidCut cut.g cut.h "g + h overflows")
  else .ok { registry with cuts := cut.insertInto registry.cuts }

variable [PlanStore σ]

/-- The number of plans accepted. -/
def found (registry : CutRegistry σ) : Nat := PlanStore.acceptedCount registry.store

/-- The number of plans aimed for. -/
def target (registry : CutRegistry σ) : Nat :=
  targetPlans registry.singleSolution (PlanStore.quota registry.store)

/-- The number of plans still to be found. -/
def missing (registry : CutRegistry σ) : Nat := registry.target - registry.found

/-- Whether no further plan is to be found. -/
def foundAll (registry : CutRegistry σ) : Bool :=
  PlanStore.foundEnough registry.store || decide (registry.target ≤ registry.found)

/-- The watermark, if a cut costs less. -/
def watermarkAbove? (registry : CutRegistry σ) (cut : Cut) : Option Int :=
  registry.planCostBound?.filter (cut.f < ·)

/-- Takes the first cut off the registry, with the decision on it. -/
def consume (registry : CutRegistry σ) (cut : Cut) (rest : List Cut) (outcome : CutOutcome) :
    CutRegistry σ :=
  { registry with cuts := rest, events := registry.events ++ [.ofCut cut outcome] }

/-- The lesser of two costs, of which the first may not be there. -/
def leastOf (least? : Option Int) (cost : Int) : Int :=
  match least? with
  | some least => if least ≤ cost then least else cost
  | none => cost

/-- The tally of a reconstructed cut as a decision on it. -/
def outcomeOf (tally : Tally) : CutOutcome :=
  .reconstructed tally.accepted tally.duplicates tally.filtered

/-- Reconstructs the cuts below `bound`, cheapest first, as long as plans are missing.  The answer
is the least cost reconstructed, starting from `least?`.  An error leaves its cut at the front. -/
def constructFrom (bound : Int) (view : LayerView) (registry : CutRegistry σ)
    (least? : Option Int) : Except ReconstructionError (Option Int) × CutRegistry σ :=
  if registry.foundAll then (.ok least?, registry)
  else match _h : registry.cuts with
    | [] => (.ok least?, registry)
    | cut :: rest =>
      if bound ≤ cut.f then (.ok least?, registry)
      else match registry.watermarkAbove? cut with
        | some watermark =>
          constructFrom bound view (registry.consume cut rest (.belowWatermark watermark)) least?
        | none =>
          if PlanStore.admitsCost registry.store cut.f then
            match reconstruct view cut registry.missing registry.store with
            | (.error e, store) => (.error e, { registry with store := store })
            | (.ok tally, store) =>
              constructFrom bound view
                { registry.consume cut rest (outcomeOf tally) with
                  store := store
                  goalPathStates := registry.goalPathStates ∪ tally.goalPathStates }
                (some (leastOf least? cut.f))
          else
            (.ok least?, { registry with
              store := PlanStore.closeAtCost registry.store cut.f
              events := registry.events ++ [.ofCut cut .outsideQualityBound] })
termination_by registry.cuts.length
decreasing_by all_goals simp [_h, consume]

/-- Reconstructs the cuts below `bound`, for which the caller has proved that no cheaper plan
remains undiscovered, and moves the watermark.  An error leaves the watermark where it is. -/
def construct (registry : CutRegistry σ) (bound : Int) (view : LayerView) :
    Except ReconstructionError Unit × CutRegistry σ :=
  match constructFrom bound view registry none with
  | (.error e, registry) => (.error e, registry)
  | (.ok least?, registry) =>
    (.ok (), { registry with planCostBound? := least?.or registry.planCostBound? })

/-- The decisions and counters so far. -/
def report (registry : CutRegistry σ) : Report :=
  { events := registry.events
    planCostBound? := registry.planCostBound?
    acceptedPlans := registry.found
    targetPlans := registry.target
    goalPathStates := registry.goalPathStates.size }

end CutRegistry

end LayeredPlanning
