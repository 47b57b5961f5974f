import LayeredPlanning.Layers.Meeting
import LayeredPlanning.Reconstruction.CutRegistry
import LayeredPlanning.Run.Policy

/-!
# Runs

A run closes layers from one or both ends, registers the cuts that they make, and after every layer
reconstructs the cuts below the bound proved so far.  It ends when enough plans are found or when
all layers within the horizon are closed; each turn of the loop closes a layer, so it does end.
-/

namespace LayeredPlanning

/-- Why a run fails. -/
inductive RunError where
  /-- The policy has a fault. -/
  | setup (cause : ReconstructionError)
  /-- The task is refused. -/
  | task (cause : TaskError)
  /-- Reconstruction failed; the plans accepted before are kept. -/
  | aborted (cause : ReconstructionError) (accepted : List Plan)
deriving DecidableEq

/-- The text of the failure. -/
def RunError.message : RunError → String
  | setup cause => cause.message
  | task cause => cause.message
  | aborted cause accepted =>
    "run aborted with " ++ toString accepted.length ++ " plans accepted: " ++ cause.message

/-- Why a run ended. -/
inductive Termination where
  /-- Enough plans are found. -/
  | foundAllPlans
  /-- All layers within the horizon are closed, and some plans are found. -/
  | horizonExhausted
  /-- All layers within the horizon are closed, and no plan is found. -/
  | noSolution
deriving DecidableEq

/-- The name of a termination in texts. -/
def Termination.name : Termination → String
  | foundAllPlans => "found_all_plans"
  | horizonExhausted => "horizon_exhausted"
  | noSolution => "no_solution"

/-- What a run has found. -/
structure RunOutcome where
  /-- The accepted plans, in order of acceptance. -/
  plans : List Plan
  /-- Why the run ended. -/
  termination : Termination
  /-- The cost below which no plan is undiscovered. -/
  lowerBound : Int
  /-- The least cost of a registered cut, if there is one. -/
  upperBound? : Option Int
  /-- The decisions on cuts. -/
  report : Report
deriving DecidableEq

namespace RunOutcome

/-- The outcome as a JSON value. -/
def toJson (outcome : RunOutcome) : Json :=
  .object [("lower_bound", .int outcome.lowerBound),
    ("plans", .ofList Plan.toJson outcome.plans), ("report", outcome.report.toJson),
    ("termination", .string outcome.termination.name),
    ("upper_bound", .ofOption .int outcome.upperBound?)]

/-- The costs of the plans, in order of acceptance. -/
def planCosts (outcome : RunOutcome) : List Int := outcome.plans.map (·.cost)

end RunOutcome

/-- What a run knows besides its searches. -/
structure Progress where
  /-- The registered cuts and the plans. -/
  registry : CutRegistry PlanDatabase
  /-- The cost below which no plan is undiscovered. -/
  lowerBound : Int
  /-- The least cost of a registered cut, if there is one. -/
  upperBound? : Option Int

namespace Progress

/-- The plans accepted so far. -/
def plans (progress : Progress) : List Plan := progress.registry.store.plans

/-- Registers a cut, unless enough plans are found, and lowers the upper bound to its cost. -/
def registerCut (progress : Progress) (cut : Cut) : Except RunError Progress :=
  if progress.registry.foundAll then .ok progress
  else match progress.registry.register cut with
    | .error e => .error (.aborted e progress.plans)
    | .ok registry =>
      .ok { progress with
        registry := registry
        upperBound? := some (CutRegistry.leastOf progress.upperBound? cut.f) }

/-- Registers cuts one after the other, up to the first that is refused. -/
def registerCuts (progress : Progress) : List Cut → Except RunError Progress
  | [] => .ok progress
  | cut :: rest =>
    match progress.registerCut cut with
    | .error e => .error e
    | .ok progress => progress.registerCuts rest

/-- Raises the lower bound to `bound` and reconstructs the cuts below it, unless the bound is no
better or enough plans are found. -/
def raiseBound (progress : Progress) (bound : Int) (view : LayerView) :
    Except RunError Progress :=
  if bound ≤ progress.lowerBound ∨ progress.registry.foundAll then .ok progress
  else match progress.registry.construct bound view with
    | (.error e, registry) => .error (.aborted e registry.store.plans)
    | (.ok (), registry) => .ok { progress with registry := registry, lowerBound := bound }

/-- Why a run ends when all layers are closed. -/
def exhausted (progress : Progress) : Termination :=
  if progress.registry.foundAll then .foundAllPlans
  else if progress.registry.found = 0 then .noSolution
  else .horizonExhausted

end Progress

/-- The largest action cost of a task, but at least one. -/
def Task.maxActionCost (task : Task) : Int :=
  let cost := task.transitions.maxCost?.getD 0
  if cost < 1 then 1 else cost

/-- Closes layers until enough plans are found or nothing is left to close. -/
def runFrom {task : Task} {horizon : Int} (frontiers : Frontiers task horizon)
    (progress : Progress) : Except RunError (Termination × Progress) :=
  if progress.registry.foundAll then .ok (.foundAllPlans, progress)
  else match _h : frontiers.closeNext? with
    | none =>
      match progress.raiseBound (frontiers.provenBound task.maxActionCost) frontiers.view with
      | .error e => .error e
      | .ok progress => .ok (progress.exhausted, progress)
    | some (cuts, next) =>
      match progress.registerCuts cuts with
      | .error e => .error e
      | .ok progress =>
        match progress.raiseBound (next.provenBound task.maxActionCost) next.view with
        | .error e => .error e
        | .ok progress => runFrom next progress
termination_by frontiers.remaining
decreasing_by exact Frontiers.remaining_lt_of_closeNext? _h

/-- The searches of a run before their first layers. -/
def Frontiers.start (task : Task) (policy : RunPolicy) : Frontiers task policy.maxCost where
  forward? := if policy.mode.uses .forward then some (.start task .forward policy.maxCost) else none
  backward? :=
    if policy.mode.uses .backward then some (.start task .backward policy.maxCost) else none

/-- Searches a task and reconstructs its plans as the policy says. -/
def run (task : Task) (policy : RunPolicy) : Except RunError RunOutcome :=
  match policy.fault? with
  | some fault => .error (.setup fault)
  | none =>
    match policy.database? with
    | .error fault => .error (.setup fault)
    | .ok database =>
      let registry := CutRegistry.ofStore database policy.singleSolution
      match runFrom (Frontiers.start task policy) ⟨registry, 0, none⟩ with
      | .error e => .error e
      | .ok (termination, progress) =>
        .ok { plans := progress.plans
              termination := termination
              lowerBound := progress.lowerBound
              upperBound? := progress.upperBound?
              report := progress.registry.report }

/-- Runs the task that a world builds, unless the world is refused. -/
def runWorld (built : Except TaskError ExplicitTask) (policy : RunPolicy) :
    Except RunError RunOutcome :=
  match built with
  | .error e => .error (.task e)
  | .ok task => run task.toTask policy

end LayeredPlanning
