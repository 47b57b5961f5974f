import LayeredPlanning.Plans.PlanStore
import LayeredPlanning.Plans.Selection

/-!
# The plan database

The plan store of a run.  It keeps plans in the order of acceptance, takes no action sequence twice,
and applies a selection: the number of plans, their quality relative to the first plan, and, if
asked to, that no state repeats.
-/

namespace LayeredPlanning

/-- Accepted plans, with what decides about the next one. -/
structure PlanDatabase where
  /-- Which plans are wanted. -/
  selection : Selection
  /-- Whether plans that visit a state twice are unwanted. -/
  simpleOnly : Bool
  /-- The accepted plans, in order of acceptance. -/
  plans : List Plan
  /-- The fingerprint digests of the accepted plans. -/
  digests : List String
  /-- The cost of the first accepted plan. -/
  optimalCost? : Option Int
  /-- Whether a cost outside the wanted quality has been reached. -/
  isClosed : Bool
deriving DecidableEq

namespace PlanDatabase

/-- The database without plans, unless the selection has a fault. -/
def ofSelection? (selection : Selection) (simpleOnly : Bool) :
    Except ReconstructionError PlanDatabase :=
  match selection.fault? with
  | some fault => .error fault
  | none => .ok ⟨selection, simpleOnly, [], [], none, false⟩

/-- Whether no further plan is wanted. -/
def foundEnough (db : PlanDatabase) : Bool :=
  db.isClosed || decide (db.selection.count ≤ db.plans.length)

/-- Whether a plan of cost `cost` is good enough. -/
def withinQuality (db : PlanDatabase) (cost : Int) : Bool :=
  db.selection.admits db.optimalCost? cost

/-- Whether some filter rejects a plan. -/
def rejects (db : PlanDatabase) (plan : Plan) : Bool :=
  db.foundEnough || !db.withinQuality plan.cost || (db.simpleOnly && !plan.isSimple)

/-- Offers a plan.  A plan that passes the filters is a duplicate if its digest is known, and is
accepted otherwise. -/
def submit (db : PlanDatabase) (plan : Plan) : Verdict × PlanDatabase :=
  if db.rejects plan then (.filtered, db)
  else
    let digest := plan.fingerprint.hexDigest
    if digest ∈ db.digests then (.duplicate, db)
    else (.accepted, { db with
      plans := db.plans ++ [plan]
      digests := digest :: db.digests
      optimalCost? := db.optimalCost?.or (some plan.cost) })

/-- Closes the database if plans of cost `cost` are not good enough. -/
def closeAtCost (db : PlanDatabase) (cost : Int) : PlanDatabase :=
  if db.withinQuality cost then db else { db with isClosed := true }

instance instPlanStore : PlanStore PlanDatabase where
  submit := submit
  quota db := db.selection.count
  acceptedCount db := db.plans.length
  foundEnough := foundEnough
  admitsCost := withinQuality
  closeAtCost := closeAtCost

end PlanDatabase

end LayeredPlanning
