import LayeredPlanning.Plans.PlanStore

/-!
# Scripted plan stores

A store whose verdicts are fixed in advance, to study reconstruction apart from any selection.
-/

namespace LayeredPlanning

/-- A store that gives listed verdicts in turn, and accepts every plan after them. -/
structure ScriptedStore where
  /-- The number of plans wanted. -/
  quota : Nat
  /-- The verdicts still to be given. -/
  script : List Verdict
  /-- The largest cost that is admitted, if there is one. -/
  limit? : Option Int
  /-- The accepted plans, in order of acceptance. -/
  plans : List Plan
deriving DecidableEq

namespace ScriptedStore

/-- The store before its first verdict. -/
def ofScript (quota : Nat) (script : List Verdict) (limit? : Option Int) : ScriptedStore :=
  ⟨quota, script, limit?, []⟩

/-- Gives the next verdict, and keeps the plan if that accepts it. -/
def submit (store : ScriptedStore) (plan : Plan) : Verdict × ScriptedStore :=
  let verdict := store.script.headD .accepted
  let plans := if verdict = .accepted then store.plans ++ [plan] else store.plans
  (verdict, { store with script := store.script.tail, plans := plans })

/-- Whether a cost is within the limit. -/
def admitsCost (store : ScriptedStore) (cost : Int) : Bool :=
  match store.limit? with
  | some limit => cost ≤ limit
  | none => true

instance instPlanStore : PlanStore ScriptedStore where
  submit := submit
  quota := quota
  acceptedCount store := store.plans.length
  admitsCost := admitsCost

end ScriptedStore

end LayeredPlanning
