import LayeredPlanning.Proofs.Paths.LevelSimple

/-!
# Genuine plans

What makes a plan a plan of a task, said of the plan alone: it starts in the initial state, each of
its actions leads from one of its states to the next, it ends in a goal, no state comes twice at the
same accumulated cost, and its cost is the sum of the action costs, without saturation
(`Plan.Genuine`).

The plan of an eligible path is genuine, as long as its cost can be represented:
`Task.Eligible.genuine`.
-/

namespace LayeredPlanning

namespace Plan

/-- The costs before, between and after actions, from `c` on. -/
def runningCosts (c : Int) : List Action → List Int
  | [] => [c]
  | a :: as => c :: runningCosts (c + a.cost) as

theorem length_runningCosts (c : Int) (as : List Action) :
    (runningCosts c as).length = as.length + 1 := by
  induction as generalizing c with
  | nil => rfl
  | cons a as ih => exact congrArg (· + 1) (ih _)

/-- One more action brings the cost of all of them. -/
theorem runningCosts_concat (c : Int) (as : List Action) (a : Action) :
    runningCosts c (as ++ [a]) = runningCosts c as ++ [c + ((as ++ [a]).map Action.cost).sum] := by
  induction as generalizing c with
  | nil => simp [runningCosts]
  | cons b as ih =>
    rw [List.cons_append, runningCosts, ih, runningCosts, List.map_cons,
      List.sum_cons, Int.add_assoc, List.cons_append]

/-- The states of a plan, each with the cost accumulated so far. -/
def visits (plan : Plan) : List (State × Int) := plan.states.zip (runningCosts 0 plan.actions)

/-- The plan leads from the initial state of the task to a goal, and costs what its actions cost. -/
structure Genuine (task : Task) (plan : Plan) : Prop where
  length : plan.states.length = plan.actions.length + 1
  initial : plan.states.head? = some task.initial
  goal : ∃ t, plan.states.getLast? = some t ∧ task.isGoal t = true
  edge : ∀ (i : Nat) (a : Action) (s t : State), plan.actions[i]? = some a →
    plan.states[i]? = some s → plan.states[i + 1]? = some t →
      ∃ r ∈ task.transitions.relations, r.action = a ∧ r.HasEdge s t
  levelSimple : plan.visits.Nodup
  cost : plan.cost = (plan.actions.map Action.cost).sum

end Plan

variable {table : TransitionTable} {s t : State} {es : List (Step table)}

/-- The states of a plan, with their costs, are those of the path. -/
theorem zip_pathStates (s : State) (c : Int) (es : List (Step table)) :
    (pathStates s es).zip (Plan.runningCosts c (es.map Step.action)) = visits s c es := by
  induction es generalizing s c with
  | nil => rfl
  | cons e es ih => exact congrArg ((s, c) :: ·) (ih e.target (c + e.cost))

theorem visits_pathPlan (s : State) (es : List (Step table)) :
    (pathPlan s es).visits = visits s 0 es :=
  zip_pathStates s 0 es

namespace Leads

theorem getLast?_pathStates (h : Leads s es t) : (pathStates s es).getLast? = some t := by
  induction h with
  | nil => rfl
  | @cons s t e es _ _ ih =>
    rw [pathStates, List.map_cons, List.getLast?_cons_cons]
    exact ih

/-- Each action of a path leads from one of its states to the next. -/
theorem hasEdge (h : Leads s es t) {i : Nat} {a : Action} {u v : State}
    (ha : (es.map Step.action)[i]? = some a) (hu : (pathStates s es)[i]? = some u)
    (hv : (pathStates s es)[i + 1]? = some v) :
    ∃ r ∈ table.relations, r.action = a ∧ r.HasEdge u v := by
  induction h generalizing i with
  | nil => cases ha
  | @cons s t e es hedge _ ih =>
    cases i with
    | zero =>
      cases ha
      cases hu
      cases hv
      exact ⟨e.transition, e.transition_mem, rfl, hedge⟩
    | succ i => exact ih ha hu hv

end Leads

/-- The plan of an eligible path is genuine, if its cost is that of the path. -/
theorem Task.Eligible.genuine {task : Task} {simpleOnly : Bool} {es : List (Step task.transitions)}
    (h : task.Eligible simpleOnly es) (hcost : (pathPlan task.initial es).cost = pathCost es) :
    (pathPlan task.initial es).Genuine task := by
  obtain ⟨t, hleads, hgoal⟩ := h.goal
  constructor
  case length =>
    rw [pathPlan, length_pathStates, List.length_map]
  case initial => rfl
  case goal => exact ⟨t, hleads.getLast?_pathStates, hgoal⟩
  case edge => exact fun i a u v ha hu hv ↦ hleads.hasEdge ha hu hv
  case levelSimple =>
    rw [visits_pathPlan]
    exact h.levelSimple
  case cost =>
    rw [hcost]
    exact pathCost_eq_sum es

end LayeredPlanning
