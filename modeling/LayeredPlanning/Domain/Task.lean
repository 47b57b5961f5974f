import LayeredPlanning.Domain.TransitionTable

/-!
# Planning tasks

A `Task` is what searches and reconstruction read: an initial state, a set of goals to search back
from, a goal test and a transition table.  An `ExplicitTask` is a task given by its data alone: its
goal test is membership in a set of goals that is not empty, and its relations are consistent.
-/

namespace LayeredPlanning

/-- A planning task. -/
structure Task where
  /-- The name of the task. -/
  name : String
  /-- The state in which every plan starts. -/
  initial : State
  /-- The states from which a backward search starts. -/
  goals : StateSet
  /-- The goal test; a task that keeps its word accepts exactly `goals`. -/
  isGoal : State → Bool
  /-- The transition relations. -/
  transitions : TransitionTable

/-- Why a task is refused. -/
inductive TaskError where
  /-- An action is refused. -/
  | invalidAction (cause : ActionError)
  /-- There is no goal. -/
  | noGoal (task : String)
deriving DecidableEq

/-- The text of the refusal. -/
def TaskError.message : TaskError → String
  | invalidAction cause => "invalid action: " ++ cause.message
  | noGoal task => "world " ++ task ++ " declares no goal state"

namespace Task

/-- The set from which a search in direction `d` starts. -/
def root (task : Task) : Direction → StateSet
  | .forward => .singleton task.initial
  | .backward => task.goals

/-- The same task, except that the goal test rejects the members of `S`. -/
def rejecting (task : Task) (S : StateSet) : Task :=
  { task with isGoal := fun s ↦ task.isGoal s && !S.contains s }

end Task

/-- A task given by its data. -/
structure ExplicitTask where
  /-- The name of the task. -/
  name : String
  /-- The state in which every plan starts. -/
  initial : State
  /-- The states in which plans end. -/
  goals : StateSet
  /-- There is a goal. -/
  goals_ne_empty : goals.isEmpty = false
  /-- The transition relations. -/
  transitions : TransitionTable
  /-- Both indexes of each relation hold the same edges. -/
  consistent : ∀ r ∈ transitions.relations, r.Consistent

namespace ExplicitTask

/-- The task without transitions, unless there is no goal. -/
def ofGoals? (name : String) (initial : State) (goals : StateSet) :
    Except TaskError ExplicitTask :=
  if h : goals.isEmpty = false then
    .ok ⟨name, initial, goals, h, ∅, fun _ hr ↦ nomatch hr⟩
  else
    .error (.noGoal name)

/-- The task with one more relation. -/
def addTransition (task : ExplicitTask) (r : Transition) (h : r.Consistent) : ExplicitTask :=
  { task with
    transitions := task.transitions.insert r
    consistent := fun q hq ↦ by
      rcases TransitionTable.mem_insert.mp hq with rfl | hq
      · exact h
      · exact task.consistent q hq }

/-- The task with one more action and its edges. -/
def addEdges (task : ExplicitTask) (action : Action) (edges : List (State × State)) :
    ExplicitTask :=
  task.addTransition (.ofEdges action edges) (Transition.consistent_ofEdges action edges)

/-- An action with the edges that it induces, before the cost has been checked. -/
structure RelationData where
  /-- The identifier of the action. -/
  id : UInt32
  /-- The name of the action. -/
  name : String
  /-- The cost of the action. -/
  cost : Int
  /-- The edges, from state to state. -/
  edges : List (State × State)

/-- The task with the described relations, up to the first that is refused. -/
def addRelations? (task : ExplicitTask) : List RelationData → Except TaskError ExplicitTask
  | [] => .ok task
  | data :: rest =>
    match Action.ofCost? data.id data.name data.cost with
    | .error e => .error (.invalidAction e)
    | .ok action => (task.addEdges action data.edges).addRelations? rest

/-- The task that the data describe.  That there is no goal is found before any fault of an
action. -/
def ofData? (name : String) (initial : State) (goals : StateSet) (relations : List RelationData) :
    Except TaskError ExplicitTask :=
  match ofGoals? name initial goals with
  | .error e => .error e
  | .ok task => task.addRelations? relations

/-- The task as searches and reconstruction read it. -/
def toTask (task : ExplicitTask) : Task where
  name := task.name
  initial := task.initial
  goals := task.goals
  isGoal := task.goals.contains
  transitions := task.transitions

/-- The goal test of an explicit task accepts its goals. -/
@[simp] theorem isGoal_toTask {task : ExplicitTask} {s : State} :
    task.toTask.isGoal s = true ↔ s ∈ task.goals :=
  StateSet.contains_eq_true

/-- The relations of an explicit task follow edges in either direction. -/
theorem mem_preimage {task : ExplicitTask} {r : Transition}
    (hr : r ∈ task.transitions.relations) {S : StateSet} {s : State} :
    s ∈ r.preimage S ↔ ∃ t ∈ S, r.HasEdge s t :=
  (task.consistent r hr).mem_preimage

end ExplicitTask

end LayeredPlanning
