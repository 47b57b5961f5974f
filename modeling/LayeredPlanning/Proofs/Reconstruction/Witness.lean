import LayeredPlanning.Layers.LayerView
import LayeredPlanning.Proofs.Paths.LevelSimple
import LayeredPlanning.Reconstruction.Cut

/-!
# Witnesses of a cut

A witness says, without any search, why a plan belongs to a cut: it is a path from the initial state
to a goal, cut in two at a meeting state, whose halves have the costs of the cut and run through the
layers of their directions.
-/

namespace LayeredPlanning

/-- A path cut in two: the steps before a state, and those after it. -/
@[ext]
structure Witness (table : TransitionTable) where
  before : List (Step table)
  after : List (Step table)
deriving DecidableEq

namespace Witness

variable {table : TransitionTable}

/-- The whole path. -/
def path (w : Witness table) : List (Step table) := w.before ++ w.after

/-- The plan of the path from `s`. -/
def plan (s : State) (w : Witness table) : Plan := pathPlan s w.path

/-- One more step after the meeting state. -/
def concat (w : Witness table) (e : Step table) : Witness table := ⟨w.before, w.after ++ [e]⟩

theorem path_concat (w : Witness table) (e : Step table) : (w.concat e).path = w.path ++ [e] :=
  (List.append_assoc ..).symm

end Witness

/-- `w` is a witness of the cut: a path from the initial state to a goal through a meeting state,
which it reaches at cost `g` and after which it costs `h`.  The states before the meeting state are
in the forward layers at their accumulated costs, those after it in the backward layers at what
remains of the cost; where a direction was not searched there are no such states.  No state is
visited twice at the same accumulated cost. -/
structure Cut.HasWitness (view : LayerView) (cut : Cut) (w : Witness view.task.transitions) :
    Prop where
  meets : ∃ m ∈ cut.states, Leads view.task.initial w.before m ∧
    ∃ t, Leads m w.after t ∧ view.task.isGoal t = true
  cost_before : pathCost w.before = cut.g
  cost_after : pathCost w.after = cut.h
  closed_before : ∀ v ∈ departures view.task.initial 0 w.before,
    v.1 ∈ view.closedAt .forward v.2
  closed_after : ∀ v ∈ arrivals cut.g w.after,
    v.1 ∈ view.closedAt .backward (cut.g + cut.h - v.2)
  levelSimple : LevelSimple view.task.initial w.path

end LayeredPlanning
