import LayeredPlanning.Domain.Task
import LayeredPlanning.Layers.ClosedLayers

/-!
# Views of closed layers

What reconstruction reads: a task, and for each direction that was searched the layers closed in it.
A direction that was searched but closed nothing is not missing.
-/

namespace LayeredPlanning

/-- A task with the layers closed in each searched direction. -/
structure LayerView where
  /-- The task. -/
  task : Task
  /-- The layers from the initial state, if that direction was searched. -/
  forward? : Option ClosedLayers
  /-- The layers from the goals, if that direction was searched. -/
  backward? : Option ClosedLayers

namespace LayerView

/-- The layers closed in a direction, if it was searched. -/
def layers? (view : LayerView) : Direction → Option ClosedLayers
  | .forward => view.forward?
  | .backward => view.backward?

/-- The states closed in a direction at a cost; none where the direction was not searched. -/
def closedAt (view : LayerView) (d : Direction) (cost : Int) : StateSet :=
  match view.layers? d with
  | some closed => closed.closedAt cost
  | none => ∅

/-- All states closed in either direction. -/
def closedStates (view : LayerView) : StateSet :=
  (view.forward?.getD ∅).states ∪ (view.backward?.getD ∅).states

/-- Without layers nothing is closed. -/
theorem closedAt_of_none {view : LayerView} {d : Direction} (h : view.layers? d = none)
    (cost : Int) : view.closedAt d cost = ∅ := by
  rw [closedAt, h]

/-- What is closed is what the layers of the direction have. -/
theorem closedAt_of_some {view : LayerView} {d : Direction} {closed : ClosedLayers}
    (h : view.layers? d = some closed) (cost : Int) :
    view.closedAt d cost = closed.closedAt cost := by
  rw [closedAt, h]

/-- What the layers of a direction have is closed. -/
theorem mem_closedStates {view : LayerView} {d : Direction} {closed : ClosedLayers}
    (h : view.layers? d = some closed) {cost : Int} {s : State} (hs : s ∈ closed.closedAt cost) :
    s ∈ view.closedStates := by
  rw [closedStates, StateSet.mem_union]
  cases d with
  | forward =>
    rw [layers?] at h
    rw [h]
    exact .inl (ClosedLayers.mem_states_of_mem_closedAt hs)
  | backward =>
    rw [layers?] at h
    rw [h]
    exact .inr (ClosedLayers.mem_states_of_mem_closedAt hs)

end LayerView

end LayeredPlanning
