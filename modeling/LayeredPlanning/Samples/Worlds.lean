import LayeredPlanning.Domain.Task

/-!
# Sample worlds

Small tasks that show one thing each: plans of different lengths and costs, plans that differ only
in free actions, and plans around a cycle.
-/

namespace LayeredPlanning.Samples

/-- The edge between two states of a single variable. -/
def edge (e : UInt32 × UInt32) : State × State := (.single e.1, .single e.2)

/-- The task of a single variable that starts at zero. -/
def world (name : String) (goals : List UInt32) (relations : List ExplicitTask.RelationData) :
    Except TaskError ExplicitTask :=
  ExplicitTask.ofData? name (.single 0) (.ofList (goals.map .single)) relations

/-- Three steps to the goal, the first two of which can be taken at once for the same cost. -/
def corridor : Except TaskError ExplicitTask :=
  world "corridor" [3]
    [⟨0, "step", 1, [edge (0, 1), edge (1, 2), edge (2, 3)]⟩, ⟨1, "leap", 2, [edge (0, 2)]⟩]

/-- Two ways round that cost the same, with free actions before and after the paid ones. -/
def zeroCostDiamond : Except TaskError ExplicitTask :=
  world "zero_cost_diamond" [4]
    [⟨0, "left", 0, [edge (0, 1)]⟩, ⟨1, "right", 0, [edge (0, 2)]⟩,
      ⟨2, "a", 1, [edge (1, 3)]⟩, ⟨3, "b", 1, [edge (2, 3)]⟩,
      ⟨4, "finish", 0, [edge (3, 4)]⟩]

/-- A cycle that can be walked in both senses, at different costs.  There is at least one state, and
the goal is taken round the cycle. -/
def ring (size goal : UInt32) : Except TaskError ExplicitTask :=
  let n := if size = 0 then 1 else size.toNat
  let state (i : Nat) : UInt32 := UInt32.ofNat (i % n)
  world "ring" [state goal.toNat]
    [⟨0, "cw", 1, (List.range n).map fun i ↦ edge (state i, state (i + 1))⟩,
      ⟨1, "ccw", 2, (List.range n).map fun i ↦ edge (state i, state (i + n - 1))⟩]

/-- The cycle of four states whose goal lies opposite the start. -/
def defaultRing : Except TaskError ExplicitTask := ring 4 2

end LayeredPlanning.Samples
