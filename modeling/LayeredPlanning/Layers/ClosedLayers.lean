import LayeredPlanning.Domain.StateSet
import LayeredPlanning.Order.SortedMap

/-!
# Closed layers

For each cost, a search records the states that it closed at that cost, split into zero-cost
sub-layers: first the states reached by paying, then those first reached after one free step, after
two, and so on.  Empty sub-layers are not recorded.
-/

namespace LayeredPlanning

/-- The states closed at each cost, as a list of zero-cost sub-layers. -/
structure ClosedLayers where
  /-- The sub-layers by cost. -/
  layers : SortedMap Int (List StateSet)
deriving DecidableEq

namespace ClosedLayers

/-- Nothing is closed. -/
def empty : ClosedLayers := ⟨∅⟩

instance instEmptyCollection : EmptyCollection ClosedLayers := ⟨empty⟩

/-- The sub-layers closed at a cost, in order of discovery. -/
def sublayers (closed : ClosedLayers) (cost : Int) : List StateSet :=
  (closed.layers.get? cost).getD []

/-- All states closed at a cost. -/
def closedAt (closed : ClosedLayers) (cost : Int) : StateSet := .unions (closed.sublayers cost)

/-- All closed states. -/
def states (closed : ClosedLayers) : StateSet := .unions closed.layers.values.flatten

/-- The position of the first sub-layer that has `s`. -/
def sublayerIndex? (closed : ClosedLayers) (cost : Int) (s : State) : Option Nat :=
  (closed.sublayers cost).findIdx? (·.contains s)

/-- The costs at which something is closed, ascending. -/
def closedCosts (closed : ClosedLayers) : List Int := closed.layers.keys

/-- Records one more sub-layer, unless it is empty. -/
def pushSublayer (closed : ClosedLayers) (cost : Int) (states : StateSet) : ClosedLayers :=
  if states.isEmpty then closed
  else ⟨closed.layers.alter cost fun known ↦ some (known.getD [] ++ [states])⟩

/-- Records sub-layers one after the other. -/
def pushSublayers (closed : ClosedLayers) (cost : Int) (sublayers : List StateSet) :
    ClosedLayers :=
  sublayers.foldl (·.pushSublayer cost ·) closed

/-- Records the sub-layers that are not empty in place of those recorded before. -/
def replaceLayer (closed : ClosedLayers) (cost : Int) (sublayers : List StateSet) :
    ClosedLayers :=
  let kept := sublayers.filter fun L ↦ !L.isEmpty
  ⟨closed.layers.alter cost fun _ ↦ if kept.isEmpty then none else some kept⟩

/-- The states of a list of sub-layers, by the first sub-layer that has them, then by state. -/
def ranked : List StateSet → List State
  | [] => []
  | L :: rest => L.toList ++ (ranked rest).filter fun s ↦ !L.contains s

/-- The states closed at a cost, by the first sub-layer that has them, then by state. -/
def rankedAt (closed : ClosedLayers) (cost : Int) : List State := ranked (closed.sublayers cost)

/-- A closed state is in some sub-layer. -/
@[simp] theorem mem_closedAt {closed : ClosedLayers} {cost : Int} {s : State} :
    s ∈ closed.closedAt cost ↔ ∃ L ∈ closed.sublayers cost, s ∈ L :=
  StateSet.mem_unions

/-- What is closed at a cost is closed. -/
theorem mem_states_of_mem_closedAt {closed : ClosedLayers} {cost : Int} {s : State}
    (h : s ∈ closed.closedAt cost) : s ∈ closed.states := by
  obtain ⟨L, hL, hs⟩ := mem_closedAt.mp h
  rw [sublayers] at hL
  cases hlayer : closed.layers.get? cost with
  | none =>
    rw [hlayer] at hL
    exact nomatch hL
  | some Ls =>
    rw [hlayer] at hL
    have hLs := SortedMap.get?_eq_some_iff.mp hlayer
    exact StateSet.mem_unions.mpr
      ⟨L, List.mem_flatten.mpr ⟨Ls, List.mem_map.mpr ⟨_, hLs, rfl⟩, hL⟩, hs⟩

/-- Ranking lists the states of all sub-layers. -/
theorem mem_ranked {Ls : List StateSet} {s : State} :
    s ∈ ranked Ls ↔ ∃ L ∈ Ls, s ∈ L := by
  induction Ls with
  | nil => simp [ranked]
  | cons L Ls ih =>
    simp only [ranked, List.mem_append, StateSet.mem_toList, List.mem_filter, ih,
      Bool.not_eq_true', StateSet.contains_eq_false, List.mem_cons, exists_eq_or_imp]
    by_cases hs : s ∈ L <;> simp [hs]

/-- Ranking lists the closed states. -/
@[simp] theorem mem_rankedAt {closed : ClosedLayers} {cost : Int} {s : State} :
    s ∈ closed.rankedAt cost ↔ s ∈ closed.closedAt cost := by
  rw [rankedAt, mem_ranked, mem_closedAt]

/-- Ranking lists each state once. -/
theorem nodup_ranked (Ls : List StateSet) : (ranked Ls).Nodup := by
  induction Ls with
  | nil => exact .nil
  | cons L Ls ih =>
    refine List.nodup_append.mpr ⟨L.nodup_toList, ih.filter _, fun s hs t ht e ↦ ?_⟩
    subst e
    simp only [List.mem_filter, Bool.not_eq_true', StateSet.contains_eq_false] at ht
    exact ht.2 hs

end ClosedLayers

end LayeredPlanning
