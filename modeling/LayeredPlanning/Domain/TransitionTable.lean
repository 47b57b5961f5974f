import LayeredPlanning.Domain.Transition

/-!
# Transition tables

A table lists the transition relations of a task by ascending action cost; relations of equal cost
stand in the order in which they were inserted.
-/

namespace LayeredPlanning

/-- Transition relations by ascending action cost. -/
structure TransitionTable where
  /-- The relations. -/
  relations : List Transition
  /-- Cheaper actions come first. -/
  ascending : relations.Pairwise fun q r ↦ q.action.cost ≤ r.action.cost

namespace TransitionTable

/-- The table without relations. -/
def empty : TransitionTable := ⟨[], .nil⟩

instance instEmptyCollection : EmptyCollection TransitionTable := ⟨empty⟩

/-- Puts `r` behind all relations that cost no more. -/
def insertByCost (r : Transition) : List Transition → List Transition
  | [] => [r]
  | q :: qs => if r.action.cost < q.action.cost then r :: q :: qs else q :: insertByCost r qs

/-- An insertion adds one relation. -/
@[simp] theorem mem_insertByCost {r q : Transition} {qs : List Transition} :
    q ∈ insertByCost r qs ↔ q = r ∨ q ∈ qs := by
  induction qs with
  | nil => simp [insertByCost]
  | cons p ps ih =>
    simp only [insertByCost]
    split
    · simp
    · simp only [List.mem_cons, ih]
      exact or_left_comm

/-- An insertion keeps the order. -/
theorem pairwise_insertByCost {r : Transition} {qs : List Transition}
    (h : qs.Pairwise fun q r ↦ q.action.cost ≤ r.action.cost) :
    (insertByCost r qs).Pairwise fun q r ↦ q.action.cost ≤ r.action.cost := by
  induction qs with
  | nil => simp [insertByCost]
  | cons p ps ih =>
    obtain ⟨hp, hps⟩ := List.pairwise_cons.mp h
    simp only [insertByCost]
    split
    · next hrp =>
      refine List.pairwise_cons.mpr ⟨fun q hq ↦ ?_, h⟩
      rcases List.mem_cons.mp hq with rfl | hq
      · exact Int.le_of_lt hrp
      · exact Int.le_trans (Int.le_of_lt hrp) (hp q hq)
    · next hrp =>
      refine List.pairwise_cons.mpr ⟨fun q hq ↦ ?_, ih hps⟩
      rcases mem_insertByCost.mp hq with rfl | hq
      · exact Int.not_lt.mp hrp
      · exact hp q hq

/-- The table with `r` added behind all relations that cost no more. -/
def insert (table : TransitionTable) (r : Transition) : TransitionTable :=
  ⟨insertByCost r table.relations, pairwise_insertByCost table.ascending⟩

/-- The relation at a place of the table. -/
def relationAt (table : TransitionTable) (k : Fin table.relations.length) : Transition :=
  table.relations.get k

/-- The relations whose action costs exactly `cost`, in order of insertion. -/
def atCost (table : TransitionTable) (cost : Int) : List Transition :=
  table.relations.filter fun r ↦ r.action.cost == cost

/-- The relations of free actions. -/
def zeroCost (table : TransitionTable) : List Transition :=
  table.relations.filter fun r ↦ r.action.isZeroCost

/-- The relations of actions that cost something, cheapest first. -/
def paid (table : TransitionTable) : List Transition :=
  table.relations.filter fun r ↦ !r.action.isZeroCost

/-- The different action costs, ascending. -/
def costs (table : TransitionTable) : List Int :=
  (table.relations.map (·.action.cost)).eraseDups

/-- Each action cost with the relations of that cost, ascending. -/
def groups (table : TransitionTable) : List (Int × List Transition) :=
  table.costs.map fun cost ↦ (cost, table.atCost cost)

/-- Whether some action is free. -/
def hasZeroCost (table : TransitionTable) : Bool :=
  table.relations.any fun r ↦ r.action.isZeroCost

/-- The largest action cost, if there is an action. -/
def maxCost? (table : TransitionTable) : Option Int :=
  table.relations.getLast?.map (·.action.cost)

/-- The number of relations. -/
def size (table : TransitionTable) : Nat := table.relations.length

/-- Whether there is no relation. -/
def isEmpty (table : TransitionTable) : Bool := table.relations.isEmpty

/-- Every state to which some step in direction `d` can lead. -/
def range (table : TransitionTable) (d : Direction) : StateSet :=
  .unions (table.relations.map (·.range d))

/-- What stands at a place is in the table. -/
theorem relationAt_mem (table : TransitionTable) (k : Fin table.relations.length) :
    table.relationAt k ∈ table.relations :=
  List.get_mem table.relations k

/-- A table has the inserted relation and those it had before. -/
@[simp] theorem mem_insert {table : TransitionTable} {r q : Transition} :
    q ∈ (table.insert r).relations ↔ q = r ∨ q ∈ table.relations :=
  mem_insertByCost

/-- The free relations are those of free actions. -/
@[simp] theorem mem_zeroCost {table : TransitionTable} {r : Transition} :
    r ∈ table.zeroCost ↔ r ∈ table.relations ∧ r.action.cost = 0 := by
  simp [zeroCost]

/-- The paid relations are those of actions that cost something. -/
@[simp] theorem mem_paid {table : TransitionTable} {r : Transition} :
    r ∈ table.paid ↔ r ∈ table.relations ∧ 0 < r.action.cost := by
  have := r.action.cost_nonneg
  simp only [paid, List.mem_filter, Bool.not_eq_true', ← Bool.not_eq_true, Action.isZeroCost_iff]
  refine and_congr_right fun _ ↦ ?_
  omega

/-- No action costs more than the largest action cost. -/
theorem cost_le_of_maxCost? {table : TransitionTable} {c : Int} (hc : table.maxCost? = some c)
    {r : Transition} (hr : r ∈ table.relations) : r.action.cost ≤ c := by
  obtain ⟨rs, h⟩ := table
  simp only [maxCost?, Option.map_eq_some_iff] at hc
  obtain ⟨last, hlast, rfl⟩ := hc
  obtain ⟨init, rfl⟩ := List.getLast?_eq_some_iff.mp hlast
  rcases List.mem_append.mp hr with hr | hr
  · exact (List.pairwise_append.mp h).2.2 r hr last List.mem_cons_self
  · exact Int.le_of_eq (congrArg (·.action.cost) (List.mem_singleton.mp hr))

/-- A step along a relation of the table ends in the range of the table. -/
theorem mem_range_of_mem_step {table : TransitionTable} {r : Transition}
    (hr : r ∈ table.relations) {d : Direction} {S : StateSet} {t : State}
    (ht : t ∈ r.step d S) : t ∈ table.range d :=
  StateSet.mem_unions.mpr
    ⟨r.range d, List.mem_map.mpr ⟨r, hr, rfl⟩, Transition.mem_range_of_mem_step ht⟩

end TransitionTable

end LayeredPlanning
