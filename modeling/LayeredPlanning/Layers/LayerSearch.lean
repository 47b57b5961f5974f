import LayeredPlanning.Domain.Task
import LayeredPlanning.Layers.ClosedLayers

/-!
# Closing layers

A `LayerSearch` closes the states of one direction one cost at a time, cheapest first, up to a
horizon.  A state may be closed at several costs, since plans are wanted in cost order and not only
the cheapest.  Within one cost, the states reached by free steps are closed in rounds, and each
round is a sub-layer.

Every step of a search leaves less to do: `remaining_lt_of_closeNext?`.
-/

namespace LayeredPlanning

/-- The states that a step of one of `rs` in direction `d` reaches from a member of `S`. -/
def stepAll (rs : List Transition) (d : Direction) (S : StateSet) : StateSet :=
  .unions (rs.map (·.step d S))

/-- Every reached state is reached by one relation. -/
@[simp] theorem mem_stepAll {rs : List Transition} {d : Direction} {S : StateSet} {t : State} :
    t ∈ stepAll rs d S ↔ ∃ r ∈ rs, t ∈ r.step d S := by
  simp only [stepAll, StateSet.mem_unions, List.mem_map]
  constructor
  · rintro ⟨_, ⟨r, hr, rfl⟩, ht⟩
    exact ⟨r, hr, ht⟩
  · rintro ⟨r, hr, ht⟩
    exact ⟨_, ⟨r, hr, rfl⟩, ht⟩

/-- The rounds of free steps that start from `round`: each holds the states not in `layer` and not
in an earlier round.  Every round takes states out of the finite range of the table, so the rounds
end. -/
def freeRounds (table : TransitionTable) (d : Direction) (layer round : StateSet) :
    List StateSet :=
  let reached := stepAll table.zeroCost d round \ layer
  if _h : reached.isEmpty then []
  else reached :: freeRounds table d (layer ∪ reached) reached
termination_by (table.range d \ layer).size
decreasing_by
  obtain ⟨t, ht⟩ := StateSet.isEmpty_eq_false_iff.mp (Bool.not_eq_true _ ▸ _h)
  obtain ⟨ht, hl⟩ := StateSet.mem_sdiff.mp ht
  obtain ⟨r, hr, hrt⟩ := mem_stepAll.mp ht
  refine StateSet.size_sdiff_lt (fun s hs ↦ StateSet.mem_union.mpr (.inl hs))
    (TransitionTable.mem_range_of_mem_step (TransitionTable.mem_zeroCost.mp hr).1 hrt) hl ?_
  exact StateSet.mem_union.mpr (.inr (StateSet.mem_sdiff.mpr ⟨ht, hl⟩))

/-- States that wait to be closed, by cost. -/
abbrev Agenda : Type := SortedMap Int StateSet

namespace Agenda

/-- Adds states that wait to be closed at a cost, unless there are none. -/
def schedule (agenda : Agenda) (cost : Int) (states : StateSet) : Agenda :=
  if states.isEmpty then agenda
  else agenda.alter cost fun known ↦ some (known.getD ∅ ∪ states)

/-- Scheduling leaves the other costs alone. -/
theorem fst_of_mem_schedule {agenda : Agenda} {cost : Int} {states : StateSet}
    {e : Int × StateSet} (h : e ∈ (agenda.schedule cost states).entries) :
    e.1 = cost ∨ e ∈ agenda.entries := by
  unfold schedule at h
  split at h
  · exact .inr h
  · exact SortedMap.fst_of_mem_alter h

/-- Schedules what the paid relations reach from a layer closed at `cost`, up to the horizon. -/
def scheduleSteps (agenda : Agenda) (rs : List Transition) (d : Direction) (horizon cost : Int)
    (layer : StateSet) : Agenda :=
  rs.foldl (fun agenda r ↦
    if horizon < cost + r.action.cost then agenda
    else agenda.schedule (cost + r.action.cost) (r.step d layer)) agenda

/-- Steps are scheduled above the cost of the layer and within the horizon. -/
theorem mem_scheduleSteps {agenda : Agenda} {rs : List Transition} {d : Direction}
    {horizon cost : Int} {layer : StateSet} (hrs : ∀ r ∈ rs, 0 < r.action.cost)
    {e : Int × StateSet} (h : e ∈ (agenda.scheduleSteps rs d horizon cost layer).entries) :
    cost < e.1 ∧ e.1 ≤ horizon ∨ e ∈ agenda.entries := by
  induction rs generalizing agenda with
  | nil => exact .inr h
  | cons r rs ih =>
    rcases ih (fun q hq ↦ hrs q (List.mem_cons_of_mem _ hq)) h with h | h
    · exact .inl h
    · have hr := hrs r List.mem_cons_self
      dsimp only at h
      split at h
      · exact .inr h
      · rcases fst_of_mem_schedule h with h | h
        · exact .inl (by omega)
        · exact .inr h

end Agenda

/-- A search in direction `d` that closes layers of `task` up to a horizon. -/
structure LayerSearch (task : Task) (d : Direction) (horizon : Int) where
  /-- The states that wait to be closed. -/
  agenda : Agenda
  /-- The layers closed so far. -/
  closed : ClosedLayers
  /-- Nothing waits beyond the horizon. -/
  agenda_le : ∀ e ∈ agenda.entries, e.1 ≤ horizon

namespace LayerSearch

variable {task : Task} {d : Direction} {horizon : Int}

/-- The search before its first layer: the root waits at cost zero. -/
def start (task : Task) (d : Direction) (horizon : Int) : LayerSearch task d horizon :=
  if h : 0 ≤ horizon then
    { agenda := Agenda.schedule ∅ 0 (task.root d)
      closed := ∅
      agenda_le := fun _ he ↦
        (Agenda.fst_of_mem_schedule he).elim (fun h' ↦ h' ▸ h) fun he ↦ nomatch he }
  else ⟨∅, ∅, fun _ he ↦ nomatch he⟩

/-- The cost of the next layer, if one remains within the horizon. -/
def nextCost? (search : LayerSearch task d horizon) : Option Int := search.agenda.leastKey?

/-- Whether every layer within the horizon is closed. -/
def isExhausted (search : LayerSearch task d horizon) : Bool := search.agenda.isEmpty

/-- The largest cost up to which all layers are final: the horizon once nothing waits. -/
def closedThrough (search : LayerSearch task d horizon) : Int :=
  match search.nextCost? with
  | some cost => cost - 1
  | none => horizon

/-- The sub-layers of the layer whose states reached by paying are `frontier`. -/
def sublayersFrom (task : Task) (d : Direction) (frontier : StateSet) : List StateSet :=
  frontier :: freeRounds task.transitions d frontier frontier

/-- Closes the cheapest layer that waits; answers its cost and its states. -/
def closeNext? (search : LayerSearch task d horizon) :
    Option ((Int × StateSet) × LayerSearch task d horizon) :=
  match h : search.agenda.popLeast? with
  | none => none
  | some ((cost, frontier), rest) =>
    let sublayers := sublayersFrom task d frontier
    let layer := StateSet.unions sublayers
    some ((cost, layer),
      { agenda := Agenda.scheduleSteps rest task.transitions.paid d horizon cost layer
        closed := search.closed.pushSublayers cost sublayers
        agenda_le := fun e he ↦ by
          rcases Agenda.mem_scheduleSteps
            (fun r hr ↦ (TransitionTable.mem_paid.mp hr).2) he with h' | h'
          · exact h'.2
          · refine search.agenda_le e ?_
            rw [SortedMap.popLeast?_eq_some_iff.mp h]
            exact List.mem_cons_of_mem _ h' })

/-- An upper bound on the number of layers that are still to be closed. -/
def remaining (search : LayerSearch task d horizon) : Nat :=
  match search.nextCost? with
  | some cost => (horizon - cost).toNat + 1
  | none => 0

/-- Closing a layer leaves less to do, since what waits afterwards costs more. -/
theorem remaining_lt_of_closeNext? {search search' : LayerSearch task d horizon}
    {closing : Int × StateSet} (h : search.closeNext? = some (closing, search')) :
    search'.remaining < search.remaining := by
  unfold closeNext? at h
  split at h
  · cases h
  · next cost frontier rest hpop =>
    cases h
    have hentries := SortedMap.popLeast?_eq_some_iff.mp hpop
    have hnext : search.nextCost? = some cost := by
      simp [nextCost?, SortedMap.leastKey?, hentries]
    simp only [remaining, hnext]
    split
    · next cost' h' =>
      simp only [nextCost?, SortedMap.leastKey?, Option.map_eq_some_iff] at h'
      obtain ⟨e, he, rfl⟩ := h'
      have hmem := List.mem_of_mem_head? he
      have hlt : cost < e.1 := by
        rcases Agenda.mem_scheduleSteps
          (fun r hr ↦ (TransitionTable.mem_paid.mp hr).2) hmem with h' | h'
        · exact h'.1
        · exact SortedMap.lt_of_popLeast? hpop h'
      have hle : e.1 ≤ horizon := by
        rcases Agenda.mem_scheduleSteps
          (fun r hr ↦ (TransitionTable.mem_paid.mp hr).2) hmem with h' | h'
        · exact h'.2
        · refine search.agenda_le e ?_
          rw [hentries]
          exact List.mem_cons_of_mem _ h'
      omega
    · omega

/-- The search after `n` more layers, or fewer if it is exhausted before. -/
def closeMany (search : LayerSearch task d horizon) : Nat → LayerSearch task d horizon
  | 0 => search
  | n + 1 =>
    match search.closeNext? with
    | none => search
    | some (_, next) => next.closeMany n

/-- The search after all layers within the horizon. -/
def closeAll (search : LayerSearch task d horizon) : LayerSearch task d horizon :=
  match _h : search.closeNext? with
  | none => search
  | some (_, next) => next.closeAll
termination_by search.remaining
decreasing_by exact remaining_lt_of_closeNext? _h

end LayerSearch

/-- The layers of a direction up to a horizon. -/
def ClosedLayers.upTo (task : Task) (d : Direction) (horizon : Int) : ClosedLayers :=
  (LayerSearch.start task d horizon).closeAll.closed

end LayeredPlanning
