import LayeredPlanning.Proofs.Layers.Costs
import Mathlib.Data.Finset.Card

/-!
# Closing a layer ends, and stays within the costs

Two loops close a layer.  The rounds of free steps each find a state that is not in the layer yet,
so there are no more of them than the task has states (`freePasses_le`).  The paid steps are
scheduled in the order of their costs, and the first one that leads beyond the horizon ends the
loop, or the first one whose cost cannot be represented (`Agenda.scheduleChecked`).  Nothing within
the horizon is lost by that (`Agenda.scheduleChecked_eq`), so no cost of a search is ever out of
range (`LayerSearch.Computable`).
-/

namespace LayeredPlanning

/-! ## States -/

theorem StateSet.size_le_size {S T : StateSet} (h : ∀ s ∈ S, s ∈ T) : S.size ≤ T.size :=
  (S.nodup_toList.subperm h).length_le

/-- The states that occur in a task. -/
def Task.states (task : Task) : StateSet :=
  task.root .forward ∪ task.root .backward ∪
    (task.transitions.range .forward ∪ task.transitions.range .backward)

theorem Task.mem_states_of_mem_range {task : Task} {d : Direction} {s : State}
    (h : s ∈ task.transitions.range d) : s ∈ task.states := by
  refine StateSet.mem_union.mpr (.inr (StateSet.mem_union.mpr ?_))
  cases d with
  | forward => exact .inl h
  | backward => exact .inr h

/-! ## Rounds of free steps -/

/-- Each round takes a state out of those that are not in the layer. -/
theorem length_freeRounds_le (table : TransitionTable) (d : Direction)
    (layer round : StateSet) :
    (freeRounds table d layer round).length ≤ (table.range d \ layer).size := by
  fun_induction freeRounds table d layer round with
  | case1 => exact Nat.zero_le _
  | case2 layer round reached hsome ih =>
    obtain ⟨t, ht⟩ := StateSet.isEmpty_eq_false_iff.mp (Bool.not_eq_true _ ▸ hsome)
    obtain ⟨hstep, hnew⟩ := StateSet.mem_sdiff.mp ht
    obtain ⟨r, hr, hstep⟩ := mem_stepAll.mp hstep
    have hrange : t ∈ table.range d :=
      TransitionTable.mem_range_of_mem_step (TransitionTable.mem_zeroCost.mp hr).1 hstep
    have hless : (table.range d \ (layer ∪ reached)).size < (table.range d \ layer).size :=
      StateSet.size_sdiff_lt (fun s hs ↦ StateSet.mem_union.mpr (.inl hs)) hrange hnew
        (StateSet.mem_union.mpr (.inr ht))
    exact Nat.lt_of_le_of_lt ih hless

/-- How often the loop over the free steps from a frontier passes: once for each of its rounds, and
once more to find nothing. -/
def freePasses (table : TransitionTable) (d : Direction) (frontier : StateSet) : Nat :=
  if table.hasZeroCost then (freeRounds table d frontier frontier).length + 1 else 0

/-- The loop over the free steps passes not more often than once for each state of the task, and
once. -/
theorem freePasses_le (task : Task) (d : Direction) (frontier : StateSet) :
    freePasses task.transitions d frontier ≤ task.states.size + 1 := by
  have hrounds : (freeRounds task.transitions d frontier frontier).length ≤ task.states.size := by
    refine (length_freeRounds_le task.transitions d frontier frontier).trans ?_
    exact StateSet.size_le_size fun s hs ↦
      Task.mem_states_of_mem_range (StateSet.mem_sdiff.mp hs).1
  rw [freePasses]
  split
  · exact Nat.succ_le_succ hrounds
  · exact Nat.zero_le _

/-! ## Sums of costs -/

/-- A sum, if it can be represented. -/
def Cost.checkedAdd? (a b : Int) : Option Int := if InRange (a + b) then some (a + b) else none

namespace Agenda

variable {agenda : Agenda} {rs : List Transition} {d : Direction} {horizon cost : Int}
  {layer : StateSet}

/-- Schedules what the paid relations reach from a layer closed at `cost`, cheapest first, and
leaves off at the first cost that cannot be represented or is beyond the horizon. -/
def scheduleChecked (agenda : Agenda) (d : Direction) (horizon cost : Int) (layer : StateSet) :
    List Transition → Agenda
  | [] => agenda
  | r :: rs =>
    match Cost.checkedAdd? cost r.action.cost with
    | none => agenda
    | some target =>
      if horizon < target then agenda
      else (agenda.schedule target (r.step d layer)).scheduleChecked d horizon cost layer rs

/-- Steps beyond the horizon are not scheduled. -/
theorem scheduleSteps_of_lt (h : ∀ r ∈ rs, horizon < cost + r.action.cost) :
    agenda.scheduleSteps rs d horizon cost layer = agenda := by
  rw [scheduleSteps]
  induction rs with
  | nil => rfl
  | cons r rs ih =>
    rw [List.foldl_cons, if_pos (h r List.mem_cons_self)]
    exact ih fun q hq ↦ h q (List.mem_cons_of_mem _ hq)

/-- Leaving off early loses nothing. -/
theorem scheduleChecked_eq (hrs : rs.Pairwise fun q r ↦ q.action.cost ≤ r.action.cost)
    (hcost : 0 ≤ cost) (hhorizon : horizon ≤ Cost.max) :
    agenda.scheduleChecked d horizon cost layer rs =
      agenda.scheduleSteps rs d horizon cost layer := by
  induction rs generalizing agenda with
  | nil => rfl
  | cons r rs ih =>
    obtain ⟨hr, hrs⟩ := List.pairwise_cons.mp hrs
    have hnonneg := r.action.cost_nonneg
    by_cases hlt : horizon < cost + r.action.cost
    -- Beyond the horizon: the relations that follow cost no less, so nothing more is scheduled
    -- either way.
    · have hall : ∀ q ∈ r :: rs, horizon < cost + q.action.cost := by
        intro q hq
        rcases List.mem_cons.mp hq with rfl | hq
        · exact hlt
        · exact Int.lt_of_lt_of_le hlt (Int.add_le_add_left (hr q hq) cost)
      rw [scheduleSteps_of_lt hall, scheduleChecked]
      split
      · rfl
      · next target htarget =>
        obtain ⟨-, ⟨⟩⟩ := Option.ite_none_right_eq_some.mp htarget
        exact if_pos hlt
    · have hrange : Cost.InRange (cost + r.action.cost) := by
        constructor
        · exact Int.le_trans (by decide) (Int.add_nonneg hcost hnonneg)
        · exact Int.le_trans (Int.not_lt.mp hlt) hhorizon
      rw [scheduleChecked, Cost.checkedAdd?, if_pos hrange]
      dsimp only
      rw [if_neg hlt, ih hrs, scheduleSteps, scheduleSteps, List.foldl_cons, if_neg hlt]

end Agenda

namespace LayerSearch

variable {task : Task} {d : Direction} {horizon : Int} {search : LayerSearch task d horizon}

/-- All costs with which a search has to do can be represented: those that wait, those that are
closed, and the one up to which all is final.  Closing a layer takes no sum that cannot be. -/
structure Computable (search : LayerSearch task d horizon) : Prop where
  waiting : ∀ e ∈ search.agenda.entries, Cost.InRange e.1
  closed : ∀ c ∈ search.closed.closedCosts, Cost.InRange c
  closedThrough : Cost.InRange search.closedThrough
  sums : ∀ k layer next, search.closeNext? = some ((k, layer), next) →
    ∃ frontier rest, search.agenda.popLeast? = some ((k, frontier), rest) ∧
      next.agenda = Agenda.scheduleChecked rest d horizon k layer task.transitions.paid

theorem Underway.computable (h : search.Underway) (hhorizon : horizon ≤ Cost.max) :
    search.Computable := by
  obtain ⟨done, hone, hle, hdone⟩ := h.exact
  have hrange : ∀ {c : Int}, -1 ≤ c → c ≤ horizon → Cost.InRange c := fun hlow hhigh ↦
    ⟨Int.le_trans (by decide) hlow, Int.le_trans hhigh hhorizon⟩
  have hlast := closedThrough_le_horizon search
  constructor
  case waiting =>
    intro e he
    exact hrange (Int.le_of_lt (Int.lt_of_le_of_lt hone (hdone.lt_waiting e he)))
      (search.agenda_le e he)
  case closed =>
    intro c hc
    obtain ⟨hnonneg, hc⟩ := h.bounds_of_mem_closedCosts hc
    exact hrange (Int.le_trans (by decide) hnonneg) (Int.le_trans hc hlast)
  case closedThrough =>
    exact hrange (Int.le_trans hone (hdone.le_closedThrough hle)) hlast
  case sums =>
    intro k layer next hclose
    obtain ⟨frontier, rest, hpop, -, hagenda, -⟩ := closeNext?_eq_some hclose
    have hascending : task.transitions.paid.Pairwise fun q r ↦ q.action.cost ≤ r.action.cost :=
      task.transitions.ascending.filter _
    refine ⟨frontier, rest, hpop, ?_⟩
    rw [hagenda, Agenda.scheduleChecked_eq hascending (h.bounds_of_closeNext? hclose).1 hhorizon]

end LayerSearch

end LayeredPlanning
