import LayeredPlanning.Domain.Task
import LayeredPlanning.Plans.Plan
import Mathlib.Algebra.Ring.Int.Defs
import Mathlib.Data.List.Nodup

/-!
# Paths

What a planning task means apart from any search: the paths along the edges of its relations, what
they cost, and which states they visit at which accumulated cost.

A path is a list of steps.  A step names its relation by the place in the table, so two relations
with the same action and the same edges still make different paths; `plan` forgets the place.

* `visits` lists the states of a path with the cost accumulated so far.  It starts with the first
  state and goes on with the `arrivals`; without the last state it is the list of `departures`.
* `exists_split_of_mem_visits` cuts a path at a visit, `exists_split_of_cost` at a cost.
-/

namespace LayeredPlanning

/-- One step of a path: a relation of the table, by its place, and the state to which it leads. -/
structure Step (table : TransitionTable) where
  place : Fin table.relations.length
  target : State
deriving DecidableEq

namespace Step

variable {table : TransitionTable}

def transition (e : Step table) : Transition := table.relationAt e.place

def action (e : Step table) : Action := e.transition.action

def cost (e : Step table) : Int := e.action.cost

theorem cost_nonneg (e : Step table) : 0 ≤ e.cost := e.action.cost_nonneg

theorem transition_mem (e : Step table) : e.transition ∈ table.relations :=
  table.relationAt_mem e.place

end Step

variable {table : TransitionTable}

/-- The steps lead from `s` to `t` along edges of their relations. -/
inductive Leads : State → List (Step table) → State → Prop where
  | nil (s : State) : Leads s [] s
  | cons {s t : State} {e : Step table} {es : List (Step table)} :
      e.transition.HasEdge s e.target → Leads e.target es t → Leads s (e :: es) t

namespace Leads

variable {s t u : State} {e : Step table} {es fs : List (Step table)}

@[simp] theorem nil_iff : Leads s ([] : List (Step table)) t ↔ s = t := by
  constructor
  · intro h
    cases h
    rfl
  · rintro rfl
    exact .nil s

@[simp] theorem cons_iff :
    Leads s (e :: es) t ↔ e.transition.HasEdge s e.target ∧ Leads e.target es t := by
  constructor
  · intro h
    cases h with
    | cons he h => exact ⟨he, h⟩
  · rintro ⟨he, h⟩
    exact .cons he h

theorem append (h : Leads s es t) (h' : Leads t fs u) : Leads s (es ++ fs) u := by
  induction h with
  | nil => exact h'
  | cons he _ ih => exact .cons he (ih h')

theorem append_iff : Leads s (es ++ fs) u ↔ ∃ t, Leads s es t ∧ Leads t fs u := by
  constructor
  · intro h
    induction es generalizing s with
    | nil => exact ⟨s, .nil s, h⟩
    | cons e es ih =>
      obtain ⟨he, h⟩ := cons_iff.mp h
      obtain ⟨t, ht, h⟩ := ih h
      exact ⟨t, .cons he ht, h⟩
  · rintro ⟨t, h, h'⟩
    exact h.append h'

/-- A path ends in one state. -/
theorem unique (h : Leads s es t) (h' : Leads s es u) : t = u := by
  induction h with
  | nil => exact nil_iff.mp h'
  | cons _ _ ih => exact ih (cons_iff.mp h').2

end Leads

/-! ## Costs -/

/-- What a path costs. -/
def pathCost (es : List (Step table)) : Int := (es.map Step.cost).sum

@[simp] theorem pathCost_nil : pathCost ([] : List (Step table)) = 0 := rfl

@[simp] theorem pathCost_cons (e : Step table) (es : List (Step table)) :
    pathCost (e :: es) = e.cost + pathCost es := by
  rw [pathCost, List.map_cons, List.sum_cons, pathCost]

@[simp] theorem pathCost_append (es fs : List (Step table)) :
    pathCost (es ++ fs) = pathCost es + pathCost fs := by
  rw [pathCost, List.map_append, List.sum_append, pathCost, pathCost]

theorem pathCost_concat (es : List (Step table)) (e : Step table) :
    pathCost (es ++ [e]) = pathCost es + e.cost := by
  rw [pathCost_append, pathCost_cons, pathCost_nil, Int.add_zero]

/-- A path costs what its actions cost. -/
theorem pathCost_eq_sum (es : List (Step table)) :
    pathCost es = ((es.map Step.action).map Action.cost).sum := by
  rw [List.map_map]
  rfl

theorem pathCost_nonneg (es : List (Step table)) : 0 ≤ pathCost es := by
  induction es with
  | nil => exact Int.le_refl 0
  | cons e es ih =>
    have := e.cost_nonneg
    rw [pathCost_cons]
    omega

/-! ## Visits -/

/-- The states to which the steps lead, with the cost accumulated from `c` on. -/
def arrivals (c : Int) : List (Step table) → List (State × Int)
  | [] => []
  | e :: es => (e.target, c + e.cost) :: arrivals (c + e.cost) es

/-- The states in which the steps are taken, with the cost accumulated from `c` on. -/
def departures (s : State) (c : Int) : List (Step table) → List (State × Int)
  | [] => []
  | e :: es => (s, c) :: departures e.target (c + e.cost) es

/-- All states of the path from `s`, with the cost accumulated from `c` on. -/
def visits (s : State) (c : Int) (es : List (Step table)) : List (State × Int) :=
  (s, c) :: arrivals c es

/-- All states of the path from `s`. -/
def pathStates (s : State) (es : List (Step table)) : List State := s :: es.map Step.target

section Visits

variable {s t u : State} {c d : Int} {e : Step table} {es fs : List (Step table)}

theorem length_pathStates (s : State) (es : List (Step table)) :
    (pathStates s es).length = es.length + 1 := by
  rw [pathStates, List.length_cons, List.length_map]

theorem pathStates_concat (s : State) (es : List (Step table)) (e : Step table) :
    pathStates s (es ++ [e]) = pathStates s es ++ [e.target] := by
  rw [pathStates, List.map_append]
  rfl

theorem visits_cons : visits s c (e :: es) = (s, c) :: visits e.target (c + e.cost) es := rfl

theorem arrivals_append (c : Int) (es fs : List (Step table)) :
    arrivals c (es ++ fs) = arrivals c es ++ arrivals (c + pathCost es) fs := by
  induction es generalizing c with
  | nil => simp [arrivals]
  | cons e es ih => simp [arrivals, ih, Int.add_assoc]

theorem visits_append (s : State) (c : Int) (es fs : List (Step table)) :
    visits s c (es ++ fs) = visits s c es ++ arrivals (c + pathCost es) fs := by
  rw [visits, arrivals_append]
  rfl

theorem visits_concat (s : State) (c : Int) (es : List (Step table)) (e : Step table) :
    visits s c (es ++ [e]) = visits s c es ++ [(e.target, c + pathCost es + e.cost)] :=
  visits_append s c es [e]

/-- A path departs from all states but the last. -/
theorem visits_eq_departures_append (h : Leads s es t) (c : Int) :
    visits s c es = departures s c es ++ [(t, c + pathCost es)] := by
  induction h generalizing c with
  | nil => simp [visits, arrivals, departures]
  | cons _ _ ih =>
    rw [visits_cons, ih, departures, pathCost_cons, List.cons_append, Int.add_assoc]

/-- Raising the cost of the first state raises all accumulated costs. -/
theorem arrivals_add (c d : Int) (es : List (Step table)) :
    arrivals (c + d) es = (arrivals c es).map fun v ↦ (v.1, v.2 + d) := by
  induction es generalizing c with
  | nil => rfl
  | cons e es ih =>
    rw [arrivals, Int.add_right_comm c d e.cost, ih]
    rfl

theorem visits_add (s : State) (c d : Int) (es : List (Step table)) :
    visits s (c + d) es = (visits s c es).map fun v ↦ (v.1, v.2 + d) := by
  rw [visits, arrivals_add]
  rfl

/-- Accumulated costs lie between the first and the last. -/
theorem cost_of_mem_arrivals {v : State × Int} (h : v ∈ arrivals c es) :
    c ≤ v.2 ∧ v.2 ≤ c + pathCost es := by
  induction es generalizing c with
  | nil => exact absurd h List.not_mem_nil
  | cons e es ih =>
    have he := e.cost_nonneg
    have hes := pathCost_nonneg es
    rw [pathCost_cons]
    rcases List.mem_cons.mp h with rfl | h
    · dsimp only
      omega
    · have := ih h
      omega

theorem cost_of_mem_visits {v : State × Int} (h : v ∈ visits s c es) :
    c ≤ v.2 ∧ v.2 ≤ c + pathCost es := by
  rcases List.mem_cons.mp h with rfl | h
  · exact ⟨Int.le_refl c, by have := pathCost_nonneg es; dsimp only; omega⟩
  · exact cost_of_mem_arrivals h

/-! ## Cutting paths -/

/-- A path can be cut at each of its visits. -/
theorem exists_split_of_mem_visits {v : State × Int} (h : Leads s es t)
    (hv : v ∈ visits s c es) :
    ∃ fs gs, es = fs ++ gs ∧ Leads s fs v.1 ∧ Leads v.1 gs t ∧ v.2 = c + pathCost fs := by
  induction h generalizing c with
  | nil s =>
    obtain rfl := List.mem_singleton.mp hv
    exact ⟨[], [], rfl, .nil s, .nil s, by simp⟩
  | @cons s t e es he h ih =>
    rcases List.mem_cons.mp hv with rfl | hv
    · exact ⟨[], e :: es, rfl, .nil s, .cons he h, by simp⟩
    · obtain ⟨fs, gs, rfl, hfs, hgs, hc⟩ := ih hv
      refine ⟨e :: fs, gs, rfl, .cons he hfs, hgs, ?_⟩
      rw [hc, pathCost_cons, Int.add_assoc]

/-- A path has a longest part that costs at most `d`; the step after it would cost more. -/
theorem exists_split_of_cost (es : List (Step table)) (hd : 0 ≤ d) :
    ∃ fs gs, es = fs ++ gs ∧ pathCost fs ≤ d ∧
      ∀ e rest, gs = e :: rest → d < pathCost fs + e.cost := by
  induction es generalizing d with
  | nil => exact ⟨[], [], rfl, hd, fun _ _ h ↦ nomatch h⟩
  | cons e es ih =>
    by_cases he : e.cost ≤ d
    · obtain ⟨fs, gs, rfl, hfs, hgs⟩ := ih (d := d - e.cost) (by omega)
      refine ⟨e :: fs, gs, rfl, ?_, ?_⟩
      · rw [pathCost_cons]
        omega
      · intro e' rest h
        have := hgs e' rest h
        rw [pathCost_cons]
        omega
    · refine ⟨[], e :: es, rfl, hd, ?_⟩
      intro e' rest h
      obtain rfl := (List.cons.inj h).1
      rw [pathCost_nil]
      omega

end Visits

/-! ## Plans of paths -/

/-- The plan that takes the steps from `s`. -/
def pathPlan (s : State) (es : List (Step table)) : Plan :=
  ⟨es.map Step.action, pathStates s es⟩

/-- One more step adds its action and its target. -/
theorem pathPlan_concat {table : TransitionTable} (s : State) (es : List (Step table))
    (e : Step table) :
    pathPlan s (es ++ [e]) =
      ⟨(pathPlan s es).actions ++ [e.action], (pathPlan s es).states ++ [e.target]⟩ := by
  rw [pathPlan, pathStates_concat, List.map_append]
  rfl

/-! ## Costs of plans -/

namespace Plan

theorem sum_costs_nonneg (actions : List Action) : 0 ≤ (actions.map Action.cost).sum := by
  induction actions with
  | nil => exact Int.le_refl 0
  | cons a actions ih =>
    rw [List.map_cons, List.sum_cons]
    exact Int.add_nonneg a.cost_nonneg ih

/-- The sum is exact, as long as it can be represented. -/
theorem cost_foldl_eq (actions : List Action) {c : Int} (hc : 0 ≤ c)
    (hmax : c + (actions.map Action.cost).sum ≤ Cost.max) :
    actions.foldl (fun total a ↦ Cost.satAdd total a.cost) c =
      c + (actions.map Action.cost).sum := by
  induction actions generalizing c with
  | nil => exact (Int.add_zero c).symm
  | cons a actions ih =>
    have ha := a.cost_nonneg
    have hrest := sum_costs_nonneg actions
    rw [List.map_cons, List.sum_cons] at hmax ⊢
    have hsum : Cost.satAdd c a.cost = c + a.cost := by
      apply Cost.saturate_of_inRange
      unfold Cost.InRange Cost.min
      omega
    rw [List.foldl_cons, hsum, ih (by omega) (by omega), Int.add_assoc]

theorem cost_eq_sum {plan : Plan} (h : (plan.actions.map Action.cost).sum ≤ Cost.max) :
    plan.cost = (plan.actions.map Action.cost).sum := by
  rw [cost, cost_foldl_eq plan.actions (Int.le_refl 0) (by rwa [Int.zero_add]), Int.zero_add]

end Plan

/-- The cost of the plan of a path is exact, as long as it can be represented. -/
theorem cost_pathPlan {table : TransitionTable} {es : List (Step table)} (s : State)
    (h : pathCost es ≤ Cost.max) : (pathPlan s es).cost = pathCost es := by
  have hsum : pathCost es = ((pathPlan s es).actions.map Action.cost).sum := pathCost_eq_sum es
  rw [hsum] at h ⊢
  exact Plan.cost_eq_sum h

end LayeredPlanning
