import LayeredPlanning.Proofs.Plans.Labels
import LayeredPlanning.Proofs.Run.Outcome

/-!
# The plans of a run are optimal

However a run ends, its plans are cheapest ones, in order, each once.  Cuts come up in no order of
costs, and a cut may cost less than plans that are accepted already; but by then the bound under
which those were reconstructed has shown that the cut leads to known plans only.  This is the part
of `PlanDatabase.Lawful` that says what is known below the cost of a plan.
-/

namespace LayeredPlanning

/-- The plans are those of eligible paths, in order of cost, each once, and no eligible path with
other actions costs less than any of them. -/
structure RunOutcome.CheapestFirst (task : Task) (simpleOnly : Bool) (outcome : RunOutcome) :
    Prop where
  ordered : outcome.planCosts.Pairwise (· ≤ ·)
  distinct : (outcome.plans.map fun plan ↦ plan.actions.map Action.label).Nodup
  plan_of : ∀ plan ∈ outcome.plans, ∃ es, task.Eligible simpleOnly es ∧
    plan = pathPlan task.initial es ∧ plan.cost = pathCost es
  cheapest : ∀ es, task.Eligible simpleOnly es →
    es.map Step.action ∉ outcome.plans.map (fun plan ↦ plan.actions) →
    ∀ plan ∈ outcome.plans, plan.cost ≤ pathCost es

section Outcome

variable {task : ExplicitTask} {policy : RunPolicy} {outcome : RunOutcome}

/-- Settled registries hold cheapest plans. -/
theorem CutRegistry.Settled.cheapestFirst {registry : CutRegistry PlanDatabase} {bound : Int}
    (h : registry.Settled task.toTask bound) (hcosts : task.toTask.LabelsDetermineCosts)
    (hdistinct : task.toTask.Distinguishes registry.store.simpleOnly bound)
    (hplans : outcome.plans = registry.store.plans) :
    outcome.CheapestFirst task.toTask registry.store.simpleOnly := by
  constructor
  case ordered =>
    rw [RunOutcome.planCosts, hplans]
    exact List.pairwise_map.mpr h.database.ascending
  case distinct =>
    rw [hplans]
    exact h.database.nodup_labels
  case plan_of =>
    rw [hplans]
    exact h.database.plan_of
  case cheapest =>
    intro es hes hnew plan hplan
    rw [hplans] at hnew hplan
    by_contra hlt
    rw [Int.not_le] at hlt
    have hknown := h.database.knows_of_lt plan hplan es hes hlt
    have hbound := Int.lt_trans hlt (h.cost_lt plan hplan)
    exact hnew (h.database.mem_of_knows hcosts hdistinct h.cost_lt hes hbound hknown)

/-- A plan that is the only one is optimal. -/
theorem RunOutcome.CheapestFirst.optimal {task : Task} {simpleOnly : Bool}
    (h : outcome.CheapestFirst task simpleOnly) {plan : Plan} (hplans : outcome.plans = [plan])
    {es : List (Step task.transitions)} (hes : task.Eligible simpleOnly es) :
    plan.cost ≤ pathCost es := by
  have hplan : plan ∈ outcome.plans := hplans ▸ List.mem_singleton_self plan
  by_cases hmem : es.map Step.action ∈ outcome.plans.map (fun plan ↦ plan.actions)
  · obtain ⟨fs, -, hpath, hcost⟩ := h.plan_of plan hplan
    rw [hplans, List.map_singleton, List.mem_singleton, hpath] at hmem
    rw [hcost, Task.pathCost_eq_of_actions hmem]
  · exact h.cheapest es hes hmem plan hplan

/-- However a run ends, its plans are cheapest ones.  If it has found all plans that were wanted, it
has the wanted number of them, and if it was to find a single one, that one is optimal. -/
theorem cheapestFirst_of_run (hcosts : task.toTask.LabelsDetermineCosts)
    (hhorizon : policy.maxCost ≤ (Cost.max - 2) / 2)
    (hrun : run task.toTask policy = .ok outcome)
    (hdistinct : task.toTask.Distinguishes policy.simpleOnly outcome.lowerBound) :
    outcome.CheapestFirst task.toTask policy.simpleOnly ∧
      (∀ count, policy.selection = .topK count → policy.singleSolution = false →
        outcome.termination = .foundAllPlans → outcome.plans.length = count) ∧
      (policy.singleSolution = true →
        outcome.termination = .foundAllPlans ∧
            (∃ plan, outcome.plans = [plan] ∧
              ∀ es, task.toTask.Eligible policy.simpleOnly es → plan.cost ≤ pathCost es) ∨
          outcome.termination = .noSolution ∧ outcome.plans = []) := by
  obtain ⟨last, hplans, htermination, hsettled, hwishes⟩ :=
    settled_of_run task.lawful (Task.not_stalls hhorizon) hrun
  obtain ⟨hselection, hwishes⟩ := Prod.mk.inj hwishes
  obtain ⟨hsimple, hsingle⟩ := Prod.mk.inj hwishes
  rw [← hsimple] at hdistinct
  have hfirst := hsettled.cheapestFirst hcosts hdistinct hplans
  rw [hsimple] at hfirst
  have hlength : outcome.plans.length = last.registry.found := congrArg List.length hplans
  have htarget : last.registry.target =
      targetPlans policy.singleSolution policy.selection.count := by
    rw [← hselection, ← hsingle]
    rfl
  rw [htermination, Progress.exhausted_eq_foundAllPlans_iff]
  refine ⟨hfirst, ?_, ?_⟩
  · intro count htopK hmany hall
    rw [hlength]
    rcases hsettled.found_of_foundAll hall with hclosed | hfound
    · rw [hsettled.database.isClosed_topK count (hselection.trans htopK)] at hclosed
      cases hclosed
    · rw [hfound, htarget, hmany, htopK]
      rfl
  · intro hone
    have hmost : last.registry.target ≤ 1 := by
      rw [htarget, hone]
      exact Nat.min_le_right _ _
    cases hall : last.registry.foundAll with
    | true =>
      have hfound := hsettled.found_pos hall
      have hle := hsettled.found_le
      obtain ⟨plan, hplan⟩ := List.length_eq_one_iff.mp (show outcome.plans.length = 1 by omega)
      exact .inl ⟨rfl, plan, hplan, fun es hes ↦ hfirst.optimal hplan hes⟩
    | false =>
      have hlt := (CutRegistry.foundAll_eq_false_iff.mp hall).2
      have hzero : last.registry.found = 0 := by omega
      exact .inr ⟨Progress.exhausted_eq_noSolution_iff.mpr ⟨hall, hzero⟩,
        List.length_eq_zero_iff.mp (hlength.trans hzero)⟩

/-- The single plan of the cycle is optimal. -/
theorem cycle_cheapestFirst_of_run :
    ∃ outcome, run cycle.toTask { maxCost := 1, selection := .topK 2, singleSolution := true } =
        .ok outcome ∧
      outcome.CheapestFirst cycle.toTask false ∧ ∃ plan, outcome.plans = [plan] ∧
        ∀ es, cycle.toTask.Eligible false es → plan.cost ≤ pathCost es := by
  obtain ⟨outcome, hrun, htermination⟩ := exists_outcome_of_map
    (show (run cycle.toTask
        { maxCost := 1, selection := .topK 2, singleSolution := true }).toOption.map
        (fun outcome ↦ outcome.termination) = some .foundAllPlans by decide +kernel)
  obtain ⟨hfirst, -, hsingle⟩ :=
    cheapestFirst_of_run cycle.labelsDetermineCosts (by decide) hrun (cycle.distinguishes _ _)
  rcases hsingle rfl with ⟨-, hplan⟩ | ⟨hnone, -⟩
  · exact ⟨outcome, hrun, hfirst, hplan⟩
  · rw [htermination] at hnone
    cases hnone

end Outcome

end LayeredPlanning
