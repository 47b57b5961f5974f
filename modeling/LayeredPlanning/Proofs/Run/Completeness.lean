import LayeredPlanning.Proofs.Plans.Labels
import LayeredPlanning.Proofs.Run.Outcome

/-!
# Finished runs are complete

A run that closes all layers within the horizon without finding enough plans has found, up to its
lower bound, all there is: the action sequences of its plans are those of the eligible paths that
cost less.
-/

namespace LayeredPlanning

/-- The action sequences of a finished run are those of the eligible paths below its lower bound. -/
theorem mem_actions_of_finished {task : ExplicitTask} {policy : RunPolicy} {outcome : RunOutcome}
    (hcosts : task.toTask.LabelsDetermineCosts)
    (hhorizon : policy.maxCost ≤ (Cost.max - 2) / 2)
    (hrun : run task.toTask policy = .ok outcome)
    (hfinished : outcome.termination = .horizonExhausted ∨ outcome.termination = .noSolution)
    (hdistinct : task.toTask.Distinguishes policy.simpleOnly outcome.lowerBound)
    (actions : List Action) :
    actions ∈ outcome.plans.map (fun plan ↦ plan.actions) ↔
      ∃ es, task.toTask.Eligible policy.simpleOnly es ∧ pathCost es < outcome.lowerBound ∧
        es.map Step.action = actions := by
  obtain ⟨last, hplans, htermination, hsettled, hwishes⟩ :=
    settled_of_run task.lawful (Task.not_stalls hhorizon) hrun
  have hopen : last.registry.foundAll = false := by
    rw [← Bool.not_eq_true, ← Progress.exhausted_eq_foundAllPlans_iff, ← htermination]
    intro hall
    rw [hall] at hfinished
    rcases hfinished with h | h <;> cases h
  have hsimple : last.registry.store.simpleOnly = policy.simpleOnly :=
    congrArg (·.2.1) hwishes
  rw [hplans, ← hsimple]
  constructor
  · intro hactions
    obtain ⟨plan, hplan, rfl⟩ := List.mem_map.mp hactions
    obtain ⟨es, hes, rfl, hcost⟩ := hsettled.database.plan_of plan hplan
    exact ⟨es, hes, hcost ▸ hsettled.cost_lt _ hplan, rfl⟩
  · rintro ⟨es, hes, hlt, rfl⟩
    exact hsettled.database.mem_of_knows hcosts (hsimple ▸ hdistinct) hsettled.cost_lt hes hlt
      (hsettled.knowsBelow hopen es hes hlt)

/-- The plan of the cycle is found once, though two cuts lead to it, and there is no other. -/
theorem cycle_mem_actions_of_finished :
    ∃ outcome, run cycle.toTask { maxCost := 1, selection := .topK 2 } = .ok outcome ∧
      outcome.plans = [pathPlan (.single 0) [cycle.enter, cycle.turn (.single 2)]] ∧
        ∀ actions, actions ∈ outcome.plans.map (fun plan ↦ plan.actions) ↔
          ∃ es, cycle.toTask.Eligible false es ∧ pathCost es < outcome.lowerBound ∧
            es.map Step.action = actions := by
  obtain ⟨outcome, hrun, hvalue⟩ := exists_outcome_of_map
    (show (run cycle.toTask { maxCost := 1, selection := .topK 2 }).toOption.map
        (fun outcome ↦ (outcome.termination, outcome.plans)) =
          some (.horizonExhausted, [pathPlan (.single 0) [cycle.enter, cycle.turn (.single 2)]]) by
      decide +kernel)
  obtain ⟨htermination, hplans⟩ := Prod.mk.inj hvalue
  refine ⟨outcome, hrun, hplans, ?_⟩
  intro actions
  exact mem_actions_of_finished cycle.labelsDetermineCosts (by decide) hrun (.inl htermination)
    (cycle.distinguishes _ _) actions

end LayeredPlanning
