import LayeredPlanning.Proofs.Plans.Labels
import LayeredPlanning.Proofs.Run.NoSolution
import Mathlib.Order.Bounds.Basic

/-!
# Runs within a quality

A selection may ask for plans of at most some percentage of the optimal cost.  The database measures
costs by its first plan.  Since plans come in the order of their costs, that plan is an optimal one
(`PlanDatabase.Lawful.isLeast_of_optimalCost?`), so all plans are within the quality.

A database that is closed has refused the cost of a cut, and whatever costs less is known
(`CutRegistry.Refuses`).  So a run that is closed by the quality, before it has found as many plans
as it aimed for, has found all there are within it: `within_quality_of_run`.
-/

namespace LayeredPlanning

/-- The costs of the eligible paths. -/
def Task.eligibleCosts (task : Task) (simpleOnly : Bool) : Set Int :=
  {c | ∃ es, task.Eligible simpleOnly es ∧ pathCost es = c}

namespace PlanDatabase

variable {task : Task} {db : PlanDatabase} {best cost : Int} {count : Nat} {percent : UInt32}

/-- A cost is good enough if it is within the percentage of the cost of the first plan. -/
theorem withinQuality_iff (hselection : db.selection = .topQ count percent)
    (hbest : db.optimalCost? = some best) :
    db.withinQuality cost = true ↔ cost * 100 ≤ best * percent.toNat := by
  rw [withinQuality, hselection, hbest, Selection.admits, decide_eq_true_iff]

namespace Lawful

/-- The first plan is optimal. -/
theorem isLeast_of_optimalCost? (h : db.Lawful task) (hbest : db.optimalCost? = some best) :
    IsLeast (task.eligibleCosts db.simpleOnly) best := by
  refine ⟨?_, ?_⟩
  · have hfirst := hbest
    rw [h.optimalCost?, Option.map_eq_some_iff] at hfirst
    obtain ⟨first, hfirst, rfl⟩ := hfirst
    obtain ⟨es, hes, -, hcost⟩ := h.plan_of first (List.mem_of_mem_head? hfirst)
    exact ⟨es, hes, hcost.symm⟩
  · rintro _ ⟨es, hes, rfl⟩
    exact h.optimal best hbest es hes

/-- All plans are within the percentage of the optimal cost. -/
theorem cost_le (h : db.Lawful task) (hselection : db.selection = .topQ count percent)
    (hbest : db.optimalCost? = some best) {plan : Plan} (hplan : plan ∈ db.plans) :
    plan.cost * 100 ≤ best * percent.toNat :=
  (withinQuality_iff hselection hbest).mp (h.quality plan hplan)

/-- A database with plans has a cost to measure others by. -/
theorem exists_optimalCost? (h : db.Lawful task) (hplans : db.plans ≠ []) :
    ∃ best, db.optimalCost? = some best := by
  obtain ⟨first, rest, hfirst⟩ := List.exists_cons_of_ne_nil hplans
  exact ⟨first.cost, by rw [h.optimalCost?, hfirst]; rfl⟩

/-- No action sequence is taken twice. -/
theorem nodup_actions (h : db.Lawful task) : (db.plans.map fun plan ↦ plan.actions).Nodup := by
  refine List.Nodup.of_map (fun actions ↦ actions.map Action.label) ?_
  rw [List.map_map]
  exact h.nodup_labels

end Lawful

end PlanDatabase

/-- A registry whose database refuses a cost has all plans within the quality: the plans that cost
less than what is refused, and these are all within it. -/
theorem CutRegistry.Refuses.mem_actions_iff {task : Task} {bound best : Int} {count : Nat}
    {percent : UInt32} {registry : CutRegistry PlanDatabase} {event : CutEvent}
    (h : registry.Refuses task bound event) (hsettled : registry.Settled task bound)
    (hcosts : task.LabelsDetermineCosts)
    (hdistinct : task.Distinguishes registry.store.simpleOnly bound)
    (hselection : registry.store.selection = .topQ count percent)
    (hbest : registry.store.optimalCost? = some best) (actions : List Action) :
    actions ∈ registry.store.plans.map (fun plan ↦ plan.actions) ↔
      ∃ es, task.Eligible registry.store.simpleOnly es ∧
        pathCost es * 100 ≤ best * percent.toNat ∧ es.map Step.action = actions := by
  constructor
  · intro hactions
    obtain ⟨plan, hplan, rfl⟩ := List.mem_map.mp hactions
    have hquality := hsettled.database.cost_le hselection hbest hplan
    obtain ⟨es, hes, rfl, hcost⟩ := hsettled.database.plan_of plan hplan
    rw [hcost] at hquality
    exact ⟨es, hes, hquality, rfl⟩
  · rintro ⟨es, hes, hquality, rfl⟩
    have hrefused : best * percent.toNat < event.f * 100 := by
      rw [← Int.not_le, ← PlanDatabase.withinQuality_iff hselection hbest, h.quality]
      exact Bool.false_ne_true
    have hlt : pathCost es < event.f := by omega
    exact hsettled.database.mem_of_knows hcosts hdistinct hsettled.cost_lt hes (hlt.trans h.lt)
      (h.knowsBelow es hes hlt)

section Outcome

variable {task : ExplicitTask} {policy : RunPolicy} {outcome : RunOutcome}

/-- A run that has found a plan, or all it aimed for, has not stalled. -/
theorem not_stalls_of_run (hrun : run task.toTask policy = .ok outcome)
    (hfound : outcome.plans ≠ [] ∨ outcome.termination = .foundAllPlans) :
    ¬ task.toTask.Stalls policy := by
  intro hstalls
  have hnone := noSolution_of_stalls task.lawful hstalls hrun
  rcases hfound with hplans | hall
  · exact hplans (plans_eq_nil_of_noSolution hrun hnone)
  · rw [hnone] at hall
    cases hall

/-- The plans of a run are within the percentage of the optimal cost.  If a run ends with fewer
plans than it aimed for, though not for want of layers, it has found all action sequences within the
percentage, and the last event is that a cost beyond it was refused. -/
theorem within_quality_of_run {count : Nat} {percent : UInt32}
    (hselection : policy.selection = .topQ count percent)
    (hrun : run task.toTask policy = .ok outcome) :
    (outcome.plans ≠ [] →
      ∃ best, IsLeast (task.toTask.eligibleCosts policy.simpleOnly) best ∧
        ∀ plan ∈ outcome.plans, plan.cost * 100 ≤ best * percent.toNat) ∧
    (task.toTask.LabelsDetermineCosts →
      task.toTask.Distinguishes policy.simpleOnly outcome.lowerBound →
      outcome.termination = .foundAllPlans → outcome.plans.length < outcome.report.targetPlans →
      ∃ best, IsLeast (task.toTask.eligibleCosts policy.simpleOnly) best ∧
        (outcome.plans.map fun plan ↦ plan.actions).Nodup ∧
        (∀ actions, actions ∈ outcome.plans.map (fun plan ↦ plan.actions) ↔
          ∃ es, task.toTask.Eligible policy.simpleOnly es ∧
            pathCost es * 100 ≤ best * percent.toNat ∧ es.map Step.action = actions) ∧
        ∃ event, outcome.report.events.getLast? = some event ∧
          event.outcome = .outsideQualityBound ∧ best * percent.toNat < event.f * 100) := by
  have hregistry (hfound : outcome.plans ≠ [] ∨ outcome.termination = .foundAllPlans) :
      ∃ last : Progress, outcome = .ofLast outcome.termination last ∧
        outcome.termination = last.exhausted ∧
        last.registry.Settled task.toTask outcome.lowerBound ∧
        last.registry.store.selection = .topQ count percent ∧
        last.registry.store.simpleOnly = policy.simpleOnly := by
    obtain ⟨last, heq, htermination, hsettled, hwishes⟩ :=
      exists_settled_of_run task.lawful (not_stalls_of_run hrun hfound) hrun
    obtain ⟨hselection', hwishes⟩ := Prod.mk.inj hwishes
    exact ⟨last, heq, htermination, hsettled, hselection'.trans hselection,
      (Prod.mk.inj hwishes).1⟩
  constructor
  · intro hsome
    obtain ⟨last, heq, -, hsettled, hselection, hsimple⟩ := hregistry (.inl hsome)
    rw [heq] at hsome ⊢
    rw [← hsimple]
    obtain ⟨best, hbest⟩ := hsettled.database.exists_optimalCost? hsome
    exact ⟨best, hsettled.database.isLeast_of_optimalCost? hbest, fun plan hplan ↦
      hsettled.database.cost_le hselection hbest hplan⟩
  · intro hcosts hdistinct hfound hfew
    obtain ⟨last, heq, htermination, hsettled, hselection, hsimple⟩ := hregistry (.inr hfound)
    rw [htermination, Progress.exhausted_eq_foundAllPlans_iff] at hfound
    rw [heq] at hfew ⊢
    rw [← hsimple] at hdistinct ⊢
    have hclosed : last.registry.store.isClosed = true :=
      (hsettled.found_of_foundAll hfound).resolve_right (Nat.ne_of_lt hfew)
    obtain ⟨best, hbest⟩ :=
      hsettled.database.exists_optimalCost? (hsettled.database.plans_of_isClosed hclosed)
    obtain ⟨event, hrefuses⟩ := hsettled.refuses hclosed
    refine ⟨best, hsettled.database.isLeast_of_optimalCost? hbest,
      hsettled.database.nodup_actions,
      fun actions ↦ ?_, event, hrefuses.last, hrefuses.outcome, ?_⟩
    · exact hrefuses.mem_actions_iff hsettled hcosts hdistinct hselection hbest actions
    · rw [← Int.not_le, ← PlanDatabase.withinQuality_iff hselection hbest, hrefuses.quality]
      exact Bool.false_ne_true

end Outcome

/-! ## Two ways to the goal -/

/-- Two actions lead to the goal, and one costs more than the other. -/
def fork : ExplicitTask :=
  ((ExplicitTask.ofGoal "fork" (.single 0) (.single 1)).addEdges
      ⟨0, "go", 1, Int.one_nonneg⟩ [(.single 0, .single 1)]).addEdges
    ⟨1, "stroll", 2, by decide⟩ [(.single 0, .single 1)]

namespace fork

/-- The cheaper way. -/
def go : Step fork.toTask.transitions := ⟨⟨0, by decide +kernel⟩, .single 1⟩

/-- The other way. -/
def stroll : Step fork.toTask.transitions := ⟨⟨1, by decide +kernel⟩, .single 1⟩

theorem eq_of_hasEdge {e : Step fork.toTask.transitions} {s : State}
    (h : e.transition.HasEdge s e.target) : s = .single 0 ∧ (e = go ∨ e = stroll) := by
  obtain ⟨⟨k, hk⟩, t⟩ := e
  match k, hk with
  | 0, _ =>
    obtain ⟨rfl, rfl⟩ := Prod.mk.inj (List.mem_singleton.mp (Transition.hasEdge_ofEdges.mp h))
    exact ⟨rfl, .inl rfl⟩
  | 1, _ =>
    obtain ⟨rfl, rfl⟩ := Prod.mk.inj (List.mem_singleton.mp (Transition.hasEdge_ofEdges.mp h))
    exact ⟨rfl, .inr rfl⟩
  | k + 2, hk => exact absurd hk (Nat.not_lt.mpr (Nat.le_add_left 2 k))

/-- Every path to the goal takes one step. -/
theorem eq_of_eligible {simpleOnly : Bool} {es : List (Step fork.toTask.transitions)}
    (h : fork.toTask.Eligible simpleOnly es) : es = [go] ∨ es = [stroll] := by
  obtain ⟨t, hleads, hgoal⟩ := h.goal
  have ht : t = .single 1 := StateSet.mem_singleton.mp (ExplicitTask.isGoal_toTask.mp hgoal)
  change Leads (.single 0) es t at hleads
  subst ht
  cases hleads with
  | @cons _ _ e rest he hleads =>
    have hend : e.target = .single 1 := by
      rcases (eq_of_hasEdge he).2 with rfl | rfl <;> rfl
    cases rest with
    | nil => exact (eq_of_hasEdge he).2.imp (congrArg ([·])) (congrArg ([·]))
    | cons e' rest =>
      -- No step leaves the goal.
      have hstart := (eq_of_hasEdge (Leads.cons_iff.mp hleads).1).1
      rw [hend] at hstart
      cases hstart

theorem labelsDetermineCosts : fork.toTask.LabelsDetermineCosts := by
  unfold Task.LabelsDetermineCosts
  decide +kernel

theorem distinguishes (simpleOnly : Bool) (bound : Int) :
    fork.toTask.Distinguishes simpleOnly bound := by
  intro es fs hes hfs _ _ hsame
  have hdiffer : (pathPlan fork.toTask.initial [go]).fingerprint ≠
      (pathPlan fork.toTask.initial [stroll]).fingerprint := by decide +kernel
  rcases eq_of_eligible hes with rfl | rfl <;> rcases eq_of_eligible hfs with rfl | rfl
  · rfl
  · exact absurd hsame hdiffer
  · exact absurd hsame.symm hdiffer
  · rfl

end fork

/-- A run that wants two optimal plans finds one, and refuses the cost of the other way. -/
theorem fork_within_quality_of_run :
    ∃ outcome, run fork.toTask { maxCost := 5, selection := .topQ 2 100 } = .ok outcome ∧
      outcome.plans.length = 1 ∧
      ∃ best, IsLeast (fork.toTask.eligibleCosts false) best ∧
        ∀ actions, actions ∈ outcome.plans.map (fun plan ↦ plan.actions) ↔
          ∃ es, fork.toTask.Eligible false es ∧ pathCost es * 100 ≤ best * 100 ∧
            es.map Step.action = actions := by
  obtain ⟨outcome, hrun, hknown⟩ := exists_outcome_of_map
    (show (run fork.toTask { maxCost := 5, selection := .topQ 2 100 }).toOption.map
        (fun outcome ↦ (outcome.termination, outcome.plans.length, outcome.report.targetPlans)) =
      some (.foundAllPlans, 1, 2) by decide +kernel)
  obtain ⟨htermination, hknown⟩ := Prod.mk.inj hknown
  obtain ⟨hlength, htarget⟩ := Prod.mk.inj hknown
  obtain ⟨best, hbest, -, hactions, -⟩ :=
    (within_quality_of_run rfl hrun).2 fork.labelsDetermineCosts
      (fork.distinguishes _ _) htermination (by rw [hlength, htarget]; decide)
  exact ⟨outcome, hrun, hlength, best, hbest, hactions⟩

end LayeredPlanning
