import LayeredPlanning.Proofs.Run.NoSolution
import LayeredPlanning.Proofs.Samples.Walks

/-!
# Runs and brute force

A run on an edge world that closes all layers finds what the enumeration of the world finds below
the lower bound, each action sequence once: `EdgeWorld.plansUpTo_of_run`.
-/

namespace LayeredPlanning

/-- As long as plans are missing, the plans of a settled registry are those of the eligible paths
below the bound. -/
theorem CutRegistry.Settled.mem_actions_iff {task : Task} {bound : Int}
    {registry : CutRegistry PlanDatabase} (h : registry.Settled task bound)
    (hopen : registry.foundAll = false) (hcosts : task.LabelsDetermineCosts)
    (hdistinct : task.Distinguishes registry.store.simpleOnly bound) (actions : List Action) :
    actions ∈ registry.store.plans.map (fun plan ↦ plan.actions) ↔
      ∃ es, task.Eligible registry.store.simpleOnly es ∧ pathCost es < bound ∧
        es.map Step.action = actions := by
  constructor
  · intro hactions
    obtain ⟨plan, hplan, rfl⟩ := List.mem_map.mp hactions
    obtain ⟨es, hes, rfl, hcost⟩ := h.database.plan_of plan hplan
    exact ⟨es, hes, hcost ▸ h.cost_lt _ hplan, rfl⟩
  · rintro ⟨es, hes, hlt, rfl⟩
    exact h.database.mem_of_knows hcosts hdistinct h.cost_lt hes hlt (h.knowsBelow hopen es hes hlt)

namespace EdgeWorld

variable {world : EdgeWorld} {task : ExplicitTask}

namespace Builds

/-- The actions that lead to a goal are those of the eligible paths. -/
theorem solves_iff (h : world.Builds task) (hpositive : world.isPositive = true) {maxCost : Int}
    {ids : List UInt32} :
    world.Solves maxCost ids ↔ ∃ es, task.toTask.Eligible false es ∧
      pathCost es ≤ maxCost ∧ (es.map Step.action).map Action.id = ids := by
  have hinitial : task.toTask.initial = .single 0 := h.initial
  constructor
  · rintro ⟨c, t, hwalk, hgoal, hc⟩
    obtain ⟨es, hes, rfl, rfl⟩ := h.exists_leads hpositive hwalk
    have hgoals : task.toTask.isGoal (.single t) = true :=
      ExplicitTask.isGoal_toTask.mpr ((h.mem_goals_iff _).mpr ⟨t, hgoal, rfl⟩)
    exact ⟨es, ⟨⟨.single t, hinitial ▸ hes, hgoals⟩,
      h.levelSimple hpositive _ es, nofun⟩, hc, List.map_map⟩
  · rintro ⟨es, hes, hc, rfl⟩
    obtain ⟨s, hleads, hgoals⟩ := hes.goal
    rw [hinitial] at hleads
    obtain ⟨w, rfl, hwalk⟩ := h.walks_of_leads hleads
    obtain ⟨v, hgoal, hv⟩ := (h.mem_goals_iff _).mp (ExplicitTask.isGoal_toTask.mp hgoals)
    obtain rfl : w = v := by simpa [State.single] using hv
    rw [List.map_map]
    exact ⟨pathCost es, w, hwalk, hgoal, hc⟩

/-- Identifiers tell the action sequences of paths apart. -/
theorem actions_eq_of_ids (h : world.Builds task) (hlength : world.actions.length < 2 ^ 32)
    {es fs : List (Step task.toTask.transitions)}
    (hids : (es.map Step.action).map Action.id = (fs.map Step.action).map Action.id) :
    es.map Step.action = fs.map Step.action := by
  induction es generalizing fs with
  | nil => rw [List.map_eq_nil_iff.mp (List.map_eq_nil_iff.mp hids.symm)]
  | cons e es ih =>
    cases fs with
    | nil => cases hids
    | cons f fs =>
      obtain ⟨hid, hids⟩ := List.cons.inj hids
      rw [List.map_cons, List.map_cons, h.action_eq_of_id hlength hid, ih hids]

/-- No two plans have the same identifiers. -/
theorem nodup_actionIds (h : world.Builds task) (hlength : world.actions.length < 2 ^ 32)
    {db : PlanDatabase} (hlawful : db.Lawful task.toTask) :
    (db.plans.map Plan.actionIds).Nodup := by
  have hlabels := hlawful.nodup_labels
  rw [List.Nodup, List.pairwise_map] at hlabels ⊢
  refine hlabels.imp_of_mem fun {p q} hp hq hne hids ↦ hne ?_
  obtain ⟨es, -, rfl, -⟩ := hlawful.plan_of p hp
  obtain ⟨fs, -, rfl, -⟩ := hlawful.plan_of q hq
  rw [pathPlan, pathPlan, h.actions_eq_of_ids hlength hids]

/-- As long as plans are missing, the plans of a settled registry have the identifiers of the
sequences that lead to a goal below the bound. -/
theorem mem_actionIds_iff (h : world.Builds task) (hpositive : world.isPositive = true)
    (hlength : world.actions.length < 2 ^ 32) {bound : Int} {registry : CutRegistry PlanDatabase}
    (hsettled : registry.Settled task.toTask bound) (hopen : registry.foundAll = false)
    (hsimple : registry.store.simpleOnly = false)
    (hdistinct : task.toTask.Distinguishes false bound) (ids : List UInt32) :
    ids ∈ registry.store.plans.map Plan.actionIds ↔ world.Solves (bound - 1) ids := by
  have hactions := hsettled.mem_actions_iff hopen (h.labelsDetermineCosts hlength)
    (hsimple ▸ hdistinct)
  rw [hsimple] at hactions
  rw [h.solves_iff hpositive]
  constructor
  · intro hmem
    obtain ⟨plan, hplan, rfl⟩ := List.mem_map.mp hmem
    obtain ⟨es, hes, hlt, heq⟩ := (hactions plan.actions).mp (List.mem_map_of_mem hplan)
    exact ⟨es, hes, Int.le_sub_one_of_lt hlt, congrArg (List.map Action.id) heq⟩
  · rintro ⟨es, hes, hle, rfl⟩
    obtain ⟨plan, hplan, heq⟩ := List.mem_map.mp
      ((hactions (es.map Step.action)).mpr ⟨es, hes, Int.lt_of_le_sub_one hle, rfl⟩)
    exact List.mem_map.mpr ⟨plan, hplan, congrArg (List.map Action.id) heq⟩

end Builds

/-- If a run on a world whose actions all cost something ends without enough plans, the enumeration
up to the lower bound lists what the run has found, each action sequence once; and the run ends
without a solution exactly if the enumeration lists nothing. -/
theorem plansUpTo_of_run {policy : RunPolicy} {outcome : RunOutcome}
    (hpositive : world.isPositive = true) (hlength : world.actions.length < 2 ^ 32)
    (hsimple : policy.simpleOnly = false) (hhorizon : policy.maxCost ≤ (Cost.max - 2) / 2)
    (htask : world.toTask? = .ok task) (hrun : runWorld world.toTask? policy = .ok outcome)
    (hopen : outcome.termination ≠ .foundAllPlans) (hlower : 1 ≤ outcome.lowerBound)
    (hdistinct : task.toTask.Distinguishes false outcome.lowerBound)
    (hfit : world.SumsFit (outcome.lowerBound - 1)) :
    ∃ found, world.plansUpTo (outcome.lowerBound - 1) = .ok found ∧
      (outcome.plans.map Plan.actionIds).Nodup ∧
      (∀ ids, ids ∈ outcome.plans.map Plan.actionIds ↔ ids ∈ found) ∧
      (outcome.termination = .noSolution ↔ found = []) := by
  have hbuilds := builds_of_toTask? htask
  rw [htask] at hrun
  obtain ⟨last, hplans, htermination, hsettled, hwishes⟩ :=
    settled_of_run task.lawful (Task.not_stalls hhorizon) hrun
  have hall : last.registry.foundAll = false := by
    rw [← Bool.not_eq_true, ← Progress.exhausted_eq_foundAllPlans_iff, ← htermination]
    exact hopen
  have hstore : last.registry.store.simpleOnly = false := (congrArg (·.2.1) hwishes).trans hsimple
  have hids := hbuilds.mem_actionIds_iff hpositive hlength hsettled hall hstore hdistinct
  obtain ⟨found, hfound, hmem⟩ := exists_plansUpTo hpositive hfit (Int.sub_nonneg_of_le hlower)
  have hsame : ∀ ids, ids ∈ outcome.plans.map Plan.actionIds ↔ ids ∈ found := by
    intro ids
    rw [hplans, hmem]
    exact hids ids
  refine ⟨found, hfound,
    hplans ▸ hbuilds.nodup_actionIds hlength hsettled.database, hsame, ?_⟩
  rw [htermination, Progress.exhausted_eq_noSolution_iff, and_iff_right hall,
    List.eq_nil_iff_forall_not_mem]
  simp only [← hsame, hplans]
  rw [← List.eq_nil_iff_forall_not_mem, List.map_eq_nil_iff]
  exact List.length_eq_zero_iff

/-- The only action leads to the goal in two steps, or back after the first. -/
def backAndForth : EdgeWorld := ⟨3, [2], [⟨1, [(0, 1), (1, 0), (1, 2)]⟩]⟩

theorem sumsFit_backAndForth : backAndForth.SumsFit 2 := by
  intro ids c t _ hc a ha
  obtain rfl := List.mem_singleton.mp ha
  exact Int.le_trans (Int.add_le_add_right hc 1) (by decide)

/-- Below a cost of three the goal is reached in one way. -/
theorem Builds.distinguishes_backAndForth (h : backAndForth.Builds task) :
    task.toTask.Distinguishes false 3 := by
  have hfound : (backAndForth.plansUpTo 2).toOption = some [[0, 0]] := by decide +kernel
  obtain ⟨found, hlisted, hmem⟩ :=
    exists_plansUpTo (by decide) sumsFit_backAndForth (by decide)
  rw [hlisted] at hfound
  obtain rfl : found = [[0, 0]] := Option.some.inj hfound
  -- All paths below the bound have the identifiers of the only sequence that is enumerated.
  have hids : ∀ es, task.toTask.Eligible false es → pathCost es < 3 →
      (es.map Step.action).map Action.id = [0, 0] := fun es hes hlt ↦
    List.mem_singleton.mp ((hmem _).mpr
      ((h.solves_iff (by decide)).mpr ⟨es, hes, Int.le_of_lt_add_one hlt, rfl⟩))
  intro es fs hes hfs hlt hlt' _
  rw [h.actions_eq_of_ids (by decide) ((hids es hes hlt).trans (hids fs hfs hlt').symm)]

/-- A run that looks for five plans finds the only one below its lower bound. -/
theorem backAndForth_plansUpTo_of_run :
    ∃ outcome found,
      runWorld backAndForth.toTask? { maxCost := 1, selection := .topK 5 } = .ok outcome ∧
      outcome.termination = .horizonExhausted ∧
      backAndForth.plansUpTo (outcome.lowerBound - 1) = .ok found ∧ found ≠ [] ∧
      ∀ ids, ids ∈ outcome.plans.map Plan.actionIds ↔ ids ∈ found := by
  obtain ⟨outcome, hrun, hknown⟩ := exists_outcome_of_map
    (show (runWorld backAndForth.toTask? { maxCost := 1, selection := .topK 5 }).toOption.map
        (fun outcome ↦ (outcome.termination, outcome.lowerBound)) = some (.horizonExhausted, 3) by
      decide +kernel)
  obtain ⟨htermination, hlower⟩ := Prod.mk.inj hknown
  obtain ⟨task, htask⟩ : ∃ task, backAndForth.toTask? = .ok task := by
    cases hbuilt : backAndForth.toTask? with
    | error e =>
      rw [hbuilt] at hrun
      cases hrun
    | ok task => exact ⟨task, rfl⟩
  have hopen : outcome.termination ≠ .foundAllPlans := by
    rw [htermination]
    nofun
  have hdistinct := (builds_of_toTask? htask).distinguishes_backAndForth
  rw [← hlower] at hdistinct
  obtain ⟨found, hfound, -, hmem, hnone⟩ :=
    plansUpTo_of_run (by decide) (by decide) rfl (by decide) htask hrun hopen
      (by rw [hlower]; decide) hdistinct (by rw [hlower]; exact sumsFit_backAndForth)
  refine ⟨outcome, found, hrun, htermination, hfound, ?_, hmem⟩
  intro hnil
  rw [htermination] at hnone
  exact absurd (hnone.mpr hnil) (by decide)

end EdgeWorld

end LayeredPlanning
