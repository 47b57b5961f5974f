import LayeredPlanning.Proofs.Run.Outcome

/-!
# Runs without a solution

A run that ends without a plan says so (`Termination.noSolution`).  What this means is a matter of
the bound with which runs end, not of the horizon: it means that no path to a goal costs less than
`RunPolicy.finalBound`.  From one end that is every path within the horizon.  From both ends the
bound is lower by the largest action cost of the table, be the action of use or not; so an action
that costs more than the horizon can keep a run from its plans.

A run that stalls never gets as far as that: it ends without a plan whatever there is.
-/

namespace LayeredPlanning

/-- The bound with which a run ends that has closed all layers. -/
def RunPolicy.finalBound (policy : RunPolicy) (maxActionCost : Int) : Int :=
  match policy.mode with
  | .bidirectional =>
    Cost.satSub (Cost.satAdd (Cost.satAdd policy.maxCost policy.maxCost) 2) maxActionCost
  | _ => Cost.satAdd policy.maxCost 1

namespace Cost

theorem satAdd_le_satAdd {a a' b b' : Int} (h : a ≤ a') (h' : b ≤ b') :
    satAdd a b ≤ satAdd a' b' := by
  grind [satAdd, saturate, min, max]

theorem satSub_le_satSub {a a' m : Int} (h : a ≤ a') : satSub a m ≤ satSub a' m := by
  grind [satSub, saturate, min, max]

theorem satAdd_eq_max {a b : Int} (h : max ≤ a + b + 2) : satAdd (satAdd a b) 2 = max := by
  grind [satAdd, saturate, min, max]

theorem lt_satAdd_one {c : Int} (h : c < max) : c < satAdd c 1 := by
  grind [satAdd, saturate, min, max]

theorem lt_satSub_of_le {c m : Int} (hc : 0 ≤ c) (hm : 0 ≤ m) (hle : m ≤ c + 1)
    (hsum : c + m < max) : c < satSub (satAdd (satAdd c c) 2) m := by
  grind [satAdd, satSub, saturate, min, max]

end Cost

variable {task : Task} {horizon : Int}

/-! ## The last bound -/

namespace Frontiers

variable {frontiers next : Frontiers task horizon} {cuts : List Cut} {mode : SearchMode}

/-- There is a search in each direction that the mode uses, and no other. -/
structure Serves (frontiers : Frontiers task horizon) (mode : SearchMode) : Prop where
  forward : frontiers.forward?.isSome = mode.uses .forward
  backward : frontiers.backward?.isSome = mode.uses .backward

theorem serves_start (task : Task) (policy : RunPolicy) :
    (Frontiers.start task policy).Serves policy.mode := by
  rcases start_cases task policy with ⟨hmode, heq⟩ | ⟨hmode, heq⟩ | ⟨hmode, heq⟩
  · rw [hmode, heq]
    exact ⟨rfl, rfl⟩
  · rw [hmode, heq]
    exact ⟨rfl, rfl⟩
  · rw [hmode, heq]
    exact ⟨rfl, rfl⟩

theorem Serves.closeNext (h : frontiers.Serves mode)
    (hclose : frontiers.closeNext? = some (cuts, next)) : next.Serves mode := by
  rcases closeNext?_eq_some hclose with
    ⟨search, k, layer, search', _, hsearch, _, _, rfl⟩ |
    ⟨search, k, layer, search', _, hsearch, _, _, rfl⟩
  · refine ⟨?_, h.backward⟩
    rw [← h.forward, hsearch]
    rfl
  · refine ⟨h.forward, ?_⟩
    rw [← h.backward, hsearch]
    rfl

theorem Serves.cases (h : frontiers.Serves mode) :
    (mode = .forward ∧ ∃ f, frontiers.forward? = some f ∧ frontiers.backward? = none) ∨
    (mode = .backward ∧ ∃ b, frontiers.forward? = none ∧ frontiers.backward? = some b) ∨
    (mode = .bidirectional ∧
      ∃ f b, frontiers.forward? = some f ∧ frontiers.backward? = some b) := by
  obtain ⟨hforward, hbackward⟩ := h
  cases mode with
  | forward =>
    obtain ⟨f, hf⟩ := Option.isSome_iff_exists.mp hforward
    have hb := Option.isNone_iff_eq_none.mp (Option.isSome_eq_false_iff.mp hbackward)
    exact .inl ⟨rfl, f, hf, hb⟩
  | backward =>
    obtain ⟨b, hb⟩ := Option.isSome_iff_exists.mp hbackward
    have hf := Option.isNone_iff_eq_none.mp (Option.isSome_eq_false_iff.mp hforward)
    exact .inr (.inl ⟨rfl, b, hf, hb⟩)
  | bidirectional =>
    obtain ⟨f, hf⟩ := Option.isSome_iff_exists.mp hforward
    obtain ⟨b, hb⟩ := Option.isSome_iff_exists.mp hbackward
    exact .inr (.inr ⟨rfl, f, b, hf, hb⟩)

/-- No bound is above the last one. -/
theorem Serves.provenBound_le {policy : RunPolicy} {frontiers : Frontiers task policy.maxCost}
    (h : frontiers.Serves policy.mode) (most : Int) :
    frontiers.provenBound most ≤ policy.finalBound most := by
  rw [RunPolicy.finalBound]
  rcases h.cases with ⟨hmode, f, hf, hb⟩ | ⟨hmode, b, hf, hb⟩ | ⟨hmode, f, b, hf, hb⟩
  · rw [hmode, provenBound, hf, hb]
    exact Cost.satAdd_le_satAdd f.closedThrough_le_horizon (Int.le_refl 1)
  · rw [hmode, provenBound, hf, hb]
    exact Cost.satAdd_le_satAdd b.closedThrough_le_horizon (Int.le_refl 1)
  · rw [hmode, provenBound_of_both hf hb]
    exact Cost.satSub_le_satSub (Cost.satAdd_le_satAdd
      (Cost.satAdd_le_satAdd f.closedThrough_le_horizon b.closedThrough_le_horizon) (Int.le_refl 2))

/-- Once no layer is left, the bound is the last one. -/
theorem Serves.provenBound_eq {policy : RunPolicy} {frontiers : Frontiers task policy.maxCost}
    (h : frontiers.Serves policy.mode) (hclose : frontiers.closeNext? = none) (most : Int) :
    frontiers.provenBound most = policy.finalBound most := by
  obtain ⟨hforward, hbackward⟩ := closeNext?_eq_none hclose
  have hthrough : ∀ {d : Direction} {search : LayerSearch task d policy.maxCost},
      (some search).bind (·.nextCost?) = none → search.closedThrough = policy.maxCost := by
    intro d search hnone
    rw [LayerSearch.closedThrough, show search.nextCost? = none from hnone]
  rw [RunPolicy.finalBound]
  rcases h.cases with ⟨hmode, f, hf, hb⟩ | ⟨hmode, b, hf, hb⟩ | ⟨hmode, f, b, hf, hb⟩
  · rw [hf] at hforward
    rw [hmode, provenBound, hf, hb, Option.map_some, hthrough hforward]
    rfl
  · rw [hb] at hbackward
    rw [hmode, provenBound, hf, hb, Option.map_some, hthrough hbackward]
    rfl
  · rw [hf] at hforward
    rw [hb] at hbackward
    rw [hmode, provenBound_of_both hf hb, hthrough hforward, hthrough hbackward]

end Frontiers

section Run

variable {policy : RunPolicy} {progress last : Progress} {termination : Termination}
  {outcome : RunOutcome}

/-- A run never raises its bound above the last one, and raises it as far if it closes all
layers. -/
theorem lowerBound_of_run (h : run task policy = .ok outcome) :
    (outcome.lowerBound = 0 ∨ outcome.lowerBound ≤ policy.finalBound task.maxActionCost) ∧
      (outcome.termination = .foundAllPlans ∨
        policy.finalBound task.maxActionCost ≤ outcome.lowerBound) := by
  obtain ⟨-, database, last, -, hrun, -, hlower⟩ := run_eq_ok h
  rw [hlower]
  have hraised : ∀ {frontiers : Frontiers task policy.maxCost} {progress raised : Progress},
      frontiers.Serves policy.mode →
      (progress.lowerBound = 0 ∨ progress.lowerBound ≤ policy.finalBound task.maxActionCost) →
      progress.raiseBound (frontiers.provenBound task.maxActionCost) frontiers.view = .ok raised →
      raised.lowerBound = 0 ∨ raised.lowerBound ≤ policy.finalBound task.maxActionCost := by
    intro frontiers progress raised hserves hbound hraise
    rcases Progress.raiseBound_eq_ok hraise with ⟨_, rfl⟩ | ⟨_, _, _, heq⟩
    · exact hbound
    · rw [heq]
      exact .inr (hserves.provenBound_le _)
  have hturns := runFrom_induction (P := fun frontiers progress ↦ frontiers.Serves policy.mode ∧
    (progress.lowerBound = 0 ∨ progress.lowerBound ≤ policy.finalBound task.maxActionCost))
    (fun frontiers progress cuts next registered raised hinv _ hclose hregister hraise ↦ ?_)
    ⟨Frontiers.serves_start task policy, .inl rfl⟩ hrun
  · rcases hturns with ⟨hall, _, _, _, hbound⟩ |
      ⟨_, frontiers, progress, ⟨hserves, hbound⟩, hopen, hclose, hraise⟩
    · exact ⟨hbound, .inl hall⟩
    · refine ⟨hraised hserves hbound hraise, .inr ?_⟩
      rw [hserves.provenBound_eq hclose] at hraise
      rw [Progress.lowerBound_raiseBound hopen hraise]
      exact le_max_right _ _
  · obtain ⟨hserves, hbound⟩ := hinv
    have hserves' := hserves.closeNext hclose
    rw [← (Progress.queued_registerCuts hregister).lowerBound] at hbound
    exact ⟨hserves', hraised hserves' hbound hraise⟩

/-! ## Runs that stall -/

/-- The search from the initial state is at its end, no plan is found, and the bound is as high as
it gets. -/
structure Progress.Stalled (frontiers : Frontiers task horizon) (progress : Progress) : Prop where
  exact : frontiers.Exact
  searches : ∃ f b, frontiers.forward? = some f ∧
    f.nextCost? = none ∧ frontiers.backward? = some b
  plans : progress.plans = []
  foundAll : progress.registry.foundAll = false
  lowerBound : Cost.satSub Cost.max task.maxActionCost ≤ progress.lowerBound

theorem LayerSearch.Exact.neg_one_le_closedThrough {d : Direction}
    {search : LayerSearch task d horizon} {done : Int} (h : search.Exact done) (hone : -1 ≤ done)
    (hhorizon : 0 ≤ horizon) : -1 ≤ search.closedThrough := by
  rw [closedThrough]
  split
  · next k hk =>
    have hlt := (h.exists_entered hk).1
    omega
  · omega

/-- What the two searches have closed adds up, with the two of the bound, to the largest cost or
more. -/
def Frontiers.Saturated (frontiers : Frontiers task horizon) : Prop :=
  ∃ f b, frontiers.forward? = some f ∧ frontiers.backward? = some b ∧
    Cost.max ≤ f.closedThrough + b.closedThrough + 2

theorem Frontiers.Saturated.provenBound_eq {frontiers : Frontiers task horizon}
    (h : frontiers.Saturated) (most : Int) :
    frontiers.provenBound most = Cost.satSub Cost.max most := by
  obtain ⟨f, b, hf, hb, hsum⟩ := h
  rw [provenBound_of_both hf hb, Cost.satAdd_eq_max hsum]

theorem Frontiers.provenBound_of_stalled {frontiers : Frontiers task horizon}
    {f : LayerSearch task .forward horizon} {b : LayerSearch task .backward horizon}
    (hexact : frontiers.Exact) (hf : frontiers.forward? = some f) (hnone : f.nextCost? = none)
    (hb : frontiers.backward? = some b) (hfar : Cost.max - 1 ≤ horizon) (most : Int) :
    frontiers.provenBound most = Cost.satSub Cost.max most := by
  obtain ⟨done, hone, hdone⟩ := hexact.backward b hb
  have hthrough : f.closedThrough = horizon := by
    rw [LayerSearch.closedThrough, hnone]
  have hhorizon : 0 ≤ horizon := Int.le_trans (by decide) hfar
  have hback := hdone.neg_one_le_closedThrough hone hhorizon
  exact Saturated.provenBound_eq ⟨f, b, hf, hb, by omega⟩ most

/-- A run that is to stall and has no plan after its opening finds none. -/
theorem noSolution_of_stalled {frontiers : Frontiers task horizon} (hfar : Cost.max - 1 ≤ horizon)
    (hstalled : progress.Stalled frontiers)
    (h : runFrom frontiers progress = .ok (termination, last)) : termination = .noSolution := by
  have hidle : ∀ {frontiers : Frontiers task horizon} {progress raised : Progress},
      progress.Stalled frontiers →
      progress.raiseBound (frontiers.provenBound task.maxActionCost) frontiers.view = .ok raised →
      raised = progress := by
    intro frontiers progress raised hstalled hraise
    obtain ⟨f, b, hf, hnone, hb⟩ := hstalled.searches
    rw [Frontiers.provenBound_of_stalled hstalled.exact hf hnone hb hfar] at hraise
    rcases Progress.raiseBound_eq_ok hraise with ⟨_, heq⟩ | ⟨hlt, _⟩
    · exact heq
    · exact absurd hstalled.lowerBound (Int.not_le.mpr hlt)
  have hturns := runFrom_induction (P := fun frontiers progress ↦ progress.Stalled frontiers)
    (fun frontiers progress cuts next registered raised hstalled _ hclose hregister hraise ↦ ?_)
    hstalled h
  · rcases hturns with ⟨_, hall, _, hlast⟩ |
      ⟨rfl, frontiers, progress, hlast, _, _, hraise⟩
    · rw [hlast.foundAll] at hall
      cases hall
    · obtain rfl := hidle hlast hraise
      have hzero : last.registry.found = 0 := congrArg List.length hlast.plans
      exact Progress.exhausted_eq_noSolution_iff.mpr ⟨hlast.foundAll, hzero⟩
  · have hnext : registered.Stalled next := by
      obtain ⟨f, b, hf, hnone, hb⟩ := hstalled.searches
      refine ⟨hstalled.exact.closeNext hclose, ?_, ?_, ?_, ?_⟩
      · rcases Frontiers.closeNext?_eq_some hclose with
          ⟨search, _, _, _, _, hsearch, hnext, _⟩ | ⟨_, _, _, search', _, _, _, _, rfl⟩
        · obtain rfl := Option.some.inj (hf.symm.trans hsearch)
          rw [LayerSearch.closeNext?_eq_none_iff.mpr hnone] at hnext
          cases hnext
        · exact ⟨f, search', hf, hnone, rfl⟩
      · exact (Progress.queued_registerCuts hregister).plans.trans hstalled.plans
      · exact (Progress.queued_registerCuts hregister).foundAll.trans hstalled.foundAll
      · rw [(Progress.queued_registerCuts hregister).lowerBound]
        exact hstalled.lowerBound
    obtain rfl := hidle hnext hraise
    exact hnext

/-- A run that stalls finds no plan. -/
theorem noSolution_of_stalls (hlawful : task.Lawful) (hstalls : task.Stalls policy)
    (h : run task policy = .ok outcome) : outcome.termination = .noSolution := by
  obtain ⟨hpolicy, database, last, hdatabase, hrun, -⟩ := run_eq_ok h
  obtain ⟨hmode, hfar, hconfined⟩ := hstalls
  obtain ⟨next, raised, hexact, hrest, ⟨hother, -⟩ |
    ⟨-, hopening, -, hplans, hopen, hlower⟩⟩ :=
      runFrom_start_eq_ok hlawful hpolicy hdatabase hrun
  · exact absurd hmode hother
  · have hnone := hopening.nextCost?_eq_none_iff.mpr hconfined
    obtain ⟨f, b, hf, hb, -⟩ := hopening
    rw [hf, Option.bind_some] at hnone
    refine noSolution_of_stalled hfar
      ⟨hexact, ⟨f, b, hf, hnone, hb⟩, hplans, hopen, ?_⟩ hrest
    rw [hlower, Frontiers.provenBound_of_stalled hexact hf hnone hb hfar]
    exact le_max_right _ _

/-- A run that ends without a solution has no plan. -/
theorem plans_eq_nil_of_noSolution (h : run task policy = .ok outcome)
    (hnone : outcome.termination = .noSolution) : outcome.plans = [] := by
  obtain ⟨-, database, last, -, hrun, heq⟩ := exists_last_of_run h
  rcases runFrom_induction (P := fun _ _ ↦ True)
      (fun _ _ _ _ _ _ _ _ _ _ _ ↦ trivial) trivial hrun with
    ⟨hfound, -⟩ | ⟨hexhausted, -⟩
  · rw [hnone] at hfound
    cases hfound
  · have hzero := (Progress.exhausted_eq_noSolution_iff.mp (hexhausted.symm.trans hnone)).2
    rw [heq]
    exact List.length_eq_zero_iff.mp hzero

/-- A run ends without a solution exactly if it stalls, or no path to a goal costs less than the
last bound. -/
theorem noSolution_iff_of_run (hlawful : task.Lawful) (hsimple : policy.simpleOnly = false)
    (h : run task policy = .ok outcome) :
    outcome.termination = .noSolution ↔
      task.Stalls policy ∨ ∀ (es : List (Step task.transitions)) (t : State),
        Leads task.initial es t → t ∈ task.goals →
          policy.finalBound task.maxActionCost ≤ pathCost es := by
  by_cases hstalls : task.Stalls policy
  · exact iff_of_true (noSolution_of_stalls hlawful hstalls h) (.inl hstalls)
  obtain ⟨last, hplans, htermination, hsettled, hwishes⟩ := settled_of_run hlawful hstalls h
  obtain ⟨hle, hreach⟩ := lowerBound_of_run h
  have hall : last.registry.store.simpleOnly = false :=
    (congrArg (·.2.1) hwishes).trans hsimple
  rw [or_iff_right hstalls]
  constructor
  · intro hnone es t hes ht
    have hbound := hreach.resolve_left fun hfound ↦ by
      rw [hnone] at hfound
      cases hfound
    obtain ⟨hopen, hzero⟩ :=
      Progress.exhausted_eq_noSolution_iff.mp (htermination.symm.trans hnone)
    by_contra hlt
    -- A cheaper path is known from an eligible one of the same cost, though there is no plan.
    obtain ⟨fs, hfs, hcost, hlevel⟩ := exists_levelSimple hes
    have heligible : task.Eligible last.registry.store.simpleOnly fs := by
      refine ⟨⟨t, hfs, (hlawful.isGoal_iff t).mpr ht⟩, hlevel, ?_⟩
      rw [hall]
      nofun
    have hknown := hsettled.knowsBelow hopen fs heligible (by omega)
    obtain ⟨plan, hplan, -⟩ := hsettled.database.exists_plan_of_knows hknown
    exact absurd hzero (List.length_pos_of_mem hplan).ne'
  · intro hdear
    have hnone : last.registry.store.plans = [] := by
      apply List.eq_nil_iff_forall_not_mem.mpr
      intro plan hplan
      obtain ⟨es, ⟨⟨t, hes, ht⟩, -, -⟩, -, hcost⟩ :=
        hsettled.database.plan_of plan hplan
      have hlt := hsettled.cost_lt plan hplan
      have hge := hdear es t hes ((hlawful.isGoal_iff t).mp ht)
      have hes := pathCost_nonneg es
      omega
    have hzero : last.registry.found = 0 := congrArg List.length hnone
    have hopen : last.registry.foundAll = false := by
      by_contra hfound
      exact absurd hzero (hsettled.found_pos (Bool.not_eq_false _ ▸ hfound)).ne'
    rw [htermination]
    exact Progress.exhausted_eq_noSolution_iff.mpr ⟨hopen, hzero⟩

/-- The last bound is above the horizon in a run from one end, and in a run from both ends as long
as no action costs more than the horizon and one. -/
theorem RunPolicy.lt_finalBound (hpolicy : 0 ≤ policy.maxCost) (hfar : policy.maxCost < Cost.max)
    {most : Int} (hzero : 0 ≤ most) (hmost : policy.mode = .bidirectional →
      most ≤ policy.maxCost + 1 ∧ policy.maxCost + most < Cost.max) :
    policy.maxCost < policy.finalBound most := by
  rw [finalBound]
  cases hmode : policy.mode with
  | forward => exact Cost.lt_satAdd_one hfar
  | backward => exact Cost.lt_satAdd_one hfar
  | bidirectional =>
    obtain ⟨hnear, hsum⟩ := hmost hmode
    exact Cost.lt_satSub_of_le hpolicy hzero hnear hsum

/-- What it means that a run ends without a solution: it stalls, or no path to a goal costs less
than the last bound.  So there is no path within the horizon unless the bound stays below that,
which takes a search from both ends and an action that costs more than the horizon and one. -/
theorem noSolution_of_run {task : ExplicitTask} (hsimple : policy.simpleOnly = false)
    (hrun : run task.toTask policy = .ok outcome) :
    (outcome.termination = .noSolution ↔
      task.toTask.Stalls policy ∨ ∀ (es : List (Step task.transitions)) (t : State),
        Leads task.initial es t → t ∈ task.goals →
          policy.finalBound task.toTask.maxActionCost ≤ pathCost es) ∧
    (policy.maxCost < Cost.max →
      (policy.mode = .bidirectional → task.toTask.maxActionCost ≤ policy.maxCost + 1 ∧
        policy.maxCost + task.toTask.maxActionCost < Cost.max) →
      outcome.termination = .noSolution →
      ∀ (es : List (Step task.transitions)) (t : State),
        Leads task.initial es t → t ∈ task.goals → policy.maxCost < pathCost es) := by
  have hiff := noSolution_iff_of_run task.lawful hsimple hrun
  refine ⟨hiff, ?_⟩
  intro hfar hmost hnone es t hes ht
  obtain ⟨hpolicy, -⟩ := run_eq_ok hrun
  have hone := task.toTask.one_le_maxActionCost
  have hbound := RunPolicy.lt_finalBound hpolicy hfar (Int.le_of_lt hone) hmost
  rcases hiff.mp hnone with ⟨hmode, hlarge, -⟩ | hall
  · have hsum := (hmost hmode).2
    omega
  · exact Int.lt_of_lt_of_le hbound (hall es t hes ht)

/-- The cycle has no plan that costs nothing. -/
theorem cycle_noSolution_of_run :
    ∃ outcome, run cycle.toTask { maxCost := 0 } = .ok outcome ∧
      outcome.termination = .noSolution ∧
        ∀ (es : List (Step cycle.transitions)) (t : State),
          Leads cycle.initial es t → t ∈ cycle.goals → 0 < pathCost es := by
  obtain ⟨outcome, hrun, htermination⟩ := exists_outcome_of_map
    (show (run cycle.toTask { maxCost := 0 }).toOption.map
        (fun outcome ↦ outcome.termination) = some .noSolution by decide +kernel)
  refine ⟨outcome, hrun, htermination, ?_⟩
  exact (noSolution_of_run rfl hrun).2 (by decide) (by decide +kernel) htermination

/-- The goal is one action away, but another action costs more than the horizon. -/
def distraction : ExplicitTask :=
  ((ExplicitTask.ofGoal "distraction" (.single 0) (.single 1)).addEdges
      ⟨0, "go", 3, by decide⟩ [(.single 0, .single 1)]).addEdges
    ⟨1, "stray", 100, by decide⟩ [(.single 2, .single 3)]

/-- A run from both ends misses a plan well within its horizon. -/
theorem distraction_noSolution :
    ∃ outcome, run distraction.toTask { maxCost := 5 } = .ok outcome ∧
      outcome.termination = .noSolution ∧
        ∃ (es : List (Step distraction.transitions)) (t : State),
          Leads distraction.initial es t ∧ t ∈ distraction.goals ∧ pathCost es ≤ 5 := by
  obtain ⟨outcome, hrun, htermination⟩ := exists_outcome_of_map
    (show (run distraction.toTask { maxCost := 5 }).toOption.map
        (fun outcome ↦ outcome.termination) = some .noSolution by decide +kernel)
  refine ⟨outcome, hrun, htermination,
    [⟨⟨0, by decide +kernel⟩, .single 1⟩], .single 1, ?_⟩
  exact ⟨.cons (by decide +kernel) (.nil _), by decide, by decide +kernel⟩

end Run

end LayeredPlanning
