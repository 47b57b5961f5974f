import LayeredPlanning.Proofs.Run.Opening

/-!
# The registry of an outcome

The registry with which a run ends is settled at the lower bound of the outcome: `settled_of_run`.

A run keeps its registry settled at its lower bound, with one exception.  At the opening the bound
may promise what is not so; but no cut is made by then, and the bound is higher after the next
layer, unless the run stalls.
-/

namespace LayeredPlanning

variable {task : Task} {horizon : Int}

/-- Where no cut waits there is nothing to construct. -/
theorem CutRegistry.construct_of_cuts_nil {registry : CutRegistry PlanDatabase}
    (h : registry.cuts = []) (bound : Int) (view : LayerView) :
    registry.construct bound view = (.ok (), registry) := by
  refine construct_of_idle (fun _ cut hcut ↦ ?_) view
  rw [h] at hcut
  cases hcut

/-- Where no cut waits, raising the bound does nothing else. -/
theorem Progress.raiseBound_of_cuts_nil {progress raised : Progress} {bound : Int}
    {view : LayerView} (hcuts : progress.registry.cuts = [])
    (hopen : progress.registry.foundAll = false) (h : progress.raiseBound bound view = .ok raised) :
    raised.registry = progress.registry ∧ raised.lowerBound = max progress.lowerBound bound := by
  refine ⟨?_, lowerBound_raiseBound hopen h⟩
  rcases raiseBound_eq_ok h with ⟨_, rfl⟩ | ⟨_, _, hconstruct, _⟩
  · rfl
  · rw [CutRegistry.construct_of_cuts_nil hcuts] at hconstruct
    exact (Prod.mk.inj hconstruct).2.symm

section Run

variable {frontiers : Frontiers task horizon} {progress last : Progress} {termination : Termination}
  {policy : RunPolicy}

theorem Progress.exhausted_eq_foundAllPlans_iff :
    progress.exhausted = .foundAllPlans ↔ progress.registry.foundAll = true := by
  rw [exhausted]
  cases progress.registry.foundAll with
  | true => exact iff_of_true rfl rfl
  | false =>
    refine iff_of_false ?_ Bool.false_ne_true
    intro h
    rw [if_neg Bool.false_ne_true] at h
    split at h <;> cases h

theorem Progress.exhausted_eq_noSolution_iff :
    progress.exhausted = .noSolution ↔
      progress.registry.foundAll = false ∧ progress.registry.found = 0 := by
  rw [exhausted]
  cases progress.registry.foundAll with
  | true =>
    refine iff_of_false ?_ fun h ↦ Bool.false_ne_true h.1.symm
    rw [if_pos rfl]
    nofun
  | false =>
    rw [if_neg Bool.false_ne_true, eq_self, true_and]
    split
    · next hzero => exact iff_of_true rfl hzero
    · next hpos => exact iff_of_false nofun hpos

/-- The registry of a run is settled at first: it is empty. -/
theorem Progress.covers_start (task : Task) (hpolicy : 0 ≤ policy.maxCost)
    {database : PlanDatabase} (hdatabase : policy.database? = .ok database) :
    (⟨.ofStore database policy.singleSolution, 0, none⟩ : Progress).Covers
      (Frontiers.start task policy) 0 :=
  ⟨CutRegistry.settled_ofStore hdatabase _,
    fun _ g k s hmeets ↦ absurd hmeets (Frontiers.not_meets_start task hpolicy g k s)⟩

/-- The first turn of a run starts its only search, or brings it to its opening, where it knows
nothing but a bound. -/
theorem runFrom_start_eq_ok (hlawful : task.Lawful) (hpolicy : 0 ≤ policy.maxCost)
    {database : PlanDatabase} (hdatabase : policy.database? = .ok database)
    (h : runFrom (Frontiers.start task policy)
      ⟨.ofStore database policy.singleSolution, 0, none⟩ = .ok (termination, last)) :
    ∃ (next : Frontiers task policy.maxCost) (raised : Progress), next.Exact ∧
      runFrom next raised = .ok (termination, last) ∧
      (policy.mode ≠ .bidirectional ∧ next.Started ∧ raised.Covers next raised.lowerBound ∨
        policy.mode = .bidirectional ∧ next.Opening ∧ raised.Covers next 0 ∧
          raised.plans = [] ∧ raised.registry.foundAll = false ∧
          raised.lowerBound = max 0 (next.provenBound task.maxActionCost)) := by
  have hexact := Frontiers.exact_start task hpolicy
  have hcovers := Progress.covers_start task hpolicy hdatabase
  rcases runFrom_eq_ok h with ⟨hall, -⟩ | ⟨-, hclose, -⟩ |
    ⟨hopen, cuts, next, registered, raised, hclose, hregister, hraise, hrest⟩
  · have hpos := hcovers.settled.found_pos hall
    have hzero : database.plans.length = 0 :=
      congrArg List.length (PlanDatabase.plans_of_ofSelection? hdatabase)
    exact absurd hzero hpos.ne'
  · exact absurd hclose (Frontiers.closeNext?_start_ne_none hlawful hpolicy)
  · have hexact' := hexact.closeNext hclose
    have hregistered := hcovers.registerCuts hclose hregister
    refine ⟨next, raised, hexact', hrest, ?_⟩
    rcases Frontiers.started_or_opening hlawful hpolicy hclose with
      ⟨hmode, hstarted⟩ | ⟨hmode, hopening, rfl⟩
    · have hlower := (Progress.queued_registerCuts hregister).lowerBound
      exact .inl ⟨hmode, hstarted, hregistered.raiseBound hlawful hexact' hstarted
        (Int.le_of_eq hlower.symm) (.inl hlower.symm) hraise⟩
    · cases hregister
      obtain ⟨hregistry, hlower⟩ := Progress.raiseBound_of_cuts_nil rfl hopen hraise
      refine .inr ⟨hmode, hopening, ⟨?_, ?_⟩, ?_, ?_, hlower⟩
      · rw [hregistry]
        exact hregistered.settled
      · rw [hregistry]
        exact hregistered.listed
      · rw [Progress.plans, hregistry]
        exact PlanDatabase.plans_of_ofSelection? hdatabase
      · rw [hregistry]
        exact hopen

/-- A run on searches that have started keeps its registry settled at its lower bound. -/
theorem settled_of_started (hlawful : task.Lawful) (hexact : frontiers.Exact)
    (hstarted : frontiers.Started) (hcovers : progress.Covers frontiers progress.lowerBound)
    (h : runFrom frontiers progress = .ok (termination, last)) :
    termination = last.exhausted ∧ last.registry.Settled task last.lowerBound := by
  have hturns := runFrom_induction (P := fun frontiers progress ↦
    frontiers.Exact ∧ frontiers.Started ∧ progress.Covers frontiers progress.lowerBound)
    (fun frontiers progress cuts next registered raised hinv hopen hclose hregister hraise ↦ ?_)
    ⟨hexact, hstarted, hcovers⟩ h
  · rcases hturns with ⟨rfl, hall, _, _, _, hlast⟩ |
      ⟨rfl, frontiers, progress, ⟨hexact, hstarted, hcovers⟩, hopen, hclose, hraise⟩
    · refine ⟨?_, hlast.settled⟩
      rw [Progress.exhausted, if_pos hall]
    · exact ⟨rfl, (hcovers.raiseBound hlawful hexact hstarted (Int.le_refl _) (.inl rfl)
        hraise).settled⟩
  · obtain ⟨hexact, hstarted, hcovers⟩ := hinv
    have hlower := (Progress.queued_registerCuts hregister).lowerBound
    have hregistered := hcovers.registerCuts hclose hregister
    rw [← hlower] at hregistered
    have hexact' := hexact.closeNext hclose
    have hstarted' := hstarted.closeNext hexact hclose
    exact ⟨hexact', hstarted', hregistered.raiseBound hlawful hexact' hstarted' (Int.le_refl _)
      (.inl rfl) hraise⟩

/-- A run at its opening, where nothing waits in the registry. -/
theorem settled_of_opening (hlawful : task.Lawful)
    (hrises : horizon ≤ Cost.max - 2 ∨ ¬ task.Confined horizon) (hexact : frontiers.Exact)
    (hopening : frontiers.Opening) (hcovers : progress.Covers frontiers 0)
    (hopen : progress.registry.foundAll = false)
    (hlower : progress.lowerBound = 0 ∨
      0 < progress.lowerBound ∧ progress.lowerBound = frontiers.provenBound task.maxActionCost)
    (h : runFrom frontiers progress = .ok (termination, last)) :
    termination = last.exhausted ∧ last.registry.Settled task last.lowerBound := by
  rcases runFrom_eq_ok h with ⟨hall, _⟩ | ⟨_, hclose, _⟩ |
    ⟨_, cuts, next, registered, raised, hclose, hregister, hraise, hrest⟩
  · rw [hall] at hopen
    cases hopen
  · exact absurd hclose hopening.closeNext?_ne_none
  · obtain ⟨_, hstarted, -⟩ := hopening.started hexact hclose
    have hexact' := hexact.closeNext hclose
    have hsame := (Progress.queued_registerCuts hregister).lowerBound
    have hrise' : 0 = registered.lowerBound ∨
        registered.lowerBound < next.provenBound task.maxActionCost := by
      rw [hsame]
      rcases hlower with hzero | ⟨hpos, hbound⟩
      · exact .inl hzero.symm
      · rw [hbound] at hpos ⊢
        rcases hrises with hhorizon | hconfined
        · have hmost : 0 ≤ task.maxActionCost := Int.le_of_lt task.one_le_maxActionCost
          exact .inr (hopening.provenBound_lt hexact hclose hhorizon hmost hpos)
        · exact absurd hpos (Int.not_lt.mpr (hopening.provenBound_nonpos hconfined))
    refine settled_of_started hlawful hexact' hstarted ?_ hrest
    exact (hcovers.registerCuts hclose hregister).raiseBound hlawful hexact' hstarted (by omega)
      hrise' hraise

/-- The registry with which a run ends is settled at the lower bound. -/
theorem settled_of_runFrom (hlawful : task.Lawful) (hpolicy : 0 ≤ policy.maxCost)
    (hstalls : ¬ task.Stalls policy) {database : PlanDatabase}
    (hdatabase : policy.database? = .ok database)
    (h : runFrom (Frontiers.start task policy)
      ⟨.ofStore database policy.singleSolution, 0, none⟩ = .ok (termination, last)) :
    termination = last.exhausted ∧ last.registry.Settled task last.lowerBound := by
  obtain ⟨next, raised, hexact, hrest, ⟨-, hstarted, hcovers⟩ |
    ⟨hmode, hopening, hcovers, -, hopen, hlower⟩⟩ :=
      runFrom_start_eq_ok hlawful hpolicy hdatabase h
  · exact settled_of_started hlawful hexact hstarted hcovers hrest
  · refine settled_of_opening hlawful ?_ hexact hopening hcovers hopen (by omega) hrest
    by_cases hhorizon : policy.maxCost ≤ Cost.max - 2
    · exact .inl hhorizon
    · exact .inr fun hconfined ↦ hstalls ⟨hmode, by omega, hconfined⟩

/-- A run never changes what is wanted. -/
theorem wishes_runFrom (h : runFrom frontiers progress = .ok (termination, last)) :
    last.registry.wishes = progress.registry.wishes := by
  have hturns := runFrom_induction
    (P := fun (_ : Frontiers task horizon) current ↦
      current.registry.wishes = progress.registry.wishes)
    (fun frontiers current cuts next registered raised hwishes _ _ hregister hraise ↦ ?_) rfl h
  · rcases hturns with ⟨_, _, _, hlast⟩ | ⟨_, _, current, hcurrent, _, _, hraise⟩
    · exact hlast
    · exact (Progress.wishes_raiseBound hraise).trans hcurrent
  · have hregistered := (Progress.queued_registerCuts hregister).wishes
    exact (Progress.wishes_raiseBound hraise).trans (hregistered.trans hwishes)

/-- A run is known by a value of its outcome. -/
theorem exists_outcome_of_map {β : Type} {result : Except RunError RunOutcome}
    {f : RunOutcome → β} {b : β} (h : result.toOption.map f = some b) :
    ∃ outcome, result = .ok outcome ∧ f outcome = b := by
  cases result with
  | error e => cases h
  | ok outcome => exact ⟨outcome, rfl, Option.some.inj h⟩

/-- What an outcome is made of. -/
theorem run_eq_ok {outcome : RunOutcome} (h : run task policy = .ok outcome) :
    0 ≤ policy.maxCost ∧ ∃ database last, policy.database? = .ok database ∧
      runFrom (Frontiers.start task policy) ⟨.ofStore database policy.singleSolution, 0, none⟩ =
        .ok (outcome.termination, last) ∧
      outcome.plans = last.plans ∧ outcome.lowerBound = last.lowerBound := by
  obtain ⟨hfault, database, last, hdatabase, hrun, heq⟩ := exists_last_of_run h
  refine ⟨(RunPolicy.exists_database hfault).1, database, last, hdatabase, hrun, ?_⟩
  rw [heq]
  exact ⟨rfl, rfl⟩

/-- An outcome is that of a progress whose registry is settled at the lower bound, under the wishes
of the policy. -/
theorem exists_settled_of_run (hlawful : task.Lawful) (hstalls : ¬ task.Stalls policy)
    {outcome : RunOutcome} (h : run task policy = .ok outcome) :
    ∃ last : Progress, outcome = .ofLast outcome.termination last ∧
      outcome.termination = last.exhausted ∧ last.registry.Settled task outcome.lowerBound ∧
      last.registry.wishes = (policy.selection, policy.simpleOnly, policy.singleSolution) := by
  obtain ⟨hfault, database, last, hdatabase, hrun, heq⟩ := exists_last_of_run h
  obtain ⟨hpolicy, -⟩ := RunPolicy.exists_database hfault
  obtain ⟨htermination, hsettled⟩ := settled_of_runFrom hlawful hpolicy hstalls hdatabase hrun
  refine ⟨last, heq, htermination, heq ▸ hsettled, ?_⟩
  rw [wishes_runFrom hrun]
  obtain ⟨-, rfl⟩ := PlanDatabase.ofSelection?_eq_ok_iff.mp hdatabase
  rfl

/-- The registry behind an outcome is settled at the lower bound, under the wishes of the policy. -/
theorem settled_of_run (hlawful : task.Lawful) (hstalls : ¬ task.Stalls policy)
    {outcome : RunOutcome} (h : run task policy = .ok outcome) :
    ∃ last : Progress, outcome.plans = last.plans ∧ outcome.termination = last.exhausted ∧
      last.registry.Settled task outcome.lowerBound ∧
      last.registry.wishes = (policy.selection, policy.simpleOnly, policy.singleSolution) := by
  obtain ⟨last, heq, hlast⟩ := exists_settled_of_run hlawful hstalls h
  exact ⟨last, by rw [heq]; rfl, hlast⟩

end Run

end LayeredPlanning
