import LayeredPlanning.Proofs.Reconstruction.Quota
import LayeredPlanning.Proofs.Run.Outcome

/-!
# Runs that want more plans

A run that wants fewer plans is the beginning of the run that wants more: `plans_of_run_withCount`.

Both take the same turns until the former has found its number (`runFrom_withCount`).  That may
happen in the middle of a turn, with a cut of which the latter finds further plans; but these come
behind the plans that both have, and so does what it finds in later turns (`plans_runFrom`).
-/

namespace LayeredPlanning

variable {task : Task} {horizon : Int} {frontiers : Frontiers task horizon}
  {progress last : Progress} {termination : Termination}

/-! ## Plans stay -/

theorem Progress.plans_raiseBound {raised : Progress} {bound : Int} {view : LayerView}
    (h : progress.raiseBound bound view = .ok raised) : progress.plans <+: raised.plans := by
  rcases raiseBound_eq_ok h with ⟨-, rfl⟩ | ⟨-, -, hconstruct, -⟩
  · exact List.prefix_refl _
  · have hgrows := CutRegistry.plans_construct progress.registry bound view
    rwa [hconstruct] at hgrows

/-- The plans of a run stay, and new ones come behind them. -/
theorem plans_runFrom (h : runFrom frontiers progress = .ok (termination, last)) :
    progress.plans <+: last.plans := by
  have hturns := runFrom_induction
    (P := fun (_ : Frontiers task horizon) current ↦ progress.plans <+: current.plans)
    (fun _ current cuts next registered raised hgrows _ _ hregister hraise ↦ ?_)
    (List.prefix_refl _) h
  · rcases hturns with ⟨_, _, _, hlast⟩ | ⟨_, _, current, hcurrent, _, _, hraise⟩
    · exact hlast
    · exact hcurrent.trans (Progress.plans_raiseBound hraise)
  · rw [← (Progress.queued_registerCuts hregister).plans] at hgrows
    exact hgrows.trans (Progress.plans_raiseBound hraise)

/-! ## Turns -/

namespace Progress

variable {large : Progress} {bound : Int} {view : LayerView} {count : Nat}

/-- The progress of a run that wants another number of plans. -/
def withCount (progress : Progress) (count : Nat) : Progress :=
  { progress with registry := progress.registry.withCount count }

/-- As long as plans are missing, a cut is registered alike. -/
theorem registerCut_withCount (hopen : progress.registry.foundAll = false)
    (hle : progress.registry.store.selection.count ≤ count) (cut : Cut) :
    (progress.withCount count).registerCut cut =
      (progress.registerCut cut).map fun registered ↦ registered.withCount count := by
  have hopen' : (progress.withCount count).registry.foundAll = false :=
    CutRegistry.foundAll_withCount hopen hle
  have hregister : (progress.withCount count).registry.register cut = _ :=
    CutRegistry.register_withCount progress.registry count cut
  rw [registerCut, registerCut, hopen, hopen', hregister]
  cases progress.registry.register cut <;> rfl

theorem registerCuts_withCount (hopen : progress.registry.foundAll = false)
    (hle : progress.registry.store.selection.count ≤ count) (cuts : List Cut) :
    (progress.withCount count).registerCuts cuts =
      (progress.registerCuts cuts).map fun registered ↦ registered.withCount count := by
  induction cuts generalizing progress with
  | nil => rfl
  | cons cut cuts ih =>
    rw [registerCuts, registerCut_withCount hopen hle, registerCuts]
    cases hfirst : progress.registerCut cut with
    | error e => rfl
    | ok registered =>
      have hqueued := queued_registerCut hfirst
      have hselection : registered.registry.store.selection = progress.registry.store.selection :=
        congrArg Prod.fst hqueued.wishes
      exact ih (hqueued.foundAll.trans hopen) (hselection ▸ hle)

/-- If the bound of the run that wants more plans is raised, so is that of the other.  Then they are
alike, or the latter has found its number of plans. -/
theorem raiseBound_withCount (hopen : progress.registry.foundAll = false)
    (hle : progress.registry.store.selection.count ≤ count)
    (hfound : progress.registry.found ≤ progress.registry.target)
    (h : (progress.withCount count).raiseBound bound view = .ok large) :
    ∃ small, progress.raiseBound bound view = .ok small ∧
      (large = small.withCount count ∧ small.registry.found ≤ small.registry.target ∨
        small.registry.FilledBefore large.registry) := by
  rw [raiseBound, hopen]
  have hopen' : (progress.withCount count).registry.foundAll = false :=
    CutRegistry.foundAll_withCount hopen hle
  rw [raiseBound, hopen'] at h
  split at h
  · next hidle =>
    cases h
    exact ⟨progress, if_pos hidle, .inl ⟨rfl, hfound⟩⟩
  · next hbusy =>
    rw [if_neg (show ¬ (bound ≤ progress.lowerBound ∨ false = true) from hbusy)]
    split at h
    · cases h
    · next registry hconstruct =>
      cases h
      obtain ⟨small, hsmall, hsame⟩ := CutRegistry.construct_withCount hle hfound hconstruct
      rw [hsmall]
      refine ⟨_, rfl, hsame.imp_left ?_⟩
      rintro ⟨rfl, hfound'⟩
      exact ⟨rfl, hfound'⟩

end Progress

/-- If the run that wants more plans takes a turn, so does the other, as long as plans are
missing. -/
theorem Turn.of_withCount {count : Nat} {cuts : List Cut} {next : Frontiers task horizon}
    {large : Progress} (hopen : progress.registry.foundAll = false)
    (hle : progress.registry.store.selection.count ≤ count)
    (hfound : progress.registry.found ≤ progress.registry.target)
    (h : Turn frontiers (progress.withCount count) cuts next large) :
    ∃ small, Turn frontiers progress cuts next small ∧
      (large = small.withCount count ∧ small.registry.found ≤ small.registry.target ∧
          small.registry.store.selection.count ≤ count ∨
        small.registry.FilledBefore large.registry) := by
  obtain ⟨registered', hregister, hraise⟩ := h.raises
  rw [Progress.registerCuts_withCount hopen hle] at hregister
  cases hregistered : progress.registerCuts cuts with
  | error e =>
    rw [hregistered] at hregister
    cases hregister
  | ok registered =>
    rw [hregistered] at hregister
    cases hregister
    have hqueued := Progress.queued_registerCuts hregistered
    obtain ⟨queue, hqueue⟩ := hqueued.registry
    have hle' : registered.registry.store.selection.count ≤ count := by
      rw [hqueue]
      exact hle
    have hfound' : registered.registry.found ≤ registered.registry.target := by
      rw [hqueue]
      exact hfound
    obtain ⟨small, hraised, hsame⟩ :=
      Progress.raiseBound_withCount (hqueued.foundAll.trans hopen) hle' hfound' hraise
    refine ⟨small, ⟨hopen, h.closes, registered, hregistered, hraised⟩, hsame.imp_left ?_⟩
    rintro ⟨rfl, hfound''⟩
    have hselection : small.registry.store.selection = registered.registry.store.selection :=
      congrArg Prod.fst (Progress.wishes_raiseBound hraised)
    exact ⟨rfl, hfound'', hselection ▸ hle'⟩

/-- If the run that wants more plans ends well, so does the other.  In the end they are alike, or
the latter has found its number of plans. -/
theorem runFrom_withCount {count : Nat} {large : Progress}
    (hle : progress.registry.store.selection.count ≤ count)
    (hfound : progress.registry.found ≤ progress.registry.target)
    (h : runFrom frontiers (progress.withCount count) = .ok (termination, large)) :
    ∃ termination' small, runFrom frontiers progress = .ok (termination', small) ∧
      (large = small.withCount count ∧ small.registry.found ≤ small.registry.target ∨
        small.registry.FilledBefore large.registry) := by
  -- On what is left to close: both runs have the same searches, and a turn closes a layer.
  induction hn : frontiers.remaining using Nat.strongRecOn generalizing frontiers progress with
  | ind n ih =>
    subst hn
    cases hall : progress.registry.foundAll with
    | true =>
      refine ⟨_, progress, runFrom_of_foundAll hall, ?_⟩
      cases hall' : (progress.withCount count).registry.foundAll with
      | true =>
        cases (runFrom_of_foundAll hall').symm.trans h
        exact .inl ⟨rfl, hfound⟩
      | false =>
        have hgrows := plans_runFrom h
        exact .inr ((CutRegistry.filledBefore_withCount hfound hall hall').trans hgrows)
    | false =>
      rcases ends_or_turn frontiers (progress.withCount count) with
        hends | ⟨cuts, next, raised', hturn', hrest⟩
      · rw [h] at hends
        cases hends with
        | found hall' =>
          rw [show (progress.withCount count).registry.foundAll = false from
            CutRegistry.foundAll_withCount hall hle] at hall'
          cases hall'
        | exhausted _ hclose hraise =>
          obtain ⟨small, hsmall, hsame⟩ := Progress.raiseBound_withCount hall hle hfound hraise
          exact ⟨_, small, runFrom_of_closeNext?_eq_none hall hclose hsmall, hsame⟩
      · rw [h] at hrest
        obtain ⟨raised, hturn, hsame⟩ := hturn'.of_withCount hall hle hfound
        rw [hturn.runFrom_eq]
        rcases hsame with ⟨rfl, hfound', hle'⟩ | hfilled
        · exact ih next.remaining (Frontiers.remaining_lt_of_closeNext? hturn.closes) hle' hfound'
            hrest.symm rfl
        · exact ⟨_, raised, runFrom_of_foundAll hfilled.foundAll,
            .inr (hfilled.trans (plans_runFrom hrest.symm))⟩

/-! ## Outcomes -/

/-- The policy that wants another number of plans. -/
def RunPolicy.withCount (policy : RunPolicy) (count : Nat) : RunPolicy :=
  { policy with selection := policy.selection.withCount count }

/-- If a run that wants more plans ends well, so does the run that wants fewer, and finds the first
of them. -/
theorem plans_of_run_withCount {policy : RunPolicy} {more : Nat} {outcome' : RunOutcome}
    (hfault : policy.fault? = none) (hmore : policy.selection.count ≤ more)
    (h : run task (policy.withCount more) = .ok outcome') :
    ∃ outcome, run task policy = .ok outcome ∧
      outcome.plans = outcome'.plans.take policy.selection.count := by
  obtain ⟨database, hdatabase, hrun⟩ := run_eq_map task hfault
  obtain ⟨-, database', large, hdatabase', hlarge, houtcome⟩ := exists_last_of_run h
  obtain ⟨-, rfl⟩ := PlanDatabase.ofSelection?_eq_ok_iff.mp hdatabase
  obtain ⟨-, rfl⟩ := PlanDatabase.ofSelection?_eq_ok_iff.mp hdatabase'
  let start := Progress.start ⟨policy.selection, policy.simpleOnly, [], [], none, false⟩ policy
  change runFrom (Frontiers.start task policy) (start.withCount more) = _ at hlarge
  obtain ⟨termination, small, hsmall, hsame⟩ := runFrom_withCount hmore (Nat.zero_le _) hlarge
  refine ⟨.ofLast termination small, by rw [hrun, hsmall]; rfl, ?_⟩
  have hselection : small.registry.store.selection = policy.selection :=
    congrArg Prod.fst (wishes_runFrom hsmall)
  rw [houtcome]
  show small.plans = large.plans.take policy.selection.count
  rcases hsame with ⟨rfl, hfound⟩ | hfilled
  · have hle := hfound.trans CutRegistry.target_le_count
    rw [hselection] at hle
    exact (List.take_of_length_le hle).symm
  · rw [← hselection, ← hfilled.filled]
    exact List.prefix_iff_eq_take.mp hfilled.plans

/-- Two actions of one cost lead to the goal. -/
def twins : ExplicitTask :=
  ((ExplicitTask.ofGoal "twins" (.single 0) (.single 1)).addEdges
      ⟨0, "walk", 1, Int.one_nonneg⟩ [(.single 0, .single 1)]).addEdges
    ⟨1, "ride", 1, Int.one_nonneg⟩ [(.single 0, .single 1)]

/-- The twins make one cut.  A run that wants one plan stops in the middle of it. -/
theorem twins_plans_of_run_withCount :
    ∃ outcome outcome', run twins.toTask { maxCost := 1, selection := .topK 1 } = .ok outcome ∧
      run twins.toTask { maxCost := 1, selection := .topK 2 } = .ok outcome' ∧
      outcome'.plans.length = 2 ∧ outcome'.report.events.length = 1 ∧
      outcome.plans = outcome'.plans.take 1 := by
  obtain ⟨outcome', hrun', hvalue⟩ := exists_outcome_of_map
    (show (run twins.toTask { maxCost := 1, selection := .topK 2 }).toOption.map
        (fun outcome ↦ (outcome.plans.length, outcome.report.events.length)) = some (2, 1) by
      decide +kernel)
  obtain ⟨hlength, hevents⟩ := Prod.mk.inj hvalue
  let policy : RunPolicy := { maxCost := 1, selection := .topK 1 }
  have hmore : run twins.toTask (policy.withCount 2) = .ok outcome' := hrun'
  obtain ⟨outcome, hrun, hplans⟩ := plans_of_run_withCount rfl (by decide) hmore
  exact ⟨outcome, outcome', hrun, hrun', hlength, hevents, hplans⟩

end LayeredPlanning
