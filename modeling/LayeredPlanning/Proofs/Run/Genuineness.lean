import LayeredPlanning.Proofs.Plans.Genuine
import LayeredPlanning.Proofs.Reconstruction.Soundness
import LayeredPlanning.Proofs.Run.Invariant

/-!
# All plans are genuine

A run hands out plans with its outcome, and with the error if it is given up (`handedOut`).  All of
them are genuine, whatever the policy and whenever the run ends: `promised_of_handedOut`.  Nothing
is asked of the searches for this, since reconstruction follows edges of the table, whatever the
layers say; so it is enough that the registry stays sound (`Turns.sound`).
-/

namespace LayeredPlanning

/-- The plans that a run hands out, with its outcome or with its error. -/
def handedOut : Except RunError RunOutcome → List Plan
  | .ok outcome => outcome.plans
  | .error (.aborted _ accepted) => accepted
  | .error (.setup _) | .error (.task _) => []

/-- What is promised of a plan that the run of a policy on a task hands out with a result: it is
genuine and as simple as is asked for, and costs less than the lower bound of the outcome. -/
structure Plan.Promised (task : Task) (policy : RunPolicy) (result : Except RunError RunOutcome)
    (plan : Plan) : Prop extends plan.Genuine task where
  simple : policy.simpleOnly = true → plan.states.Nodup
  cost_lt : ∀ outcome, result = .ok outcome → plan.cost < outcome.lowerBound

namespace Plan.OfEligible

variable {task : Task} {simpleOnly : Bool} {plan : Plan}

theorem genuine (h : plan.OfEligible task simpleOnly) : plan.Genuine task := by
  obtain ⟨es, hes, rfl, hcost⟩ := h
  exact hes.genuine hcost

theorem nodup_states (h : plan.OfEligible task simpleOnly) (hsimple : simpleOnly = true) :
    plan.states.Nodup := by
  obtain ⟨es, hes, rfl, -⟩ := h
  exact hes.simple hsimple

end Plan.OfEligible

variable {task : Task} {horizon : Int}

/-! ## Turns keep the registry sound -/

namespace Progress

variable {frontiers : Frontiers task horizon} {progress progress' : Progress} {cuts : List Cut}
  {bound : Int}

/-- The registry is sound below the lower bound, and wants what it has always wanted. -/
structure Sound (task : Task) (simpleOnly : Bool) (progress : Progress) : Prop where
  registry : progress.registry.Sound task progress.lowerBound
  simpleOnly : progress.registry.store.simpleOnly = simpleOnly

namespace Sound

variable {simpleOnly : Bool}

theorem registerCuts (h : progress.Sound task simpleOnly)
    (hopen : progress.registry.foundAll = false)
    (hregister : progress.registerCuts cuts = .ok progress') : progress'.Sound task simpleOnly := by
  refine (registerCuts_induction
    (P := fun _ progress ↦ progress.Sound task simpleOnly) ?_ [] hopen h hregister).1
  intro _ current cut registry hcurrent hregister
  refine ⟨hcurrent.registry.register hregister, ?_⟩
  rw [CutRegistry.store_of_register hregister]
  exact hcurrent.simpleOnly

theorem raiseBound (h : progress.Sound task simpleOnly)
    (hcons : ∀ r ∈ task.transitions.relations, r.Consistent)
    (hraise : progress.raiseBound bound frontiers.view = .ok progress') :
    progress'.Sound task simpleOnly := by
  have hwishes : progress'.registry.store.simpleOnly = progress.registry.store.simpleOnly :=
    congrArg (·.2.1) (wishes_raiseBound hraise)
  refine ⟨?_, hwishes.trans h.simpleOnly⟩
  rcases raiseBound_eq_ok hraise with ⟨-, rfl⟩ | ⟨hlt, -, hconstruct, hlower⟩
  · exact h.registry
  · have hbefore : progress.registry.Sound frontiers.view.task progress.lowerBound := h.registry
    have hsound := hbefore.construct hcons (Int.le_of_lt hlt)
    rw [hconstruct] at hsound
    rw [hlower]
    exact hsound

/-- The plans that are handed out with an error are those of a sound registry as well. -/
theorem of_raiseBound_error (h : progress.Sound task simpleOnly)
    (hcons : ∀ r ∈ task.transitions.relations, r.Consistent) {e : RunError}
    (hraise : progress.raiseBound bound frontiers.view = .error e) :
    ∃ cause accepted, e = .aborted cause accepted ∧
      ∀ plan ∈ accepted, plan.OfEligible task simpleOnly := by
  obtain ⟨hlt, cause, registry, hconstruct, rfl⟩ := raiseBound_eq_error hraise
  have hbefore : progress.registry.Sound frontiers.view.task progress.lowerBound := h.registry
  have hsound := hbefore.construct hcons (Int.le_of_lt hlt)
  have hwishes := CutRegistry.wishes_construct bound frontiers.view progress.registry
  rw [hconstruct] at hsound hwishes
  have hsimple : registry.store.simpleOnly = progress.registry.store.simpleOnly :=
    congrArg (·.2.1) hwishes
  refine ⟨cause, registry.store.plans, rfl, ?_⟩
  rw [← h.simpleOnly, ← hsimple]
  exact hsound.plan_of

end Sound

end Progress

section Run

variable {frontiers current : Frontiers task horizon} {progress reached : Progress}
  {simpleOnly : Bool} {made : List Cut}

/-- Turns keep the registry sound. -/
theorem Turns.sound (hcons : ∀ r ∈ task.transitions.relations, r.Consistent)
    (h : Turns frontiers progress made current reached) (hstart : progress.Sound task simpleOnly) :
    reached.Sound task simpleOnly := by
  refine h.induction (P := fun _ _ progress ↦ progress.Sound task simpleOnly) hstart ?_
  intro _ _ before cuts next raised hbefore hturn
  obtain ⟨registered, hregister, hraise⟩ := hturn.raises
  have hregistered := hbefore.registerCuts hturn.missing hregister
  exact hregistered.raiseBound hcons hraise

/-- A sound run that ends without an error ends with a sound registry. -/
theorem Ends.sound {termination : Termination} {last : Progress}
    (hcons : ∀ r ∈ task.transitions.relations, r.Consistent)
    (h : Ends frontiers progress (.ok (termination, last)))
    (hsound : progress.Sound task simpleOnly) : last.Sound task simpleOnly := by
  cases h with
  | found => exact hsound
  | exhausted _ _ hraise => exact hsound.raiseBound hcons hraise

/-- A sound run that is given up hands out plans of eligible paths. -/
theorem Ends.accepted {e : RunError} (hcons : ∀ r ∈ task.transitions.relations, r.Consistent)
    (h : Ends frontiers progress (.error e)) (hsound : progress.Sound task simpleOnly) :
    ∃ cause accepted, e = .aborted cause accepted ∧
      ∀ plan ∈ accepted, plan.OfEligible task simpleOnly := by
  cases h with
  | failAtEnd _ hraise => exact hsound.of_raiseBound_error hcons hraise
  | refuse hopen _ hregister =>
    obtain ⟨_, _, _, cause, _, rfl⟩ := Progress.registerCuts_eq_error hopen hregister
    refine ⟨cause, progress.plans, rfl, ?_⟩
    rw [← hsound.simpleOnly]
    exact hsound.registry.plan_of
  | @fail _ next _ _ hopen _ hregister hraise =>
    have hregistered := hsound.registerCuts hopen hregister
    exact hregistered.of_raiseBound_error hcons hraise

/-- Whatever a run hands out, with an outcome or with an error, keeps what is promised. -/
theorem promised_of_handedOut (task : ExplicitTask) {policy : RunPolicy} {plan : Plan}
    (hplan : plan ∈ handedOut (run task.toTask policy)) :
    plan.Promised task.toTask policy (run task.toTask policy) := by
  cases hfault : policy.fault? with
  | some fault =>
    rw [run_eq_setup hfault] at hplan
    exact absurd hplan List.not_mem_nil
  | none =>
    obtain ⟨database, made, frontiers, reached, result, hdatabase, hturns, hends, hrun⟩ :=
      exists_turns_of_run task.toTask hfault
    have hstart : (Progress.start database policy).Sound task.toTask policy.simpleOnly :=
      ⟨CutRegistry.sound_ofStore hdatabase _ 0,
        PlanDatabase.simpleOnly_of_ofSelection? hdatabase⟩
    have hreached := hturns.sound task.consistent hstart
    rw [hrun] at hplan ⊢
    cases result with
    | ok result =>
      have hlast := hends.sound task.consistent hreached
      have hof := hlast.registry.plan_of plan hplan
      refine ⟨hof.genuine,
        fun hsimple ↦ hof.nodup_states (hlast.simpleOnly.trans hsimple), ?_⟩
      rintro outcome ⟨⟩
      exact hlast.registry.cost_lt plan hplan
    | error e =>
      obtain ⟨cause, accepted, rfl, hall⟩ := hends.accepted task.consistent hreached
      have hof := hall plan hplan
      exact ⟨hof.genuine, hof.nodup_states, nofun⟩

/-- Every plan that a run hands out is genuine, be it run on a task or on a world that builds
one. -/
theorem genuine_of_handedOut (policy : RunPolicy) :
    (∀ (task : ExplicitTask), ∀ plan ∈ handedOut (run task.toTask policy),
      plan.Promised task.toTask policy (run task.toTask policy)) ∧
    ∀ (built : Except TaskError ExplicitTask), ∀ plan ∈ handedOut (runWorld built policy),
      ∃ task, built = .ok task ∧ plan.Promised task.toTask policy (runWorld built policy) := by
  refine ⟨fun task plan hplan ↦ promised_of_handedOut task hplan, ?_⟩
  intro built plan hplan
  cases built with
  | error e => exact absurd hplan List.not_mem_nil
  | ok task => exact ⟨task, rfl, promised_of_handedOut task hplan⟩

/-- The run with the detour is given up, and hands out the plan that it has found. -/
theorem detour_genuine_of_handedOut :
    ∃ plan, run detour.toTask .farthest = .error (.aborted (.invalidCut 4611686018427387904
        4611686018427387904 "g + h overflows") [plan]) ∧
      plan.actions.map (·.name) = ["go"] ∧
      plan.Promised detour.toTask .farthest (run detour.toTask .farthest) := by
  refine ⟨⟨[⟨0, "go", 1, by decide⟩], [.single 0, .single 1]⟩, ?_, rfl, ?_⟩
  · decide +kernel
  · apply (genuine_of_handedOut .farthest).1 detour
    decide +kernel

end Run

end LayeredPlanning
