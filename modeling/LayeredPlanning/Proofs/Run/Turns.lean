import LayeredPlanning.Proofs.Paths.LevelSimple
import LayeredPlanning.Proofs.Reconstruction.Decisions
import LayeredPlanning.Proofs.Reconstruction.Registry
import LayeredPlanning.Run.Basic

/-!
# The turns of a run

A turn of the loop closes a layer, registers its cuts and raises the bound (`Turn`).  A run takes
turns until it ends, with a result or with an error (`Turns`, `Ends`, `exists_turns`).  What every
turn keeps up holds when the run ends: `Turns.induction`, and for runs without an error
`runFrom_induction`.
-/

namespace LayeredPlanning

variable {task : Task} {horizon : Int}

/-! ## Parts of a turn -/

namespace CutRegistry

variable {registry registry' : CutRegistry PlanDatabase} {cut : Cut}

theorem store_of_register (h : registry.register cut = .ok registry') :
    registry'.store = registry.store := by
  rw [(register_eq_ok h).2]

theorem foundAll_of_register (h : registry.register cut = .ok registry') :
    registry'.foundAll = registry.foundAll := by
  rw [(register_eq_ok h).2]
  rfl

end CutRegistry

namespace Progress

variable {progress progress' : Progress} {cuts : List Cut} {view : LayerView} {bound : Int}
  {e : RunError}

/-- Raising the bound does nothing, or constructs up to it. -/
theorem raiseBound_eq_ok (h : progress.raiseBound bound view = .ok progress') :
    ((bound ≤ progress.lowerBound ∨ progress.registry.foundAll = true) ∧
      progress' = progress) ∨
    (progress.lowerBound < bound ∧ progress.registry.foundAll = false ∧
      progress.registry.construct bound view = (.ok (), progress'.registry) ∧
      progress'.lowerBound = bound) := by
  rw [raiseBound] at h
  split at h
  · next hidle =>
    cases h
    exact .inl ⟨hidle, rfl⟩
  · next hbusy =>
    rw [not_or, Int.not_le, Bool.not_eq_true] at hbusy
    right
    split at h
    · cases h
    · next registry hconstruct =>
      cases h
      exact ⟨hbusy.1, hbusy.2, hconstruct, rfl⟩

/-- As long as plans are missing, the lower bound is the highest of the bounds to which it is
raised. -/
theorem lowerBound_raiseBound (hopen : progress.registry.foundAll = false)
    (h : progress.raiseBound bound view = .ok progress') :
    progress'.lowerBound = max progress.lowerBound bound := by
  rcases raiseBound_eq_ok h with ⟨hidle, rfl⟩ | ⟨hlt, -, -, hbound⟩
  · rw [hopen] at hidle
    exact (max_eq_left (hidle.resolve_right Bool.false_ne_true)).symm
  · rw [hbound, max_eq_right (Int.le_of_lt hlt)]

/-- Raising the lower bound does not touch the upper bound. -/
theorem upperBound?_raiseBound (h : progress.raiseBound bound view = .ok progress') :
    progress'.upperBound? = progress.upperBound? := by
  rw [raiseBound] at h
  split at h
  · cases h
    rfl
  · split at h
    · cases h
    · cases h
      rfl

/-- Raising the bound fails only if the construction fails; the error hands out the plans. -/
theorem raiseBound_eq_error (h : progress.raiseBound bound view = .error e) :
    progress.lowerBound < bound ∧ ∃ cause registry,
      progress.registry.construct bound view = (.error cause, registry) ∧
        e = .aborted cause registry.store.plans := by
  rw [raiseBound] at h
  split at h
  · cases h
  · next hbusy =>
    rw [not_or, Int.not_le] at hbusy
    refine ⟨hbusy.1, ?_⟩
    split at h
    · next cause registry hconstruct =>
      cases h
      exact ⟨cause, registry, hconstruct, rfl⟩
    · cases h

/-- As long as plans are missing, a cut is registered with the registry, and lowers the upper
bound. -/
theorem registerCut_eq_ok {cut : Cut} (hopen : progress.registry.foundAll = false)
    (h : progress.registerCut cut = .ok progress') :
    ∃ registry, progress.registry.register cut = .ok registry ∧
      progress' = { progress with
        registry := registry
        upperBound? := some (CutRegistry.leastOf progress.upperBound? cut.f) } := by
  rw [registerCut, if_neg (by rw [hopen]; exact Bool.false_ne_true)] at h
  split at h
  · cases h
  · next registry hregister =>
    cases h
    exact ⟨registry, hregister, rfl⟩

/-- Registering cuts touches nothing but the queue and the upper bound.  What each cut keeps up is
kept up by all of them. -/
theorem registerCuts_induction {P : List Cut → Progress → Prop}
    (hregister : ∀ made current cut registry, P made current →
      current.registry.register cut = .ok registry →
        P (made ++ [cut]) { current with
          registry := registry
          upperBound? := some (CutRegistry.leastOf current.upperBound? cut.f) })
    (made : List Cut) (hopen : progress.registry.foundAll = false) (hstart : P made progress)
    (h : progress.registerCuts cuts = .ok progress') :
    P (made ++ cuts) progress' ∧ progress'.registry.foundAll = false := by
  induction cuts generalizing made progress with
  | nil =>
    cases h
    rw [List.append_nil]
    exact ⟨hstart, hopen⟩
  | cons cut cuts ih =>
    rw [registerCuts] at h
    split at h
    · cases h
    · next next hfirst =>
      obtain ⟨registry, hregistered, rfl⟩ := registerCut_eq_ok hopen hfirst
      rw [List.append_cons]
      refine ih _ ?_ (hregister made progress cut registry hstart hregistered) h
      rw [← hopen]
      exact CutRegistry.foundAll_of_register hregistered

/-- Registering cuts fails only if one of them is refused; the error hands out the plans. -/
theorem registerCuts_eq_error (hopen : progress.registry.foundAll = false)
    (h : progress.registerCuts cuts = .error e) :
    ∃ cut ∈ cuts, ∃ (registry : CutRegistry PlanDatabase) (cause : ReconstructionError),
      registry.register cut = .error cause ∧ e = .aborted cause progress.plans := by
  induction cuts generalizing progress with
  | nil => cases h
  | cons cut cuts ih =>
    rw [registerCuts] at h
    split at h
    · next hfirst =>
      cases h
      rw [registerCut, if_neg (by rw [hopen]; exact Bool.false_ne_true)] at hfirst
      split at hfirst
      · next cause hregister =>
        cases hfirst
        exact ⟨cut, List.mem_cons_self, progress.registry, cause, hregister, rfl⟩
      · cases hfirst
    · next next hfirst =>
      obtain ⟨registry, hregistered, rfl⟩ := registerCut_eq_ok hopen hfirst
      have hstore := CutRegistry.store_of_register hregistered
      have hopen := (CutRegistry.foundAll_of_register hregistered).trans hopen
      obtain ⟨c, hc, registry', cause, hregister, he⟩ := ih hopen h
      rw [plans, hstore] at he
      exact ⟨c, List.mem_cons_of_mem _ hc, registry', cause, hregister, he⟩

end Progress

/-! ## Turns of the loop -/

/-- A turn of the loop: plans are missing, a layer is closed, its cuts are registered, and the bound
is raised. -/
structure Turn (frontiers : Frontiers task horizon) (progress : Progress) (cuts : List Cut)
    (next : Frontiers task horizon) (raised : Progress) : Prop where
  missing : progress.registry.foundAll = false
  closes : frontiers.closeNext? = some (cuts, next)
  raises : ∃ registered, progress.registerCuts cuts = .ok registered ∧
    registered.raiseBound (next.provenBound task.maxActionCost) next.view = .ok raised

/-- Turns one after the other, with all the cuts that they register. -/
inductive Turns (frontiers : Frontiers task horizon) (progress : Progress) :
    List Cut → Frontiers task horizon → Progress → Prop where
  | refl : Turns frontiers progress [] frontiers progress
  | snoc {made cuts : List Cut} {current next : Frontiers task horizon}
      {reached raised : Progress} :
      Turns frontiers progress made current reached → Turn current reached cuts next raised →
        Turns frontiers progress (made ++ cuts) next raised

/-- How a run ends: with enough plans, with all layers closed, or with an error. -/
inductive Ends (frontiers : Frontiers task horizon) (progress : Progress) :
    Except RunError (Termination × Progress) → Prop where
  | found : progress.registry.foundAll = true →
      Ends frontiers progress (.ok (.foundAllPlans, progress))
  | exhausted {last : Progress} : progress.registry.foundAll = false →
      frontiers.closeNext? = none →
      progress.raiseBound (frontiers.provenBound task.maxActionCost) frontiers.view = .ok last →
        Ends frontiers progress (.ok (last.exhausted, last))
  | failAtEnd {e : RunError} : frontiers.closeNext? = none →
      progress.raiseBound (frontiers.provenBound task.maxActionCost) frontiers.view = .error e →
        Ends frontiers progress (.error e)
  | refuse {cuts : List Cut} {next : Frontiers task horizon} {e : RunError} :
      progress.registry.foundAll = false → frontiers.closeNext? = some (cuts, next) →
      progress.registerCuts cuts = .error e → Ends frontiers progress (.error e)
  | fail {cuts : List Cut} {next : Frontiers task horizon} {registered : Progress} {e : RunError} :
      progress.registry.foundAll = false → frontiers.closeNext? = some (cuts, next) →
      progress.registerCuts cuts = .ok registered →
      registered.raiseBound (next.provenBound task.maxActionCost) next.view = .error e →
        Ends frontiers progress (.error e)

variable {frontiers : Frontiers task horizon} {progress last : Progress} {termination : Termination}

/-- A run ends, or takes a turn and goes on. -/
theorem ends_or_turn (frontiers : Frontiers task horizon) (progress : Progress) :
    Ends frontiers progress (runFrom frontiers progress) ∨
      ∃ cuts next raised, Turn frontiers progress cuts next raised ∧
        runFrom frontiers progress = runFrom next raised := by
  rw [runFrom]
  cases hall : progress.registry.foundAll with
  | true =>
    rw [if_pos rfl]
    exact .inl (.found hall)
  | false =>
    rw [if_neg Bool.false_ne_true]
    split
    · next hclose =>
      left
      split
      · next hraise => exact .failAtEnd hclose hraise
      · next hraise => exact .exhausted hall hclose hraise
    · next cuts next hclose =>
      split
      · next hregister => exact .inl (.refuse hall hclose hregister)
      · next registered hregister =>
        split
        · next hraise => exact .inl (.fail hall hclose hregister hraise)
        · next raised hraise =>
          exact .inr ⟨cuts, next, raised,
            ⟨hall, hclose, registered, hregister, hraise⟩, rfl⟩

/-- A turn is what the loop does. -/
theorem Turn.runFrom_eq {cuts : List Cut} {next : Frontiers task horizon} {raised : Progress}
    (h : Turn frontiers progress cuts next raised) :
    runFrom frontiers progress = runFrom next raised := by
  obtain ⟨hopen, hclose, registered, hregister, hraise⟩ := h
  rw [runFrom, if_neg (by rw [hopen]; exact Bool.false_ne_true)]
  split
  · next hnone =>
    rw [hclose] at hnone
    cases hnone
  · next hsome =>
    obtain ⟨rfl, rfl⟩ := Prod.mk.inj (Option.some.inj (hclose.symm.trans hsome))
    rw [hregister]
    dsimp only
    rw [hraise]

/-- So the loop goes on from all that it comes to by turns. -/
theorem Turns.runFrom_eq {made : List Cut} {current : Frontiers task horizon} {reached : Progress}
    (h : Turns frontiers progress made current reached) :
    runFrom frontiers progress = runFrom current reached := by
  induction h with
  | refl => rfl
  | snoc _ hlast ih => exact ih.trans hlast.runFrom_eq

/-- With enough plans the loop is at its end. -/
theorem runFrom_of_foundAll (hall : progress.registry.foundAll = true) :
    runFrom frontiers progress = .ok (.foundAllPlans, progress) := by
  rw [runFrom, if_pos hall]

/-- When all layers are closed the loop raises the bound for the last time. -/
theorem runFrom_of_closeNext?_eq_none (hopen : progress.registry.foundAll = false)
    (hclose : frontiers.closeNext? = none)
    (hraise : progress.raiseBound (frontiers.provenBound task.maxActionCost) frontiers.view =
      .ok last) : runFrom frontiers progress = .ok (last.exhausted, last) := by
  rw [runFrom, hopen, if_neg Bool.false_ne_true]
  split
  · rw [hraise]
  · next hsome =>
    rw [hclose] at hsome
    cases hsome

theorem Turns.head {cuts made : List Cut} {next current : Frontiers task horizon}
    {raised reached : Progress} (hturn : Turn frontiers progress cuts next raised)
    (h : Turns next raised made current reached) :
    Turns frontiers progress (cuts ++ made) current reached := by
  induction h with
  | refl =>
    rw [List.append_nil]
    exact .snoc .refl hturn
  | snoc _ hlast ih =>
    rw [← List.append_assoc]
    exact .snoc ih hlast

/-- A run takes turns until it ends. -/
theorem exists_turns (frontiers : Frontiers task horizon) (progress : Progress) :
    ∃ made current reached, Turns frontiers progress made current reached ∧
      Ends current reached (runFrom frontiers progress) := by
  induction hn : frontiers.remaining using Nat.strongRecOn generalizing frontiers progress with
  | ind n ih =>
    subst hn
    rcases ends_or_turn frontiers progress with hends | ⟨cuts, next, raised, hturn, hrest⟩
    · exact ⟨[], frontiers, progress, .refl, hends⟩
    · obtain ⟨made, current, reached, hturns, hends⟩ :=
        ih next.remaining (Frontiers.remaining_lt_of_closeNext? hturn.closes) next raised rfl
      rw [hrest]
      exact ⟨cuts ++ made, current, reached, .head hturn hturns, hends⟩

/-- What every turn keeps up holds of all that is reached by turns. -/
theorem Turns.induction {P : List Cut → Frontiers task horizon → Progress → Prop}
    (hstart : P [] frontiers progress)
    (hturn : ∀ made current reached cuts next raised, P made current reached →
      Turn current reached cuts next raised → P (made ++ cuts) next raised)
    {made : List Cut} {current : Frontiers task horizon} {reached : Progress}
    (h : Turns frontiers progress made current reached) : P made current reached := by
  induction h with
  | refl => exact hstart
  | snoc _ hlast ih => exact hturn _ _ _ _ _ _ ih hlast

/-- How a run goes on: it ends with enough plans, or when all layers are closed, or it closes a
layer, registers its cuts, raises the bound and goes on. -/
theorem runFrom_eq_ok (h : runFrom frontiers progress = .ok (termination, last)) :
    (progress.registry.foundAll = true ∧ termination = .foundAllPlans ∧ last = progress) ∨
    (progress.registry.foundAll = false ∧ frontiers.closeNext? = none ∧
      progress.raiseBound (frontiers.provenBound task.maxActionCost) frontiers.view = .ok last ∧
      termination = last.exhausted) ∨
    (progress.registry.foundAll = false ∧ ∃ cuts next registered raised,
      frontiers.closeNext? = some (cuts, next) ∧ progress.registerCuts cuts = .ok registered ∧
      registered.raiseBound (next.provenBound task.maxActionCost) next.view = .ok raised ∧
      runFrom next raised = .ok (termination, last)) := by
  rcases ends_or_turn frontiers progress with hends | ⟨cuts, next, raised, hturn, hrest⟩
  · rw [h] at hends
    cases hends with
    | found hall => exact .inl ⟨hall, rfl, rfl⟩
    | exhausted hopen hclose hraise => exact .inr (.inl ⟨hopen, hclose, hraise, rfl⟩)
  · obtain ⟨registered, hregister, hraise⟩ := hturn.raises
    exact .inr (.inr ⟨hturn.missing, cuts, next, registered, raised, hturn.closes,
      hregister, hraise, hrest.symm.trans h⟩)

/-- What every turn keeps holds when the run ends with enough plans, or before it raises the bound
for the last time. -/
theorem runFrom_induction {P : Frontiers task horizon → Progress → Prop}
    (hturn : ∀ frontiers progress cuts next registered raised, P frontiers progress →
      progress.registry.foundAll = false → frontiers.closeNext? = some (cuts, next) →
      progress.registerCuts cuts = .ok registered →
      registered.raiseBound (next.provenBound task.maxActionCost) next.view = .ok raised →
      P next raised)
    (hstart : P frontiers progress) (h : runFrom frontiers progress = .ok (termination, last)) :
    (termination = .foundAllPlans ∧ last.registry.foundAll = true ∧
      ∃ frontiers : Frontiers task horizon, P frontiers last) ∨
    (termination = last.exhausted ∧
      ∃ (frontiers : Frontiers task horizon) (progress : Progress), P frontiers progress ∧
        progress.registry.foundAll = false ∧ frontiers.closeNext? = none ∧
        progress.raiseBound (frontiers.provenBound task.maxActionCost) frontiers.view =
          .ok last) := by
  obtain ⟨made, current, reached, hturns, hends⟩ := exists_turns frontiers progress
  have hreached : P current reached := by
    refine hturns.induction (P := fun _ frontiers progress ↦ P frontiers progress) hstart ?_
    intro _ current reached cuts next raised hcurrent hlast
    obtain ⟨registered, hregister, hraise⟩ := hlast.raises
    exact hturn _ _ _ _ _ _ hcurrent hlast.missing hlast.closes hregister hraise
  rw [h] at hends
  cases hends with
  | found hall => exact .inl ⟨rfl, hall, current, hreached⟩
  | exhausted hopen hclose hraise =>
    exact .inr ⟨rfl, current, reached, hreached, hopen, hclose, hraise⟩

/-! ## Runs -/

/-- What a run knows at first: nothing. -/
def Progress.start (database : PlanDatabase) (policy : RunPolicy) : Progress :=
  ⟨.ofStore database policy.singleSolution, 0, none⟩

/-- The outcome of a run that ends with `last`. -/
def RunOutcome.ofLast (termination : Termination) (last : Progress) : RunOutcome where
  plans := last.plans
  termination := termination
  lowerBound := last.lowerBound
  upperBound? := last.upperBound?
  report := last.registry.report

/-- A policy with a fault is refused. -/
theorem run_eq_setup {policy : RunPolicy} {fault : ReconstructionError}
    (h : policy.fault? = some fault) : run task policy = .error (.setup fault) := by
  rw [run, h]

/-- A policy without a fault has a database. -/
theorem RunPolicy.exists_database {policy : RunPolicy} (h : policy.fault? = none) :
    0 ≤ policy.maxCost ∧ ∃ database, policy.database? = .ok database := by
  rw [fault?] at h
  split at h
  · cases h
  · next hpolicy =>
    refine ⟨Int.not_lt.mp hpolicy,
      ⟨policy.selection, policy.simpleOnly, [], [], none, false⟩, ?_⟩
    rw [database?, PlanDatabase.ofSelection?, h]

/-- A run under a policy without a fault is the loop from the start. -/
theorem run_eq_map (task : Task) {policy : RunPolicy} (h : policy.fault? = none) :
    ∃ database, policy.database? = .ok database ∧
      run task policy = (runFrom (Frontiers.start task policy) (.start database policy)).map
        fun last ↦ .ofLast last.1 last.2 := by
  obtain ⟨-, database, hdatabase⟩ := RunPolicy.exists_database h
  refine ⟨database, hdatabase, ?_⟩
  rw [run, h, hdatabase, Progress.start]
  dsimp only
  split
  · next hrun =>
    rw [hrun]
    rfl
  · next hrun =>
    rw [hrun]
    rfl

/-- An outcome is that of the progress with which the loop ends. -/
theorem exists_last_of_run {policy : RunPolicy} {outcome : RunOutcome}
    (h : run task policy = .ok outcome) :
    policy.fault? = none ∧ ∃ database last, policy.database? = .ok database ∧
      runFrom (Frontiers.start task policy) (.start database policy) =
        .ok (outcome.termination, last) ∧ outcome = .ofLast outcome.termination last := by
  cases hfault : policy.fault? with
  | some fault =>
    rw [run_eq_setup hfault] at h
    cases h
  | none =>
    obtain ⟨database, hdatabase, hrun⟩ := run_eq_map task hfault
    rw [h] at hrun
    cases hlast : runFrom (Frontiers.start task policy) (.start database policy) with
    | error e =>
      rw [hlast] at hrun
      cases hrun
    | ok last =>
      rw [hlast] at hrun
      obtain rfl := Except.ok.inj hrun
      exact ⟨rfl, database, last.2, hdatabase, hlast, rfl⟩

/-- A run without a setup error takes turns until it ends, and its outcome is that of the end. -/
theorem exists_turns_of_run (task : Task) {policy : RunPolicy} (h : policy.fault? = none) :
    ∃ database made frontiers reached result, policy.database? = .ok database ∧
      Turns (Frontiers.start task policy)
        (Progress.start database policy) made frontiers reached ∧
      Ends frontiers reached result ∧
      run task policy = result.map fun last ↦ .ofLast last.1 last.2 := by
  obtain ⟨database, hdatabase, hrun⟩ := run_eq_map task h
  obtain ⟨made, frontiers, reached, hturns, hends⟩ :=
    exists_turns (Frontiers.start task policy) (Progress.start database policy)
  exact ⟨database, made, frontiers, reached, _, hdatabase, hturns, hends, hrun⟩

/-! ## A detour that is too far -/

/-- One action leads to the goal.  A detour of two actions costs more than can be represented. -/
def detour : ExplicitTask :=
  (((ExplicitTask.ofGoal "detour" (.single 0) (.single 1)).addEdges
      ⟨0, "go", 1, Int.one_nonneg⟩ [(.single 0, .single 1)]).addEdges
    ⟨1, "out", 4611686018427387904, by decide⟩ [(.single 0, .single 2)]).addEdges
    ⟨2, "back", 4611686018427387904, by decide⟩ [(.single 2, .single 1)]

/-- The largest horizon there is. -/
def RunPolicy.farthest : RunPolicy where
  maxCost := Cost.max
  selection := .topK 2

end LayeredPlanning
