import LayeredPlanning.Proofs.Run.Bounds

/-!
# Cuts that are left behind

A run that ends without enough plans should have decided on all cuts below its lower bound.  A cut
that is registered waits until the bound is raised above it, and is then decided on
(`Progress.Settles`); or it is registered below the bound, and then the bound has to rise at once.

The bound does rise as long as the searches are not saturated.  Once they are it stays where it is,
and nothing is reconstructed any more: a cut that is registered then is left behind, however cheap
it is.  So of the cuts below the lower bound, those are decided on that are registered before:
`Registers.disposedIn_iff`.
-/

namespace LayeredPlanning

open Relation

variable {task : Task} {horizon : Int} {frontiers next current : Frontiers task horizon}
  {progress progress' reached raised last : Progress} {cuts made : List Cut}
  {cut : Cut} {bound : Int} {view : LayerView}

/-! ## Raising the bound -/

/-- After a construction no cut below its bound waits, unless enough plans are found. -/
theorem CutRegistry.Awaits.le_of_construct {registry registry' : CutRegistry PlanDatabase}
    (h : registry.Awaits frontiers)
    (hconstruct : registry.construct bound view = (.ok (), registry'))
    (hopen : registry'.foundAll = false) : ∀ cut ∈ registry'.cuts, bound ≤ cut.f := by
  obtain ⟨last, _, stopped, _, hlast, hstops, rfl⟩ := CutRegistry.construct_eq_ok hconstruct
  have hwaits : last.Awaits frontiers :=
    decides_induction (fun _ _ h hdecides ↦ h.decides hdecides) h hlast
  cases hstops with
  | done hdone =>
    intro cut hcut
    have hfirst := hdone hopen
    have hsorted := hwaits.sorted
    change cut ∈ last.cuts at hcut
    cases hcuts : last.cuts with
    | nil =>
      rw [hcuts] at hcut
      exact absurd hcut List.not_mem_nil
    | cons c rest =>
      rw [hcuts] at hsorted hcut hfirst
      exact Int.le_trans (hfirst c rfl) (Cut.f_le_of_pairwise hsorted cut hcut)
  | refuse _ hadmits =>
    have hall : (last.refused _).foundAll = true := Advancing.foundAll_of_closeAtCost hadmits rfl
    exact absurd (hall.symm.trans hopen) Bool.true_eq_false_eq_False

namespace Progress

/-- The log only grows when the bound is raised. -/
theorem events_raiseBound (h : progress.raiseBound bound view = .ok progress') :
    progress.registry.events <+: progress'.registry.events := by
  rcases raiseBound_eq_ok h with ⟨-, rfl⟩ | ⟨-, -, hconstruct, -⟩
  · exact List.prefix_refl _
  · have hlog := progress.registry.events_construct bound view
    rwa [hconstruct] at hlog

/-- A registered cut waits, with those that have waited before. -/
theorem keys_registerCuts (hopen : progress.registry.foundAll = false)
    (h : progress.registerCuts cuts = .ok progress') {key : CutKey}
    (hkey : key ∈ cuts.map Cut.key ∨ key ∈ progress.registry.cuts.map Cut.key) :
    key ∈ progress'.registry.cuts.map Cut.key := by
  refine (registerCuts_induction (P := fun made current ↦
    key ∈ made.map Cut.key ∨ key ∈ progress.registry.cuts.map Cut.key →
      key ∈ current.registry.cuts.map Cut.key) ?_ [] hopen ?_ h).1 hkey
  · intro made current c registry ih hregistered hkey
    rw [(CutRegistry.register_eq_ok hregistered).2, Cut.mem_keys_insertInto]
    rw [List.map_append, List.mem_append, or_right_comm] at hkey
    rcases hkey with hold | hnew
    · exact .inr (ih hold)
    · exact .inl (List.mem_singleton.mp hnew)
  · rintro (hnone | hkey)
    · exact absurd hnone List.not_mem_nil
    · exact hkey

/-- The upper bound is the cost of a registered cut. -/
theorem upperBound?_registerCuts (hopen : progress.registry.foundAll = false)
    (h : progress.registerCuts cuts = .ok progress') {u : Int}
    (hupper : progress'.upperBound? = some u) :
    progress.upperBound? = some u ∨ ∃ cut ∈ cuts, cut.f = u := by
  refine (registerCuts_induction (P := fun made current ↦ ∀ u, current.upperBound? = some u →
    progress.upperBound? = some u ∨ ∃ cut ∈ made, cut.f = u) ?_ [] hopen
      (fun _ hu ↦ .inl hu) h).1 u hupper
  intro made current c registry ih hregistered u hu
  have hleast : current.upperBound? = some u ∨ c.f = u := by
    cases hcurrent : current.upperBound? with
    | none =>
      rw [hcurrent] at hu
      exact .inr (Option.some.inj hu)
    | some least =>
      rw [hcurrent, CutRegistry.leastOf] at hu
      dsimp only at hu
      split at hu
      · exact .inl hu
      · exact .inr (Option.some.inj hu)
  rcases hleast with hold | hnew
  · refine (ih u hold).imp_right ?_
    rintro ⟨b, hb, hf⟩
    exact ⟨b, List.mem_append_left _ hb, hf⟩
  · exact .inr ⟨c, List.mem_append_right _ (List.mem_singleton.mpr rfl), hnew⟩

/-! ## Turns in good order -/

/-- Between two turns the searches meet in the cuts that wait, and the lower bound is the proven
one. -/
structure Orderly (frontiers : Frontiers task horizon) (progress : Progress) : Prop where
  exact : frontiers.Exact
  awaits : progress.registry.Awaits frontiers
  lowerBound : progress.lowerBound = max 0 (frontiers.provenBound task.maxActionCost)

theorem orderly_start (hlawful : task.Lawful) {policy : RunPolicy} (hpolicy : 0 ≤ policy.maxCost)
    (database : PlanDatabase) :
    (Progress.start database policy).Orderly (Frontiers.start task policy) := by
  have hmost : 0 ≤ task.maxActionCost := Int.le_of_lt task.one_le_maxActionCost
  refine ⟨Frontiers.exact_start task hpolicy, .ofStore _ database _, ?_⟩
  exact (max_eq_left (Frontiers.provenBound_start_nonpos hlawful hpolicy hmost)).symm

theorem Orderly.turn (h : progress.Orderly frontiers)
    (hturn : Turn frontiers progress cuts next raised) : raised.Orderly next := by
  obtain ⟨hopen, hclose, registered, hregister, hraise⟩ := hturn
  have hqueued := queued_registerCuts hregister
  refine ⟨h.exact.closeNext hclose,
    awaits_raiseBound (awaits_registerCuts h.awaits hopen hclose hregister) hraise, ?_⟩
  have hrise := h.exact.provenBound_le hclose task.maxActionCost
  rw [lowerBound_raiseBound (hqueued.foundAll.trans hopen) hraise, hqueued.lowerBound, h.lowerBound,
    max_assoc, max_eq_right hrise]

end Progress

theorem Turns.orderly (h : Turns frontiers progress made current reached)
    (hstart : progress.Orderly frontiers) : reached.Orderly current :=
  h.induction (P := fun _ current reached ↦ reached.Orderly current) hstart
    fun _ _ _ _ _ _ hreached hturn ↦ hreached.turn hturn

/-! ## Cuts that are decided on -/

namespace Progress

/-- The cut has been decided on, or waits for the bound to rise above it. -/
def Settles (cut : Cut) (progress : Progress) : Prop :=
  cut.DisposedIn progress.registry.events ∨
    cut.key ∈ progress.registry.cuts.map Cut.key ∧
      (progress.registry.foundAll = false → progress.lowerBound ≤ cut.f)

/-- If a cut waits, it is settled once the bound has been raised, unless it was below the bound and
the bound has stayed. -/
theorem settles_raiseBound (hwaits : progress.registry.Awaits frontiers)
    (hkey : cut.key ∈ progress.registry.cuts.map Cut.key)
    (hidle : progress.registry.foundAll = false → bound ≤ progress.lowerBound →
      progress.lowerBound ≤ cut.f)
    (h : progress.raiseBound bound view = .ok progress') : progress'.Settles cut := by
  rcases raiseBound_eq_ok h with ⟨hsame, rfl⟩ | ⟨-, -, hconstruct, hbound⟩
  · refine .inr ⟨hkey, fun hopen ↦ hidle hopen (hsame.resolve_right ?_)⟩
    rw [hopen]
    exact Bool.false_ne_true
  · obtain ⟨c, hc, hsame⟩ := List.mem_map.mp hkey
    have hdecided := CutRegistry.decided_construct hc bound view
    rw [hconstruct] at hdecided
    rcases hdecided with hleft | hdisposed
    · refine .inr ⟨List.mem_map.mpr ⟨c, hleft, hsame⟩, fun hopen ↦ ?_⟩
      rw [hbound, ← (CutKey.mk.inj hsame).1]
      exact hwaits.le_of_construct hconstruct hopen c hleft
    · exact .inl (hdisposed.of_key hsame)

/-- A settled cut stays settled when the bound is raised. -/
theorem Settles.raiseBound (h : progress.Settles cut) (hwaits : progress.registry.Awaits frontiers)
    (hraise : progress.raiseBound bound view = .ok progress') : progress'.Settles cut := by
  rcases h with ⟨event, hevent, hdisposes⟩ | ⟨hkey, habove⟩
  · exact .inl ⟨event, (events_raiseBound hraise).subset hevent, hdisposes⟩
  · exact settles_raiseBound hwaits hkey (fun hopen _ ↦ habove hopen) hraise

/-- A settled cut stays settled from turn to turn. -/
theorem Settles.turn (h : progress.Settles cut) (horderly : progress.Orderly frontiers)
    (hturn : Turn frontiers progress cuts next raised) : raised.Settles cut := by
  obtain ⟨hopen, hclose, registered, hregister, hraise⟩ := hturn
  have hwaits := awaits_registerCuts horderly.awaits hopen hclose hregister
  have hqueued := queued_registerCuts hregister
  obtain ⟨queue, hqueue⟩ := hqueued.registry
  refine Settles.raiseBound ?_ hwaits hraise
  rcases h with hdisposed | ⟨hkey, habove⟩
  · left
    rw [hqueue]
    exact hdisposed
  · refine .inr ⟨keys_registerCuts hopen hregister (.inr hkey), fun _ ↦ ?_⟩
    rw [hqueued.lowerBound]
    exact habove hopen

end Progress

/-- The cuts of a turn are settled after it, unless the searches were saturated. -/
theorem Turn.settles (h : Turn frontiers progress cuts next raised) (hhorizon : 0 ≤ horizon)
    (horderly : progress.Orderly frontiers) (hroom : ¬ frontiers.Saturated) (hcut : cut ∈ cuts) :
    raised.Settles cut := by
  obtain ⟨hopen, hclose, registered, hregister, hraise⟩ := h
  have hwaits := Progress.awaits_registerCuts horderly.awaits hopen hclose hregister
  have hlower := (Progress.queued_registerCuts hregister).lowerBound.trans horderly.lowerBound
  have hkey := Progress.keys_registerCuts hopen hregister (.inl (List.mem_map_of_mem hcut))
  refine Progress.settles_raiseBound hwaits hkey ?_ hraise
  intro _ hidle
  obtain ⟨c, hc, hsame⟩ := List.mem_map.mp hkey
  have hvalid : cut.Valid := Cut.valid_of_key hsame.symm (hwaits.valid c hc)
  rw [hlower] at hidle ⊢
  exact horderly.exact.le_of_mem_cuts hhorizon hclose hcut hvalid
    (Int.le_of_lt task.one_le_maxActionCost) hroom hidle

theorem Turns.settles (h : Turns frontiers progress made current reached)
    (horderly : progress.Orderly frontiers) (hsettles : progress.Settles cut) :
    reached.Settles cut := by
  refine (h.induction
    (P := fun _ current reached ↦ reached.Orderly current ∧ reached.Settles cut)
    ⟨horderly, hsettles⟩ ?_).2
  rintro _ _ _ _ _ _ ⟨hreached, hsettled⟩ hturn
  exact ⟨hreached.turn hturn, hsettled.turn hreached hturn⟩

/-! ## Cuts that are left behind -/

/-- The searches have not met before at the costs of a new cut. -/
theorem Frontiers.Exact.not_meets_of_mem_cuts (h : frontiers.Exact)
    (hclose : frontiers.closeNext? = some (cuts, next)) (hcut : cut ∈ cuts) (s : State) :
    ¬ frontiers.Meets cut.g cut.h s := by
  rintro ⟨hg, hh⟩
  rcases Frontiers.closeNext?_eq_some hclose with
    ⟨search, k, layer, search', _, hsearch, hnext, rfl, rfl⟩ |
    ⟨search, k, layer, search', _, hsearch, hnext, rfl, rfl⟩
  · obtain ⟨other, states, rfl, -⟩ :=
      Frontiers.of_mem_cutsWith (d := .forward) frontiers.backward? hcut
    obtain ⟨done, -, hdone⟩ := h.forward search hsearch
    rw [hsearch] at hg
    exact hdone.notMem_closedAt k (hdone.closeNext hnext).2.1 s hg
  · obtain ⟨other, states, rfl, -⟩ :=
      Frontiers.of_mem_cutsWith (d := .backward) frontiers.forward? hcut
    obtain ⟨done, -, hdone⟩ := h.backward search hsearch
    rw [hsearch] at hh
    exact hdone.notMem_closedAt k (hdone.closeNext hnext).2.1 s hh

/-- Saturated searches decide on nothing, since the bound stays where it is. -/
theorem Progress.Orderly.raiseBound_of_saturated (h : progress.Orderly frontiers)
    (hsaturated : frontiers.Saturated) (hnext : next.Saturated)
    (hlower : progress'.lowerBound = progress.lowerBound)
    (hraise : progress'.raiseBound (next.provenBound task.maxActionCost) view = .ok raised) :
    raised = progress' := by
  rcases Progress.raiseBound_eq_ok hraise with ⟨-, rfl⟩ | ⟨hlt, -⟩
  · rfl
  · have hle := le_max_right 0 (frontiers.provenBound task.maxActionCost)
    rw [hlower, h.lowerBound, hnext.provenBound_eq, ← hsaturated.provenBound_eq] at hlt
    exact absurd hle (Int.not_le.mpr hlt)

theorem Turn.events_of_saturated (h : Turn frontiers progress cuts next raised)
    (horderly : progress.Orderly frontiers) (hsaturated : frontiers.Saturated) :
    next.Saturated ∧ raised.registry.events = progress.registry.events := by
  obtain ⟨hopen, hclose, registered, hregister, hraise⟩ := h
  have hnext := hsaturated.closeNext horderly.exact hclose
  have hqueued := Progress.queued_registerCuts hregister
  obtain ⟨queue, hqueue⟩ := hqueued.registry
  refine ⟨hnext, ?_⟩
  rw [horderly.raiseBound_of_saturated hsaturated hnext hqueued.lowerBound hraise, hqueue]

theorem Turns.events_of_saturated (h : Turns frontiers progress made current reached)
    (horderly : progress.Orderly frontiers) (hsaturated : frontiers.Saturated) :
    current.Saturated ∧ reached.registry.events = progress.registry.events := by
  refine (h.induction
    (P := fun _ current reached ↦ reached.Orderly current ∧ current.Saturated ∧
      reached.registry.events = progress.registry.events) ⟨horderly, hsaturated, rfl⟩ ?_).2
  rintro _ _ _ _ _ _ ⟨hreached, hcurrent, hevents⟩ hturn
  obtain ⟨hnext, hsame⟩ := hturn.events_of_saturated hreached hcurrent
  exact ⟨hreached.turn hturn, hnext, hsame.trans hevents⟩

/-! ## Runs -/

section Run

variable {policy : RunPolicy} {outcome : RunOutcome}

/-- The run registers the cut, in a turn that starts from these searches. -/
def Task.Registers (task : Task) (policy : RunPolicy) (frontiers : Frontiers task policy.maxCost)
    (cut : Cut) : Prop :=
  ∃ database made progress cuts next raised, policy.database? = .ok database ∧
    Turns (.start task policy) (.start database policy) made frontiers progress ∧
    Turn frontiers progress cuts next raised ∧ cut ∈ cuts

/-- The last part of a run that ends without enough plans: from a turn of its own to the end. -/
theorem exists_end_of_run {next : Frontiers task policy.maxCost} {database : PlanDatabase}
    (hrun : run task policy = .ok outcome) (hopen : outcome.termination ≠ .foundAllPlans)
    (hdatabase : policy.database? = .ok database)
    (hturns : Turns (.start task policy) (.start database policy) made next raised) :
    ∃ (rest : List Cut) (current : Frontiers task policy.maxCost) (reached last : Progress),
      Turns next raised rest current reached ∧ current.closeNext? = none ∧
      reached.raiseBound (current.provenBound task.maxActionCost) current.view = .ok last ∧
      last.registry.foundAll = false ∧ outcome = .ofLast outcome.termination last := by
  obtain ⟨-, database', last, hdatabase', hloop, houtcome⟩ := exists_last_of_run hrun
  obtain rfl := Except.ok.inj (hdatabase.symm.trans hdatabase')
  obtain ⟨rest, current, reached, hrest, hends⟩ := exists_turns next raised
  rw [← hturns.runFrom_eq, hloop] at hends
  generalize outcome.termination = termination at hopen hends houtcome ⊢
  cases hends with
  | found => exact absurd rfl hopen
  | exhausted _ hclose hraise =>
    refine ⟨rest, current, reached, last, hrest, hclose, hraise, ?_, houtcome⟩
    rw [← Bool.not_eq_true, ← Progress.exhausted_eq_foundAllPlans_iff]
    exact hopen

/-- If a run ends without enough plans, a cut below the lower bound has been decided on exactly if
the searches were not saturated when it was registered. -/
theorem Task.Registers.disposedIn_iff {frontiers : Frontiers task policy.maxCost}
    (h : task.Registers policy frontiers cut) (hlawful : task.Lawful)
    (hrun : run task policy = .ok outcome) (hopen : outcome.termination ≠ .foundAllPlans)
    (hbelow : cut.f < outcome.lowerBound) :
    cut.DisposedIn outcome.report.events ↔ ¬ frontiers.Saturated := by
  obtain ⟨database, made, progress, cuts, next, raised, hdatabase, hturns, hturn, hcut⟩ := h
  obtain ⟨rest, current, reached, last, hrest, -, hraise, hall, houtcome⟩ :=
    exists_end_of_run hrun hopen hdatabase (hturns.snoc hturn)
  have hpolicy := (run_eq_ok hrun).1
  have horderly := hturns.orderly (Progress.orderly_start hlawful hpolicy database)
  have hraised := horderly.turn hturn
  have hreached := hrest.orderly hraised
  rw [houtcome] at hbelow ⊢
  constructor
  · -- Nothing is decided on any more, and nothing has been at these costs before.
    rintro ⟨event, hevent, hdisposes⟩ hsaturated
    obtain ⟨hnext, hsame⟩ := hturn.events_of_saturated horderly hsaturated
    obtain ⟨hcurrent, hrest⟩ := hrest.events_of_saturated hraised hnext
    obtain rfl := hreached.raiseBound_of_saturated hcurrent hcurrent rfl hraise
    change event ∈ last.registry.events at hevent
    rw [hrest, hsame] at hevent
    obtain ⟨s, hs⟩ := horderly.awaits.decided event hevent
    rw [hdisposes.g, hdisposes.h] at hs
    exact horderly.exact.not_meets_of_mem_cuts hturn.closes hcut s hs
  · intro hroom
    have hsettles := hrest.settles hraised (hturn.settles hpolicy horderly hroom hcut)
    rcases hsettles.raiseBound hreached.awaits hraise with hdisposed | ⟨-, habove⟩
    · exact hdisposed
    · exact absurd (habove hall) (Int.not_le.mpr hbelow)

/-- Under a policy with a sensible horizon the searches are never saturated. -/
theorem Task.Registers.not_saturated {frontiers : Frontiers task policy.maxCost}
    (h : task.Registers policy frontiers cut)
    (hmoderate : policy.mode ≠ .bidirectional ∨ policy.maxCost ≤ (Cost.max - 2) / 2) :
    ¬ frontiers.Saturated := by
  obtain ⟨database, made, progress, cuts, next, raised, -, hturns, -⟩ := h
  have hcloses := (hturns.awaits (.ofStore _ database policy.singleSolution)).1
  exact (Frontiers.serves_of_closes hcloses).not_saturated hmoderate

/-- The upper bound of a progress is the cost of a cut that the run registers. -/
theorem Turns.exists_registers {database : PlanDatabase} {current : Frontiers task policy.maxCost}
    (h : Turns (.start task policy) (.start database policy) made current reached)
    (hdatabase : policy.database? = .ok database) {u : Int}
    (hupper : reached.upperBound? = some u) :
    ∃ frontiers cut, task.Registers policy frontiers cut ∧ cut.f = u := by
  induction h with
  | refl => cases hupper
  | snoc hturns hlast ih =>
    obtain ⟨registered, hregister, hraise⟩ := hlast.raises
    rw [Progress.upperBound?_raiseBound hraise] at hupper
    rcases Progress.upperBound?_registerCuts hlast.missing hregister hupper with
      hold | ⟨cut, hcut, hf⟩
    · exact ih hold
    · exact ⟨_, cut, ⟨database, _, _, _, _, _, hdatabase, hturns, hlast, hcut⟩, hf⟩

/-- So is the upper bound of an outcome. -/
theorem exists_registers_of_run (hrun : run task policy = .ok outcome)
    (hopen : outcome.termination ≠ .foundAllPlans) {u : Int}
    (hupper : outcome.upperBound? = some u) :
    ∃ frontiers cut, task.Registers policy frontiers cut ∧ cut.f = u := by
  obtain ⟨-, database, -, hdatabase, -⟩ := exists_last_of_run hrun
  obtain ⟨made, current, reached, last, hturns, -, hraise, -, houtcome⟩ :=
    exists_end_of_run hrun hopen hdatabase .refl
  rw [houtcome] at hupper
  exact hturns.exists_registers hdatabase
    ((Progress.upperBound?_raiseBound hraise).symm.trans hupper)

/-- A run that ends without enough plans has decided on a registered cut below its lower bound
exactly if the searches were not saturated when it was registered.  They never are in a run from one
end, or if the horizon is less than half of the largest cost; then all cuts below the lower bound
have been decided on, and so has one at the upper bound, if that is less. -/
theorem decided_iff_of_run {task : ExplicitTask} (hrun : run task.toTask policy = .ok outcome)
    (hopen : outcome.termination ≠ .foundAllPlans) :
    (∀ frontiers cut, task.toTask.Registers policy frontiers cut →
      cut.f < outcome.lowerBound →
      (cut.DisposedIn outcome.report.events ↔ ¬ frontiers.Saturated)) ∧
    (policy.mode ≠ .bidirectional ∨ policy.maxCost ≤ (Cost.max - 2) / 2 →
      (∀ frontiers cut, task.toTask.Registers policy frontiers cut →
        cut.f < outcome.lowerBound → cut.DisposedIn outcome.report.events) ∧
      ∀ u, outcome.upperBound? = some u → u < outcome.lowerBound →
        ∃ event ∈ outcome.report.events, event.f = u) := by
  have hiff : ∀ frontiers cut, task.toTask.Registers policy frontiers cut →
      cut.f < outcome.lowerBound →
        (cut.DisposedIn outcome.report.events ↔ ¬ frontiers.Saturated) :=
    fun _ _ hregisters ↦ hregisters.disposedIn_iff task.lawful hrun hopen
  have hall : policy.mode ≠ .bidirectional ∨ policy.maxCost ≤ (Cost.max - 2) / 2 →
      ∀ frontiers cut, task.toTask.Registers policy frontiers cut →
        cut.f < outcome.lowerBound → cut.DisposedIn outcome.report.events :=
    fun hmoderate frontiers cut hregisters hbelow ↦
      (hiff frontiers cut hregisters hbelow).mpr (hregisters.not_saturated hmoderate)
  refine ⟨hiff, fun hmoderate ↦ ⟨hall hmoderate, ?_⟩⟩
  intro u hupper hbelow
  obtain ⟨frontiers, cut, hregisters, rfl⟩ := exists_registers_of_run hrun hopen hupper
  obtain ⟨event, hevent, hdisposes⟩ := hall hmoderate frontiers cut hregisters hbelow
  exact ⟨event, hevent, hdisposes.f⟩

/-- The run on the cycle looks for more plans than there are, and decides on the cut at its upper
bound. -/
theorem cycle_decided_iff_of_run :
    ∃ outcome, run cycle.toTask { maxCost := 5, selection := .topK 100 } = .ok outcome ∧
      outcome.termination ≠ .foundAllPlans ∧
      (∃ frontiers cut,
        cycle.toTask.Registers { maxCost := 5, selection := .topK 100 } frontiers cut ∧
          cut.f < outcome.lowerBound ∧ cut.DisposedIn outcome.report.events) ∧
      outcome.upperBound? = some 1 ∧ ∃ event ∈ outcome.report.events, event.f = 1 := by
  obtain ⟨outcome, hrun, hknown⟩ := exists_outcome_of_map
    (show (run cycle.toTask { maxCost := 5, selection := .topK 100 }).toOption.map
        (fun outcome ↦ (outcome.termination, outcome.lowerBound, outcome.upperBound?)) =
      some (.horizonExhausted, 11, some 1) by decide +kernel)
  obtain ⟨htermination, hknown⟩ := Prod.mk.inj hknown
  obtain ⟨hlower, hupper⟩ := Prod.mk.inj hknown
  have hopen : outcome.termination ≠ .foundAllPlans := by
    rw [htermination]
    nofun
  have hbelow : 1 < outcome.lowerBound := by
    rw [hlower]
    decide
  obtain ⟨hcuts, hevents⟩ := (decided_iff_of_run hrun hopen).2 (.inr (by decide))
  obtain ⟨frontiers, cut, hregisters, hf⟩ := exists_registers_of_run hrun hopen hupper
  have hcut : cut.f < outcome.lowerBound := by
    rw [hf]
    exact hbelow
  exact ⟨outcome, hrun, hopen,
    ⟨frontiers, cut, hregisters, hcut, hcuts frontiers cut hregisters hcut⟩, hupper,
    hevents 1 hupper hbelow⟩

/-- With the largest horizon the searches are saturated before they meet.  The run registers the cut
that has the empty plan, which costs nothing, and leaves it behind. -/
theorem arrived_left_behind :
    ∃ outcome, run arrived.toTask .farthest = .ok outcome ∧
      outcome.termination = .noSolution ∧
      (∃ frontiers cut, arrived.toTask.Registers .farthest frontiers cut ∧
        cut.f < outcome.lowerBound ∧ ¬ cut.DisposedIn outcome.report.events) ∧
      ∃ u, outcome.upperBound? = some u ∧ u < outcome.lowerBound ∧
        ¬ ∃ event ∈ outcome.report.events, event.f = u := by
  obtain ⟨outcome, hrun, hknown⟩ := exists_outcome_of_map
    (show (run arrived.toTask .farthest).toOption.map (fun outcome ↦
        (outcome.termination, outcome.lowerBound, outcome.upperBound?, outcome.report.events)) =
      some (.noSolution, Cost.max - 1, some 0, []) by decide +kernel)
  obtain ⟨htermination, hknown⟩ := Prod.mk.inj hknown
  obtain ⟨hlower, hknown⟩ := Prod.mk.inj hknown
  obtain ⟨hupper, hevents⟩ := Prod.mk.inj hknown
  have hopen : outcome.termination ≠ .foundAllPlans := by
    rw [htermination]
    nofun
  have hbelow : 0 < outcome.lowerBound := by
    rw [hlower]
    decide
  have hnone : ∀ {p : CutEvent → Prop}, ¬ ∃ event ∈ outcome.report.events, p event := by
    rw [hevents]
    rintro p ⟨event, hevent, -⟩
    exact absurd hevent List.not_mem_nil
  obtain ⟨frontiers, cut, hregisters, hf⟩ := exists_registers_of_run hrun hopen hupper
  refine ⟨outcome, hrun, htermination, ⟨frontiers, cut, hregisters, ?_, hnone⟩,
    0, hupper, hbelow, hnone⟩
  rw [hf]
  exact hbelow

end Run

end LayeredPlanning
