import LayeredPlanning.Proofs.Reconstruction.Soundness
import LayeredPlanning.Proofs.Run.Decided
import LayeredPlanning.Proofs.Run.Quality

/-!
# The upper bound of a run

The upper bound is the cost of the cheapest cut that a run has registered.  Whatever the searches
have met at they have registered, so between two turns the upper bound is the least cost of a
meeting (`Progress.Priced`).  A meeting joins a path to a goal
(`Frontiers.Exact.meetingCosts_subset`), and once all layers are closed there is a meeting at the
cost of every path within the horizon (`Frontiers.Exact.mem_meetingCosts`).

So the upper bound is never below the cost of a cheapest path.  It is not above it either: if a run
ends for want of layers that path is met, and if it ends with a plan the first plan is optimal, and
came from a meeting.
-/

namespace LayeredPlanning

/-- The costs of all paths to a goal. -/
def Task.goalCosts (task : Task) : Set Int :=
  {c | ∃ (es : List (Step task.transitions)) (t : State),
    Leads task.initial es t ∧ t ∈ task.goals ∧ pathCost es = c}

/-- Every path to a goal costs what an eligible one costs. -/
theorem Task.Lawful.eligibleCosts_false {task : Task} (h : task.Lawful) :
    task.eligibleCosts false = task.goalCosts := by
  ext c
  constructor
  · rintro ⟨es, hes, rfl⟩
    obtain ⟨t, hleads, hgoal⟩ := hes.goal
    exact ⟨es, t, hleads, (h.isGoal_iff t).mp hgoal, rfl⟩
  · rintro ⟨es, t, hleads, hgoal, rfl⟩
    obtain ⟨fs, hfs, hcost, hsimple⟩ := exists_levelSimple hleads
    exact ⟨fs, ⟨⟨t, hfs, (h.isGoal_iff t).mpr hgoal⟩, hsimple, nofun⟩, hcost⟩

/-- The least of the costs, if there are any. -/
def Cheapest (costs : Set Int) : Option Int → Prop
  | none => costs = ∅
  | some best => IsLeast costs best

namespace Cheapest

variable {costs : Set Int} {best? : Option Int} {c : Int}

/-- Another cost is the least one if it is less than what was the least. -/
theorem insert (h : Cheapest costs best?) (c : Int) :
    Cheapest (insert c costs) (some (CutRegistry.leastOf best? c)) := by
  cases best? with
  | none =>
    obtain rfl : costs = ∅ := h
    rw [insert_empty_eq]
    exact isLeast_singleton
  | some best =>
    rw [CutRegistry.leastOf_some, min_comm]
    exact IsLeast.insert c h

theorem mem (h : Cheapest costs best?) (hbest : best? = some c) : c ∈ costs := by
  subst hbest
  exact h.1

theorem eq_some (h : Cheapest costs best?) (hc : IsLeast costs c) : best? = some c := by
  cases best? with
  | none =>
    obtain rfl : costs = ∅ := h
    exact absurd hc.1 (Set.notMem_empty c)
  | some best => exact congrArg some (IsLeast.unique h hc)

end Cheapest

variable {task : Task} {d : Direction} {horizon : Int}

/-! ## The costs of meetings -/

/-- Only reached states are closed. -/
theorem ClosedBy.reachedAt {search? : Option (LayerSearch task d horizon)} {s : State} {c : Int}
    (hexact : ∀ search, search? = some search → ∃ done, -1 ≤ done ∧ search.Exact done)
    (hs : ClosedBy search? s c) : ReachedAt task d s c := by
  cases search? with
  | none =>
    obtain ⟨rfl, hroot⟩ := hs
    exact .root hroot
  | some search =>
    obtain ⟨done, -, hdone⟩ := hexact search rfl
    exact (hdone.reachedAt hs).2

namespace Frontiers

variable {frontiers next : Frontiers task horizon} {cuts : List Cut} {c : Int}

/-- The costs at which the searches meet. -/
def meetingCosts (frontiers : Frontiers task horizon) : Set Int :=
  {c | ∃ g h s, frontiers.Meets g h s ∧ g + h = c}

theorem meetingCosts_start (task : Task) {policy : RunPolicy} (hpolicy : 0 ≤ policy.maxCost) :
    (Frontiers.start task policy).meetingCosts = ∅ := by
  rw [Set.eq_empty_iff_forall_notMem]
  rintro _ ⟨g, h, s, hmeets, rfl⟩
  exact not_meets_start task hpolicy g h s hmeets

/-- A new layer adds the costs of its cuts. -/
theorem meetingCosts_closeNext (hclose : frontiers.closeNext? = some (cuts, next))
    (hvalid : ∀ cut ∈ cuts, cut.Valid) :
    next.meetingCosts = frontiers.meetingCosts ∪ Cut.f '' {cut | cut ∈ cuts} := by
  ext c
  constructor
  · rintro ⟨g, h, s, hmeets, rfl⟩
    rcases meets_of_closeNext? hclose hmeets with hold | ⟨cut, hcut, rfl, rfl, -⟩
    · exact .inl ⟨g, h, s, hold, rfl⟩
    · exact .inr ⟨cut, hcut, (hvalid cut hcut).f_eq⟩
  · rintro (⟨g, h, s, hmeets, rfl⟩ | ⟨cut, hcut, rfl⟩)
    · exact ⟨g, h, s, hmeets.closeNext hclose, rfl⟩
    · obtain ⟨⟨s, hs⟩, hall⟩ := meets_of_mem_cuts hclose hcut
      exact ⟨cut.g, cut.h, s, hall s hs, (hvalid cut hcut).f_eq.symm⟩

/-- Where the searches meet, the path that leads there and the one that leads on make a path to a
goal. -/
theorem Exact.meetingCosts_subset (h : frontiers.Exact)
    (hcons : ∀ r ∈ task.transitions.relations, r.Consistent) :
    frontiers.meetingCosts ⊆ task.goalCosts := by
  rintro _ ⟨g, k, s, ⟨hforward, hbackward⟩, rfl⟩
  obtain ⟨es, hes, rfl⟩ := reachedAt_forward_iff.mp (hforward.reachedAt h.forward)
  obtain ⟨fs, t, hfs, hgoal, rfl⟩ :=
    (reachedAt_backward_iff hcons).mp (hbackward.reachedAt h.backward)
  exact ⟨es ++ fs, t, Leads.append_iff.mpr ⟨s, hes, hfs⟩, hgoal, pathCost_append es fs⟩

/-- With all layers closed, the searches have met at the cost of every path within the horizon: at
its end, or at its start if there is no search from the initial state. -/
theorem Exact.mem_meetingCosts (h : frontiers.Exact)
    (hcons : ∀ r ∈ task.transitions.relations, r.Consistent)
    (hclose : frontiers.closeNext? = none) (hc : c ∈ task.goalCosts) (hle : c ≤ horizon) :
    c ∈ frontiers.meetingCosts := by
  obtain ⟨es, t, hes, hgoal, rfl⟩ := hc
  have hhorizon : pathCost ([] : List (Step task.transitions)) ≤ horizon :=
    Int.le_trans (pathCost_nonneg es) hle
  obtain ⟨hforward, hbackward⟩ := closeNext?_eq_none hclose
  have hthrough : ∀ {d : Direction} {search? : Option (LayerSearch task d horizon)},
      search?.bind (·.nextCost?) = none →
        ∀ search, search? = some search → search.closedThrough = horizon := by
    rintro d _ hnone search rfl
    rw [Option.bind_some] at hnone
    rw [LayerSearch.closedThrough, hnone]
  cases hf : frontiers.forward? with
  | some f =>
    have hreaches : frontiers.Reaches es [] := by
      refine ⟨?_, ?_, ?_, fun _ ↦ rfl⟩
      · intro search hsearch
        rwa [hthrough hforward search hsearch]
      · intro search hsearch
        rwa [hthrough hbackward search hsearch]
      · intro hnone
        rw [hf] at hnone
        cases hnone
    have hbefore := (hreaches.closed_before h hes).1
    have hafter := (hreaches.closed_after (g := 0) h hcons (.nil t) hgoal).1
    exact ⟨_, _, t, ⟨hbefore, hafter⟩, Int.add_zero _⟩
  | none =>
    have hreaches : frontiers.Reaches [] es := by
      refine ⟨?_, ?_, fun _ ↦ rfl, ?_⟩
      · intro search hsearch
        rw [hf] at hsearch
        cases hsearch
      · intro search hsearch
        rwa [hthrough hbackward search hsearch]
      · intro hb
        have hsearched := h.searched
        rw [hf, hb] at hsearched
        exact absurd hsearched (by simp)
    have hbefore := (hreaches.closed_before h (.nil task.initial)).1
    have hafter := (hreaches.closed_after (g := 0) h hcons hes hgoal).1
    exact ⟨_, _, task.initial, ⟨hbefore, hafter⟩, Int.zero_add _⟩

end Frontiers

/-! ## The costs of plans -/

namespace CutRegistry

/-- The cuts are valid, and have some of the costs, and so do the plans. -/
structure CostsIn (costs : Set Int) (registry : CutRegistry PlanDatabase) : Prop where
  valid : ∀ cut ∈ registry.cuts, cut.Valid
  cuts : ∀ cut ∈ registry.cuts, cut.f ∈ costs
  plans : ∀ plan ∈ registry.store.plans, plan.cost ∈ costs

namespace CostsIn

variable {costs : Set Int} {registry registry' : CutRegistry PlanDatabase} {view : LayerView}
  {bound : Int} {cut : Cut} {rest : List Cut}

/-- A plan costs what the cut costs that it is reconstructed from. -/
theorem reconstruct (h : registry.CostsIn costs)
    (hcons : ∀ r ∈ view.task.transitions.relations, r.Consistent)
    (hup : registry.ComesUp bound cut rest) (hcuts : registry'.cuts ⊆ registry.cuts)
    (hstore : registry'.store =
      (LayeredPlanning.reconstruct view cut registry.missing registry.store).2) :
    registry'.CostsIn costs := by
  have hcut : cut ∈ registry.cuts := by
    rw [hup.cuts]
    exact List.mem_cons_self
  refine ⟨fun c hc ↦ h.valid c (hcuts hc), fun c hc ↦ h.cuts c (hcuts hc), ?_⟩
  intro plan hplan
  rw [hstore] at hplan
  rcases mem_plans_reconstruct hcons (h.valid cut hcut) hplan with hold | ⟨hcost, -⟩
  · exact h.plans plan hold
  · rw [hcost]
    exact h.cuts cut hcut

theorem decides (h : registry.CostsIn costs)
    (hcons : ∀ r ∈ view.task.transitions.relations, r.Consistent)
    (hdecides : Decides bound view registry registry') : registry'.CostsIn costs := by
  have hrest : ∀ {cut : Cut} {rest : List Cut}, registry.ComesUp bound cut rest →
      rest ⊆ registry.cuts := by
    intro cut rest hup
    rw [hup.cuts]
    exact List.subset_cons_self cut rest
  cases hdecides with
  | drop hup =>
    exact ⟨fun c hc ↦ h.valid c (hrest hup hc), fun c hc ↦ h.cuts c (hrest hup hc), h.plans⟩
  | reconstruct hup _ _ hrec =>
    refine h.reconstruct hcons hup (hrest hup) ?_
    rw [hrec]
    rfl

theorem stops (h : registry.CostsIn costs)
    (hcons : ∀ r ∈ view.task.transitions.relations, r.Consistent)
    {result : Except ReconstructionError (Option Int)}
    (hstops : registry.Stops bound view (result, registry')) : registry'.CostsIn costs := by
  cases hstops with
  | done => exact h
  | @refuse _ cut =>
    refine ⟨h.valid, h.cuts, ?_⟩
    have hstore : (registry.refused cut).store = registry.store.closeAtCost cut.f := rfl
    rw [hstore, PlanDatabase.plans_closeAtCost]
    exact h.plans
  | fail hup hrec =>
    refine h.reconstruct hcons hup (List.Subset.refl _) ?_
    rw [hrec]

theorem construct (h : registry.CostsIn costs)
    (hcons : ∀ r ∈ view.task.transitions.relations, r.Consistent) (bound : Int) :
    (registry.construct bound view).2.CostsIn costs :=
  construct_induction (P := fun registry ↦ registry.CostsIn costs)
    (fun _ _ h hdecides ↦ h.decides hcons hdecides) (fun _ _ _ h hstops ↦ h.stops hcons hstops)
    (fun _ _ h ↦ ⟨h.valid, h.cuts, h.plans⟩) h

end CostsIn

/-- The searches meet at the costs of the cuts that wait. -/
theorem Awaits.costsIn {frontiers : Frontiers task horizon} {registry : CutRegistry PlanDatabase}
    (h : registry.Awaits frontiers)
    (hplans : ∀ plan ∈ registry.store.plans, plan.cost ∈ frontiers.meetingCosts) :
    registry.CostsIn frontiers.meetingCosts := by
  refine ⟨h.valid, ?_, hplans⟩
  intro cut hcut
  obtain ⟨s, hs⟩ := h.occupied cut hcut
  exact ⟨cut.g, cut.h, s, h.meets cut hcut s hs, (h.valid cut hcut).f_eq.symm⟩

end CutRegistry

/-! ## The invariant -/

section Turns

variable {frontiers next current : Frontiers task horizon}
  {progress progress' reached raised : Progress} {cuts made : List Cut} {bound : Int}

namespace Progress

/-- The upper bound takes in the costs of the cuts that are registered. -/
theorem cheapest_registerCuts {costs : Set Int} (h : Cheapest costs progress.upperBound?)
    (hopen : progress.registry.foundAll = false)
    (hregister : progress.registerCuts cuts = .ok progress') :
    Cheapest (costs ∪ Cut.f '' {cut | cut ∈ cuts}) progress'.upperBound? := by
  refine (registerCuts_induction (P := fun made current ↦
    Cheapest (costs ∪ Cut.f '' {cut | cut ∈ made}) current.upperBound?)
      ?_ [] hopen ?_ hregister).1
  · intro made current cut registry ih _
    have hmade : costs ∪ Cut.f '' {c | c ∈ made ++ [cut]} =
        insert cut.f (costs ∪ Cut.f '' {c | c ∈ made}) := by
      ext c
      simp only [List.mem_append, List.mem_singleton]
      grind
    rw [hmade]
    exact ih.insert cut.f
  · simpa using h

/-- Cuts that have been registered are valid. -/
theorem valid_of_registerCuts (h : progress.registry.Awaits frontiers)
    (hopen : progress.registry.foundAll = false)
    (hclose : frontiers.closeNext? = some (cuts, next))
    (hregister : progress.registerCuts cuts = .ok progress') : ∀ cut ∈ cuts, cut.Valid := by
  intro cut hcut
  obtain ⟨c, hc, hkey⟩ :=
    List.mem_map.mp (keys_registerCuts hopen hregister (.inl (List.mem_map_of_mem hcut)))
  exact Cut.valid_of_key hkey.symm ((awaits_registerCuts h hopen hclose hregister).valid c hc)

/-- The upper bound is the least cost of a meeting, and every plan came from one. -/
structure Priced (frontiers : Frontiers task horizon) (progress : Progress) : Prop where
  upperBound : Cheapest frontiers.meetingCosts progress.upperBound?
  plans : ∀ plan ∈ progress.plans, plan.cost ∈ frontiers.meetingCosts

namespace Priced

/-- The cuts of a new layer bring the upper bound down to the new meetings. -/
theorem registerCuts (h : progress.Priced frontiers) (hwaits : progress.registry.Awaits frontiers)
    (hopen : progress.registry.foundAll = false)
    (hclose : frontiers.closeNext? = some (cuts, next))
    (hregister : progress.registerCuts cuts = .ok progress') : progress'.Priced next := by
  have hcosts := Frontiers.meetingCosts_closeNext hclose
    (valid_of_registerCuts hwaits hopen hclose hregister)
  constructor
  case upperBound =>
    rw [hcosts]
    exact cheapest_registerCuts h.upperBound hopen hregister
  case plans =>
    rw [(queued_registerCuts hregister).plans, hcosts]
    exact fun plan hplan ↦ .inl (h.plans plan hplan)

theorem raiseBound (h : progress.Priced frontiers) (hwaits : progress.registry.Awaits frontiers)
    (hcons : ∀ r ∈ task.transitions.relations, r.Consistent)
    (hraise : progress.raiseBound bound frontiers.view = .ok raised) : raised.Priced frontiers := by
  constructor
  case upperBound =>
    rw [upperBound?_raiseBound hraise]
    exact h.upperBound
  case plans =>
    rcases raiseBound_eq_ok hraise with ⟨-, rfl⟩ | ⟨-, -, hconstruct, -⟩
    · exact h.plans
    · have hcosts : (progress.registry.construct bound frontiers.view).2.CostsIn _ :=
        (hwaits.costsIn h.plans).construct hcons bound
      rw [hconstruct] at hcosts
      exact hcosts.plans

theorem turn (h : progress.Priced frontiers) (hwaits : progress.registry.Awaits frontiers)
    (hcons : ∀ r ∈ task.transitions.relations, r.Consistent)
    (hturn : Turn frontiers progress cuts next raised) : raised.Priced next := by
  obtain ⟨hopen, hclose, registered, hregister, hraise⟩ := hturn
  exact (h.registerCuts hwaits hopen hclose hregister).raiseBound
    (awaits_registerCuts hwaits hopen hclose hregister) hcons hraise

end Priced

end Progress

/-- Turns keep the upper bound at the least cost of a meeting. -/
theorem Turns.priced (h : Turns frontiers progress made current reached)
    (hcons : ∀ r ∈ task.transitions.relations, r.Consistent)
    (horderly : progress.Orderly frontiers) (hpriced : progress.Priced frontiers) :
    reached.Priced current := by
  refine (h.induction
    (P := fun _ current reached ↦ reached.Orderly current ∧ reached.Priced current)
    ⟨horderly, hpriced⟩ ?_).2
  rintro _ _ _ _ _ _ ⟨hreached, hpriced⟩ hturn
  exact ⟨hreached.turn hturn, hpriced.turn hreached.awaits hcons hturn⟩

end Turns

/-! ## Runs -/

section Run

variable {policy : RunPolicy} {outcome : RunOutcome}

/-- The upper bound of an outcome is the least cost of a meeting, at which its plans were found.  It
ends with enough plans, or the searches have met at the costs of all paths within the horizon. -/
theorem exists_cheapest_of_run (hlawful : task.Lawful) (hrun : run task policy = .ok outcome) :
    ∃ costs ⊆ task.goalCosts, Cheapest costs outcome.upperBound? ∧
      (∀ plan ∈ outcome.plans, plan.cost ∈ costs) ∧
      (outcome.termination = .foundAllPlans ∨
        ∀ c ∈ task.goalCosts, c ≤ policy.maxCost → c ∈ costs) := by
  obtain ⟨hfault, database, last, hdatabase, hloop, houtcome⟩ := exists_last_of_run hrun
  obtain ⟨hpolicy, -⟩ := RunPolicy.exists_database hfault
  obtain ⟨made, current, reached, hturns, hends⟩ :=
    exists_turns (Frontiers.start task policy) (Progress.start database policy)
  have hstart := Progress.orderly_start hlawful hpolicy database
  have hpriced : (Progress.start database policy).Priced (Frontiers.start task policy) := by
    constructor
    case upperBound => exact Frontiers.meetingCosts_start task hpolicy
    case plans =>
      have hnone : (Progress.start database policy).plans = [] :=
        PlanDatabase.plans_of_ofSelection? hdatabase
      rw [hnone]
      exact fun plan hplan ↦ absurd hplan List.not_mem_nil
  have hreached := hturns.priced hlawful.consistent hstart hpriced
  have horderly := hturns.orderly hstart
  have hsubset := horderly.exact.meetingCosts_subset hlawful.consistent
  rw [hloop] at hends
  rw [houtcome]
  generalize outcome.termination = termination at hends ⊢
  cases hends with
  | found => exact ⟨_, hsubset, hreached.upperBound, hreached.plans, .inl rfl⟩
  | exhausted _ hclose hraise =>
    have hlast := hreached.raiseBound horderly.awaits hlawful.consistent hraise
    exact ⟨_, hsubset, hlast.upperBound, hlast.plans, .inr fun c hc hle ↦
      horderly.exact.mem_meetingCosts hlawful.consistent hclose hc hle⟩

/-- The first plan of a run is an optimal one. -/
theorem isLeast_cost_of_run {task : ExplicitTask} {plan : Plan} {rest : List Plan}
    (hrun : run task.toTask policy = .ok outcome) (hfirst : outcome.plans = plan :: rest) :
    IsLeast (task.toTask.eligibleCosts policy.simpleOnly) plan.cost := by
  have hsome : outcome.plans ≠ [] := hfirst ▸ List.cons_ne_nil plan rest
  obtain ⟨last, heq, -, hsettled, hwishes⟩ :=
    exists_settled_of_run task.lawful (not_stalls_of_run hrun (.inl hsome)) hrun
  have hbest : last.registry.store.optimalCost? = some plan.cost := by
    have hlast : last.registry.store.plans = plan :: rest := by
      rw [heq] at hfirst
      exact hfirst
    rw [hsettled.database.optimalCost?, hlast]
    rfl
  have hsimple : last.registry.store.simpleOnly = policy.simpleOnly :=
    (Prod.mk.inj (Prod.mk.inj hwishes).2).1
  rw [← hsimple]
  exact hsettled.database.isLeast_of_optimalCost? hbest

/-- A run that has found enough plans has found one. -/
theorem exists_plan_of_foundAllPlans {task : ExplicitTask}
    (hrun : run task.toTask policy = .ok outcome) (hfound : outcome.termination = .foundAllPlans) :
    ∃ plan rest, outcome.plans = plan :: rest := by
  obtain ⟨last, heq, htermination, hsettled, -⟩ :=
    exists_settled_of_run task.lawful (not_stalls_of_run hrun (.inr hfound)) hrun
  rw [htermination, Progress.exhausted_eq_foundAllPlans_iff] at hfound
  rw [heq]
  exact List.exists_cons_of_length_pos (hsettled.found_pos hfound)

/-- The upper bound of a run is the cost of a path to a goal.  It is the cost of the first plan if
there is one, than which no path to a goal is cheaper, and the cost of a cheapest path if that is
within the horizon, however the run ends. -/
theorem upperBound_of_run {task : ExplicitTask} (hsimple : policy.simpleOnly = false)
    (hrun : run task.toTask policy = .ok outcome) :
    (∀ u, outcome.upperBound? = some u → u ∈ task.toTask.goalCosts) ∧
    (∀ plan rest, outcome.plans = plan :: rest →
      outcome.upperBound? = some plan.cost ∧ IsLeast task.toTask.goalCosts plan.cost) ∧
    ∀ c, IsLeast task.toTask.goalCosts c → c ≤ policy.maxCost →
      outcome.upperBound? = some c := by
  obtain ⟨costs, hsubset, hcheapest, hplans, hends⟩ := exists_cheapest_of_run task.lawful hrun
  -- A cost that the searches have met at and that no path undercuts is the upper bound.
  have hupper : ∀ c ∈ costs, IsLeast task.toTask.goalCosts c → outcome.upperBound? = some c :=
    fun c hc hleast ↦ hcheapest.eq_some ⟨hc, fun b hb ↦ hleast.2 (hsubset hb)⟩
  have hfirst : ∀ plan rest, outcome.plans = plan :: rest →
      outcome.upperBound? = some plan.cost ∧ IsLeast task.toTask.goalCosts plan.cost := by
    intro plan rest hfirst
    have hleast := isLeast_cost_of_run hrun hfirst
    rw [hsimple, task.lawful.eligibleCosts_false] at hleast
    refine ⟨hupper _ (hplans plan ?_) hleast, hleast⟩
    rw [hfirst]
    exact List.mem_cons_self
  refine ⟨fun u hu ↦ hsubset (hcheapest.mem hu), hfirst, ?_⟩
  intro c hleast hwithin
  rcases hends with hfound | hall
  · obtain ⟨plan, rest, hcons⟩ := exists_plan_of_foundAllPlans hrun hfound
    obtain ⟨hbound, hoptimal⟩ := hfirst plan rest hcons
    rw [hbound, IsLeast.unique hoptimal hleast]
  · exact hupper c (hall c hleast.1 hwithin) hleast

/-- At the fork the cheaper way costs one.  A run that finds both ways has the upper bound from the
first plan. -/
theorem fork_upperBound_of_run :
    ∃ outcome, run fork.toTask { maxCost := 5, selection := .topK 2 } = .ok outcome ∧
      (1 ∈ fork.toTask.goalCosts) ∧ outcome.upperBound? = some 1 ∧
      ∃ plan rest, outcome.plans = plan :: rest ∧ IsLeast fork.toTask.goalCosts plan.cost := by
  obtain ⟨outcome, hrun, hknown⟩ := exists_outcome_of_map
    (show (run fork.toTask { maxCost := 5, selection := .topK 2 }).toOption.map
        (fun outcome ↦ (outcome.upperBound?, outcome.plans.length)) =
      some (some 1, 2) by decide +kernel)
  obtain ⟨hupper, hlength⟩ := Prod.mk.inj hknown
  obtain ⟨hpath, hfirst, hcheapest⟩ := upperBound_of_run rfl hrun
  obtain ⟨plan, rest, hplans⟩ := List.exists_cons_of_length_pos (hlength ▸ Nat.two_pos)
  obtain ⟨hcost, hleast⟩ := hfirst plan rest hplans
  have hone : plan.cost = 1 := Option.some.inj (hcost.symm.trans hupper)
  exact ⟨outcome, hrun, hpath 1 hupper, hcheapest 1 (hone ▸ hleast) (by decide), plan, rest,
    hplans, hleast⟩

end Run

end LayeredPlanning
