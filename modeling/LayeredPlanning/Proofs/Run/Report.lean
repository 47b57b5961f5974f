import LayeredPlanning.Proofs.Reconstruction.Bookkeeping
import LayeredPlanning.Proofs.Reconstruction.Watermark
import LayeredPlanning.Proofs.Run.Decided
import LayeredPlanning.Proofs.Run.Quality
import Mathlib.Data.Finset.Card

/-!
# The report of a run

The counters of a report come from the database and from the registry, and its log is written cut by
cut, at bounds that rise from turn to turn.  `CutRegistry.Reconciles` says how all of this fits
together, and holds after every turn: as long as the log goes on (`CutRegistry.Current`) its events
are on different pairs of costs, none of which waits any more.

No pair of costs comes back, since the searches close each layer once: what they have met at is not
made into a cut again (`Progress.fresh_registerCuts`).

The main statement is `report_of_run`.
-/

namespace LayeredPlanning

open Relation

/-- The size of a set of states that are given by a list. -/
theorem StateSet.size_eq_card {set : StateSet} {states : List State}
    (h : ∀ s, s ∈ set ↔ s ∈ states) : set.size = states.toFinset.card := by
  have hsame : set.toList.toFinset = states.toFinset :=
    Finset.ext fun s ↦ by rw [List.mem_toFinset, List.mem_toFinset, mem_toList, h]
  rw [← hsame, List.toFinset_card_of_nodup set.nodup_toList]
  rfl

namespace CutRegistry

variable {registry registry' : CutRegistry PlanDatabase} {lower bound : Int} {view : LayerView}
  {cut : Cut} {rest : List Cut}

/-! ## A log that goes on -/

/-- The log so far, at a bound: the costs are exact and below the bound, no pair of costs comes
twice or waits, no cost has been refused, and no more plans are found than wanted. -/
structure Current (bound : Int) (registry : CutRegistry PlanDatabase) : Prop extends
    registry.Ordered where
  costs : ∀ event ∈ registry.events, event.f = event.g + event.h ∧ event.f < bound
  nodup : (registry.events.map CutEvent.key).Nodup
  fresh : ∀ cut ∈ registry.cuts, cut.key ∉ registry.events.map CutEvent.key
  admitted : ∀ event ∈ registry.events, event.outcome ≠ .outsideQualityBound
  found_le : registry.found ≤ registry.target

namespace Current

/-- A decision on the first cut has exact costs below the bound. -/
theorem costs_concat (h : registry.Current bound) (hup : registry.ComesUp bound cut rest)
    (outcome : CutOutcome) :
    ∀ event ∈ registry.events ++ [CutEvent.ofCut cut outcome],
      event.f = event.g + event.h ∧ event.f < bound := by
  intro event hevent
  rcases List.mem_append.mp hevent with hold | hnew
  · exact h.costs event hold
  · obtain rfl := List.mem_singleton.mp hnew
    have hmem : cut ∈ registry.cuts := by
      rw [hup.cuts]
      exact List.mem_cons_self
    exact ⟨(h.valid cut hmem).f_eq, hup.lt⟩

/-- A decision on the first cut is on a pair of costs on which there has been no decision. -/
theorem nodup_concat (h : registry.Current bound) (hup : registry.ComesUp bound cut rest)
    (outcome : CutOutcome) :
    ((registry.events ++ [CutEvent.ofCut cut outcome]).map CutEvent.key).Nodup := by
  have hmem : cut ∈ registry.cuts := by
    rw [hup.cuts]
    exact List.mem_cons_self
  rw [List.map_append, List.nodup_append]
  refine ⟨h.nodup, List.nodup_singleton _, ?_⟩
  intro key hkey last hlast hsame
  obtain rfl := List.mem_singleton.mp hlast
  subst hsame
  exact h.fresh cut hmem hkey

/-- The log stays current when the first cut is taken off the queue with a decision on it. -/
theorem concat (h : registry.Current bound) (hup : registry.ComesUp bound cut rest)
    (outcome : CutOutcome) (houtcome : outcome ≠ .outsideQualityBound)
    (hcuts : registry'.cuts = rest)
    (hevents : registry'.events = registry.events ++ [.ofCut cut outcome])
    (hfound : registry'.found ≤ registry'.target) : registry'.Current bound := by
  have hascending := h.ascending
  have hvalid := h.valid
  have hfresh := h.fresh
  rw [hup.cuts] at hascending hvalid hfresh
  obtain ⟨hfirst, hrest⟩ := List.pairwise_cons.mp hascending
  refine ⟨⟨?_, ?_⟩, ?_, ?_, ?_, ?_, hfound⟩
  · rwa [hcuts]
  · rw [hcuts]
    exact fun c hc ↦ hvalid c (List.mem_cons_of_mem _ hc)
  · rw [hevents]
    exact h.costs_concat hup outcome
  · rw [hevents]
    exact h.nodup_concat hup outcome
  · rw [hcuts, hevents]
    intro c hc hkey
    rw [List.map_append, List.mem_append] at hkey
    rcases hkey with hold | hnew
    · exact hfresh c (List.mem_cons_of_mem _ hc) hold
    · exact StrictOrder.ne (hfirst c hc) (List.mem_singleton.mp hnew).symm
  · rw [hevents]
    intro event hevent
    rcases List.mem_append.mp hevent with hold | hnew
    · exact h.admitted event hold
    · obtain rfl := List.mem_singleton.mp hnew
      exact houtcome

/-- Decisions keep the log current. -/
theorem decides (h : registry.Current bound) (hdecides : Decides bound view registry registry') :
    registry'.Current bound := by
  cases hdecides with
  | @drop cut rest watermark hup =>
    exact h.concat hup (.belowWatermark watermark) nofun rfl rfl h.found_le
  | @reconstruct cut rest tally store hup _ _ hrec =>
    exact h.concat hup (outcomeOf tally) nofun rfl rfl
      (found_le_reconstructed hup.missing hrec)

end Current

/-! ## The watermark -/

/-- The watermark is the cost of a reconstructed cut, and there is one once a cut has been
reconstructed. -/
def Marked (registry : CutRegistry PlanDatabase) : Prop :=
  match registry.planCostBound? with
  | some watermark =>
    ∃ event ∈ registry.events, event.isReconstructed = true ∧ event.f = watermark
  | none => ∀ event ∈ registry.events, event.isReconstructed = false

theorem Marked.construct (h : registry.Marked) (hordered : registry.Ordered)
    (hconstruct : registry.construct bound view = (.ok (), registry')) : registry'.Marked := by
  obtain ⟨batch, -, hevents, hok, -⟩ := exists_batch hordered bound view
  rw [hconstruct] at hevents hok
  have hwatermark := (hok rfl).1
  change registry'.events = _ at hevents
  change registry'.planCostBound? = _ at hwatermark
  rw [Marked, hwatermark, hevents, CutEvent.firstReconstructed?]
  cases hfirst : batch.find? CutEvent.isReconstructed with
  | some event =>
    exact ⟨event, List.mem_append_right _ (List.mem_of_find?_eq_some hfirst),
      List.find?_some hfirst, rfl⟩
  | none =>
    -- Nothing is reconstructed, and the watermark stays.
    rw [Option.map_none, Option.none_or]
    have hbatch : ∀ event ∈ batch, event.isReconstructed = false :=
      fun event hevent ↦ Bool.not_eq_true _ ▸ List.find?_eq_none.mp hfirst event hevent
    rw [Marked] at h
    split at h
    · obtain ⟨event, hevent, hmark⟩ := h
      exact ⟨event, List.mem_append_left _ hevent, hmark⟩
    · exact List.forall_mem_append.mpr ⟨h, hbatch⟩

/-! ## Reconciled registries -/

/-- Counters, log and queue of a registry fit together, for a lower bound. -/
structure Reconciles (lower : Int) (registry : CutRegistry PlanDatabase) : Prop where
  ledger : ∃ kept, registry.Ledger kept []
  found_le : registry.found ≤ registry.target
  costs : ∀ event ∈ registry.events, event.f = event.g + event.h ∧ event.f < lower
  nodup : (registry.events.map CutEvent.key).Nodup
  fresh : registry.foundAll = false → ∀ cut ∈ registry.cuts,
    cut.key ∉ registry.events.map CutEvent.key
  refusals : ∀ event ∈ registry.events, event.outcome = .outsideQualityBound →
    registry.foundAll = true
  admitted : ∀ event ∈ registry.events.dropLast, event.outcome ≠ .outsideQualityBound
  marked : registry.Marked

namespace Reconciles

theorem ofStore {selection : Selection} {simpleOnly : Bool} {database : PlanDatabase}
    (h : PlanDatabase.ofSelection? selection simpleOnly = .ok database) (singleSolution : Bool) :
    (ofStore database singleSolution).Reconciles lower := by
  refine ⟨⟨[], ledger_ofStore h singleSolution⟩, ?_, List.forall_mem_nil _, List.nodup_nil,
    fun _ ↦ List.forall_mem_nil _, List.forall_mem_nil _, List.forall_mem_nil _,
    List.forall_mem_nil _⟩
  show database.plans.length ≤ _
  rw [PlanDatabase.plans_of_ofSelection? h]
  exact Nat.zero_le _

/-- While plans are missing the log goes on. -/
theorem current (h : registry.Reconciles lower) (hordered : registry.Ordered)
    (hopen : registry.foundAll = false) (hle : lower ≤ bound) : registry.Current bound where
  toOrdered := hordered
  costs := fun event hevent ↦
    ⟨(h.costs event hevent).1, Int.lt_of_lt_of_le (h.costs event hevent).2 hle⟩
  nodup := h.nodup
  fresh := h.fresh hopen
  admitted := by
    intro event hevent hrefused
    rw [h.refusals event hevent hrefused] at hopen
    cases hopen
  found_le := h.found_le

/-- A construction that succeeds goes on with the log, up to a refusal. -/
theorem construct (h : registry.Reconciles lower) (hordered : registry.Ordered)
    (hopen : registry.foundAll = false) (hle : lower ≤ bound)
    (hconstruct : registry.construct bound view = (.ok (), registry')) :
    registry'.Reconciles bound := by
  obtain ⟨kept, hledger⟩ := h.ledger
  have hledger := hledger.construct_ok hconstruct
  have hmarked := h.marked.construct hordered hconstruct
  obtain ⟨last, _, stopped, _, hlast, hstops, rfl⟩ := construct_eq_ok hconstruct
  have hcurrent : last.Current bound :=
    decides_induction (fun _ _ h hdecides ↦ h.decides hdecides)
      (h.current hordered hopen hle) hlast
  cases hstops with
  | done =>
    exact ⟨hledger, hcurrent.found_le, hcurrent.costs, hcurrent.nodup, fun _ ↦ hcurrent.fresh,
      fun event hevent hrefused ↦ absurd hrefused (hcurrent.admitted event hevent),
      fun event hevent ↦ hcurrent.admitted event (List.mem_of_mem_dropLast hevent), hmarked⟩
  | @refuse _ cut rest hup hrefused =>
    have hall : ∀ watermark?,
        { last.refused cut with planCostBound? := watermark? }.foundAll = true :=
      fun _ ↦ Advancing.foundAll_of_closeAtCost hrefused rfl
    refine ⟨hledger, ?_, hcurrent.costs_concat hup _, hcurrent.nodup_concat hup _, ?_,
      fun _ _ _ ↦ hall _, ?_, hmarked⟩
    · show (last.refused cut).found ≤ (last.refused cut).target
      rw [found_refused, target_refused]
      exact hcurrent.found_le
    · intro hopen
      rw [hall] at hopen
      cases hopen
    · intro event hevent
      change event ∈ (last.events ++ [_]).dropLast at hevent
      rw [List.dropLast_concat] at hevent
      exact hcurrent.admitted event hevent

end Reconciles

end CutRegistry

/-! ## Turns -/

section Turns

variable {task : Task} {horizon : Int} {frontiers next current : Frontiers task horizon}
  {progress progress' raised reached : Progress} {cuts made : List Cut} {bound : Int}
  {view : LayerView}

namespace Progress

/-- The counters, the log and the queue fit together, for the lower bound of the run. -/
def Reconciles (progress : Progress) : Prop := progress.registry.Reconciles progress.lowerBound

/-- A cut that waits has waited before, or has been registered. -/
theorem key_of_mem_registerCuts (hopen : progress.registry.foundAll = false)
    (h : progress.registerCuts cuts = .ok progress') {cut : Cut}
    (hcut : cut ∈ progress'.registry.cuts) :
    cut.key ∈ cuts.map Cut.key ∨ cut.key ∈ progress.registry.cuts.map Cut.key := by
  refine (registerCuts_induction (P := fun made current ↦ ∀ cut ∈ current.registry.cuts,
    cut.key ∈ made.map Cut.key ∨ cut.key ∈ progress.registry.cuts.map Cut.key) ?_ [] hopen
    (fun c hc ↦ .inr (List.mem_map_of_mem hc)) h).1 cut hcut
  intro made current c registry ih hregistered b hb
  rw [(CutRegistry.register_eq_ok hregistered).2] at hb
  rw [List.map_append, List.mem_append]
  rcases Cut.key_of_mem_insertInto hb with hkey | hb
  · exact .inl (.inr (List.mem_singleton.mpr hkey))
  · exact (ih b hb).imp_left .inl

/-- No new cut has costs on which there has been a decision: there the searches have met before. -/
theorem fresh_registerCuts (horderly : progress.Orderly frontiers) (h : progress.Reconciles)
    (hopen : progress.registry.foundAll = false)
    (hclose : frontiers.closeNext? = some (cuts, next))
    (hregister : progress.registerCuts cuts = .ok progress') :
    ∀ cut ∈ progress'.registry.cuts, cut.key ∉ progress.registry.events.map CutEvent.key := by
  intro cut hcut hkey
  rcases key_of_mem_registerCuts hopen hregister hcut with hnew | hold
  · obtain ⟨event, hevent, hsame⟩ := List.mem_map.mp hkey
    obtain ⟨c, hc, hsame'⟩ := List.mem_map.mp hnew
    obtain ⟨-, hg, hh⟩ := CutKey.mk.inj (hsame.trans hsame'.symm)
    obtain ⟨s, hs⟩ := horderly.awaits.decided event hevent
    rw [hg, hh] at hs
    exact horderly.exact.not_meets_of_mem_cuts hclose hc s hs
  · obtain ⟨c, hc, hsame⟩ := List.mem_map.mp hold
    rw [← hsame] at hkey
    exact h.fresh hopen c hc hkey

theorem reconciles_registerCuts (horderly : progress.Orderly frontiers) (h : progress.Reconciles)
    (hopen : progress.registry.foundAll = false)
    (hclose : frontiers.closeNext? = some (cuts, next))
    (hregister : progress.registerCuts cuts = .ok progress') : progress'.Reconciles := by
  have hfresh := fresh_registerCuts horderly h hopen hclose hregister
  have hqueued := queued_registerCuts hregister
  obtain ⟨queue, hqueue⟩ := hqueued.registry
  rw [Reconciles, hqueued.lowerBound]
  rw [hqueue] at hfresh ⊢
  obtain ⟨kept, hledger⟩ := h.ledger
  exact ⟨⟨kept, hledger.plans, hledger.goalPathStates, hledger.accepted⟩, h.found_le,
    h.costs, h.nodup, fun _ ↦ hfresh, h.refusals, h.admitted, h.marked⟩

theorem Reconciles.raiseBound (h : progress.Reconciles)
    (hwaits : progress.registry.Awaits frontiers)
    (hraise : progress.raiseBound bound view = .ok progress') : progress'.Reconciles := by
  rcases raiseBound_eq_ok hraise with ⟨-, rfl⟩ | ⟨hlt, hopen, hconstruct, hbound⟩
  · exact h
  · rw [Reconciles, hbound]
    exact CutRegistry.Reconciles.construct h ⟨hwaits.sorted, hwaits.valid⟩ hopen
      (Int.le_of_lt hlt) hconstruct

end Progress

/-- What fits together before a turn fits together after it. -/
theorem Turn.reconciles (h : Turn frontiers progress cuts next raised)
    (horderly : progress.Orderly frontiers) (hreconciles : progress.Reconciles) :
    raised.Reconciles := by
  obtain ⟨hopen, hclose, registered, hregister, hraise⟩ := h
  exact (Progress.reconciles_registerCuts horderly hreconciles hopen hclose hregister).raiseBound
    (Progress.awaits_registerCuts horderly.awaits hopen hclose hregister) hraise

theorem Turns.reconciles (h : Turns frontiers progress made current reached)
    (horderly : progress.Orderly frontiers) (hreconciles : progress.Reconciles) :
    reached.Orderly current ∧ reached.Reconciles := by
  refine h.induction (P := fun _ current reached ↦ reached.Orderly current ∧ reached.Reconciles)
    ⟨horderly, hreconciles⟩ ?_
  rintro _ _ _ _ _ _ ⟨hreached, hcurrent⟩ hturn
  exact ⟨hreached.turn hturn, hturn.reconciles hreached hcurrent⟩

/-- The end of a run fits together, and it has found all plans if so the registry says. -/
theorem Ends.reconciles {termination : Termination} {last : Progress}
    (h : Ends frontiers progress (.ok (termination, last))) (horderly : progress.Orderly frontiers)
    (hreconciles : progress.Reconciles) :
    last.Reconciles ∧ (last.registry.foundAll = true → termination = .foundAllPlans) := by
  cases h with
  | found => exact ⟨hreconciles, fun _ ↦ rfl⟩
  | exhausted _ _ hraise =>
    exact ⟨hreconciles.raiseBound horderly.awaits hraise,
      Progress.exhausted_eq_foundAllPlans_iff.mpr⟩

end Turns

/-! ## Runs -/

/-- Of a run that does not fail, the registry fits together at the end. -/
theorem exists_reconciled_of_run {task : Task} (hlawful : task.Lawful) {policy : RunPolicy}
    {outcome : RunOutcome} (h : run task policy = .ok outcome) :
    ∃ last : Progress, last.Reconciles ∧ outcome = .ofLast outcome.termination last ∧
      (last.registry.foundAll = true → outcome.termination = .foundAllPlans) := by
  obtain ⟨hpolicy, -⟩ := run_eq_ok h
  obtain ⟨-, database, last, hdatabase, hloop, houtcome⟩ := exists_last_of_run h
  obtain ⟨made, frontiers, reached, hturns, hends⟩ :=
    exists_turns (Frontiers.start task policy) (Progress.start database policy)
  rw [hloop] at hends
  obtain ⟨horderly, hreached⟩ := hturns.reconciles
    (Progress.orderly_start hlawful hpolicy database)
    (CutRegistry.Reconciles.ofStore hdatabase policy.singleSolution)
  obtain ⟨hlast, hfound⟩ := hends.reconciles horderly hreached
  exact ⟨last, hlast, houtcome, hfound⟩

/-- The report of a run that does not fail fits its outcome: the accepted plans are counted, also
cut by cut, and are not more than aimed for; so are the states on them; every event is on a pair of
costs of its own, with an exact sum below the lower bound; a cost is refused by the last event only,
and then all plans are found; and the watermark is the cost of a reconstructed cut, as soon as there
is one. -/
theorem report_of_run {task : ExplicitTask} {policy : RunPolicy} {outcome : RunOutcome}
    (h : run task.toTask policy = .ok outcome) :
    (outcome.report.acceptedPlans = outcome.plans.length ∧
      outcome.plans.length = acceptedIn outcome.report.events ∧
      outcome.report.acceptedPlans ≤ outcome.report.targetPlans) ∧
    outcome.report.goalPathStates =
      (outcome.plans.flatMap fun plan ↦ plan.states).toFinset.card ∧
    (∀ event ∈ outcome.report.events,
      event.f = event.g + event.h ∧ event.f < outcome.lowerBound) ∧
    ((∀ event ∈ outcome.report.events.dropLast, event.outcome ≠ .outsideQualityBound) ∧
      ∀ event ∈ outcome.report.events, event.outcome = .outsideQualityBound →
        outcome.termination = .foundAllPlans) ∧
    ((outcome.report.planCostBound?.isSome = true ↔
        ∃ event ∈ outcome.report.events, event.isReconstructed = true) ∧
      ∀ watermark, outcome.report.planCostBound? = some watermark →
        ∃ event ∈ outcome.report.events, event.isReconstructed = true ∧
          event.f = watermark) ∧
    (outcome.report.events.map fun event ↦ (event.g, event.h)).Nodup := by
  obtain ⟨last, hlast, houtcome, hfound⟩ := exists_reconciled_of_run task.lawful h
  obtain ⟨kept, hledger⟩ := hlast.ledger
  have hbalanced := hledger.balanced_iff.mpr rfl
  have hmarked := hlast.marked
  rw [CutRegistry.Marked] at hmarked
  have hplans : outcome.plans = last.registry.store.plans := congrArg RunOutcome.plans houtcome
  have hlower : outcome.lowerBound = last.lowerBound := congrArg RunOutcome.lowerBound houtcome
  have hreport : outcome.report = last.registry.report := congrArg RunOutcome.report houtcome
  rw [hplans, hlower, hreport]
  refine ⟨⟨rfl, hbalanced.acceptedPlans, hlast.found_le⟩, ?_, hlast.costs,
    ⟨hlast.admitted,
      fun event hevent hrefused ↦ hfound (hlast.refusals event hevent hrefused)⟩,
    ⟨?_, ?_⟩, ?_⟩
  · apply StateSet.size_eq_card
    intro s
    rw [hbalanced.goalPathStates, PlanDatabase.mem_statesOn, List.mem_flatMap]
  · show last.registry.planCostBound?.isSome = true ↔ ∃ event ∈ last.registry.events, _
    split at hmarked
    · next watermark hwatermark =>
      obtain ⟨event, hevent, hreconstructed, -⟩ := hmarked
      rw [hwatermark]
      exact iff_of_true rfl ⟨event, hevent, hreconstructed⟩
    · next hnone =>
      rw [hnone]
      refine iff_of_false Bool.false_ne_true ?_
      rintro ⟨event, hevent, hreconstructed⟩
      rw [hmarked event hevent] at hreconstructed
      cases hreconstructed
  · intro watermark hwatermark
    change last.registry.planCostBound? = some watermark at hwatermark
    rw [hwatermark] at hmarked
    exact hmarked
  · -- The sum is exact, so the pair determines the key.
    have hkeys := hlast.nodup
    rw [List.Nodup, List.pairwise_map] at hkeys ⊢
    refine hkeys.imp_of_mem ?_
    intro a b ha hb hne hpair
    obtain ⟨hg, hh⟩ := Prod.mk.inj hpair
    have hf : a.f = b.f := by rw [(hlast.costs a ha).1, (hlast.costs b hb).1, hg, hh]
    exact hne (CutKey.ext hf hg hh)

/-- At the fork a run that wants two optimal plans accepts one, from the first of its cuts.  The
second cut has it again, and the cost of the third is refused. -/
theorem fork_report_of_run :
    ∃ outcome, run fork.toTask { maxCost := 5, selection := .topQ 2 100 } = .ok outcome ∧
      outcome.report.events.map (fun event ↦ (event.g, event.h, event.outcome)) =
        [(0, 1, .reconstructed 1 0 0), (1, 0, .reconstructed 0 1 0),
          (2, 0, .outsideQualityBound)] ∧
      outcome.report.acceptedPlans = acceptedIn outcome.report.events ∧
      outcome.report.goalPathStates =
        (outcome.plans.flatMap fun plan ↦ plan.states).toFinset.card ∧
      (outcome.report.events.map fun event ↦ (event.g, event.h)).Nodup := by
  obtain ⟨outcome, hrun, hevents⟩ := exists_outcome_of_map
    (show (run fork.toTask { maxCost := 5, selection := .topQ 2 100 }).toOption.map
        (fun outcome ↦ outcome.report.events.map fun event ↦
          (event.g, event.h, event.outcome)) =
      some [(0, 1, .reconstructed 1 0 0), (1, 0, .reconstructed 0 1 0),
        (2, 0, .outsideQualityBound)] by decide +kernel)
  obtain ⟨⟨hfound, haccepted, -⟩, hstates, -, -, -, hnodup⟩ := report_of_run hrun
  exact ⟨outcome, hrun, hevents, hfound.trans haccepted, hstates, hnodup⟩

end LayeredPlanning
