import LayeredPlanning.Proofs.Reconstruction.Watermark

/-!
# Constructions that fail

A construction that fails has decided on some cuts, and then given up at the next one.  What it has
done to the queue, the log and the states on accepted plans is what a construction does, and does
with success, that finds no other cuts in the queue (`CutRegistry.Handles`).  Of the cut at which it
fails there is no trace but in the store: the plans that were accepted from it are behind those that
were there before.  `CutRegistry.failsAt_after` says this of any registry after any history of
calls.
-/

namespace LayeredPlanning

open Relation

/-- The event is that of a decision by which the cut was taken off the queue. -/
def CutEvent.TakesOff (event : CutEvent) (cut : Cut) : Prop :=
  ∃ outcome, outcome ≠ .outsideQualityBound ∧ event = .ofCut cut outcome

namespace CutRegistry

section Handles

variable {σ : Type} [PlanStore σ] {bound : Int} {view : LayerView}
  {registry next last : CutRegistry σ} {cut : Cut} {handled : List Cut} {events : List CutEvent}

/-- The cuts in `handled` were at the front of the queue, and `events` are the decisions on them
that have led to `last`.  With no other cuts in the queue the same decisions are taken, and then
there is nothing left to decide. -/
structure Handles (bound : Int) (view : LayerView) (registry last : CutRegistry σ)
    (handled : List Cut) (events : List CutEvent) : Prop where
  queue : registry.cuts = handled ++ last.cuts
  log : last.events = registry.events ++ events
  decided : List.Forall₂ CutEvent.TakesOff events handled
  watermark : last.planCostBound? = registry.planCostBound?
  alone : ∀ least?, ∃ answer?,
    ({ registry with cuts := handled } : CutRegistry σ).constructFrom bound view least? =
      (.ok answer?, { last with cuts := [] })

namespace Handles

theorem refl (bound : Int) (view : LayerView) (registry : CutRegistry σ) :
    registry.Handles bound view registry [] [] where
  queue := rfl
  log := (List.append_nil _).symm
  decided := .nil
  watermark := rfl
  alone least? := by
    refine ⟨least?, constructFrom_of_idle (fun _ cut hcut ↦ ?_) view least?⟩
    cases hcut

/-- A decision on the first cut comes first, if it does not depend on the cuts that come after. -/
theorem cons (h : next.Handles bound view last handled events) {outcome : CutOutcome}
    (houtcome : outcome ≠ .outsideQualityBound) (hqueue : registry.cuts = cut :: next.cuts)
    (hlog : next.events = registry.events ++ [.ofCut cut outcome])
    (hwatermark : next.planCostBound? = registry.planCostBound?)
    (hdecides : ∀ cuts least?, ∃ answer?,
      ({ registry with cuts := cut :: cuts } : CutRegistry σ).constructFrom bound view least? =
        ({ next with cuts := cuts } : CutRegistry σ).constructFrom bound view answer?) :
    registry.Handles bound view last (cut :: handled) (.ofCut cut outcome :: events) where
  queue := by rw [hqueue, h.queue, List.cons_append]
  log := by rw [h.log, hlog, List.append_assoc, List.singleton_append]
  decided := .cons ⟨outcome, houtcome, rfl⟩ h.decided
  watermark := h.watermark.trans hwatermark
  alone least? := by
    obtain ⟨answer?, hfirst⟩ := hdecides handled least?
    obtain ⟨last?, hrest⟩ := h.alone answer?
    exact ⟨last?, hfirst.trans hrest⟩

theorem decides (hdecides : Decides bound view registry next)
    (h : next.Handles bound view last handled events) :
    ∃ cut event, registry.Handles bound view last (cut :: handled) (event :: events) := by
  cases hdecides with
  | @drop cut rest watermark hup hwatermark =>
    refine ⟨cut, _, h.cons CutOutcome.noConfusion hup.cuts rfl rfl fun cuts least? ↦
      ⟨least?, ?_⟩⟩
    have hup' : ComesUp { registry with cuts := cut :: cuts } bound cut cuts :=
      ⟨hup.missing, rfl, hup.lt⟩
    exact hup'.constructFrom_consume hwatermark view least?
  | @reconstruct cut rest tally store hup hwatermark hadmits hrec =>
    refine ⟨cut, _, h.cons CutOutcome.noConfusion hup.cuts rfl rfl fun cuts least? ↦
      ⟨some (leastOf least? cut.f), ?_⟩⟩
    have hup' : ComesUp { registry with cuts := cut :: cuts } bound cut cuts :=
      ⟨hup.missing, rfl, hup.lt⟩
    exact hup'.constructFrom_reconstructed hwatermark hadmits hrec least?

/-- Decisions are on the first cuts of the queue. -/
theorem exists_of_decisions (hlast : ReflTransGen (Decides bound view) registry last) :
    ∃ handled events, registry.Handles bound view last handled events := by
  induction hlast using ReflTransGen.head_induction_on with
  | refl => exact ⟨[], [], refl bound view last⟩
  | head hdecides _ ih =>
    obtain ⟨handled, events, h⟩ := ih
    obtain ⟨cut, event, hcut⟩ := h.decides hdecides
    exact ⟨cut :: handled, event :: events, hcut⟩

theorem keys (h : registry.Handles bound view last handled events) :
    events.map CutEvent.key = handled.map Cut.key := by
  have hdecided := h.decided
  clear h
  induction hdecided with
  | nil => rfl
  | cons hevent _ ih =>
    obtain ⟨outcome, _, rfl⟩ := hevent
    rw [List.map_cons, List.map_cons, ih]
    rfl

/-- The cuts that are left are those without a decision. -/
theorem mem_left_iff (h : registry.Handles bound view last handled events)
    (hordered : registry.Ordered) (hcut : cut ∈ registry.cuts) :
    cut ∈ last.cuts ↔ ∀ event ∈ events, event.key ≠ cut.key := by
  have hascending := hordered.ascending
  rw [h.queue] at hcut hascending
  have hbelow := (List.pairwise_append.mp hascending).2.2
  constructor
  · intro hleft event hevent hkey
    have hmem : cut.key ∈ handled.map Cut.key := by
      rw [← h.keys, ← hkey]
      exact List.mem_map_of_mem hevent
    obtain ⟨c, hc, hsame⟩ := List.mem_map.mp hmem
    have hlt := hbelow c hc cut hleft
    rw [hsame] at hlt
    exact StrictOrder.irrefl _ hlt
  · intro hnone
    refine (List.mem_append.mp hcut).resolve_left fun hhandled ↦ ?_
    have hmem : cut.key ∈ events.map CutEvent.key := by
      rw [h.keys]
      exact List.mem_map_of_mem hhandled
    obtain ⟨event, hevent, hkey⟩ := List.mem_map.mp hmem
    exact hnone event hevent hkey

end Handles

end Handles

variable {registry next : CutRegistry PlanDatabase} {bound : Int} {view : LayerView}
  {e : ReconstructionError}

/-- A construction has failed with `e` at the cut `failing`, and has left `next`.  Before that it
had decided on the cuts in `handled`. -/
structure FailsAt (bound : Int) (view : LayerView) (registry next : CutRegistry PlanDatabase)
    (e : ReconstructionError) (handled : List Cut) (failing : Cut) (rest : List Cut)
    (events : List CutEvent) : Prop where
  queue : registry.cuts = handled ++ failing :: rest
  left : next.cuts = failing :: rest
  log : next.events = registry.events ++ events
  decided : List.Forall₂ CutEvent.TakesOff events handled
  waits : ∀ cut ∈ registry.cuts, cut ∈ next.cuts ↔
    ∀ event ∈ events, event.key ≠ cut.key
  watermark : next.planCostBound? = registry.planCostBound?
  plans : registry.store.plans <+: next.store.plans
  alone : ∃ alone,
    ({ registry with cuts := handled } : CutRegistry PlanDatabase).construct bound view =
        (.ok (), alone) ∧
      alone.cuts = [] ∧ alone.events = next.events ∧
      alone.goalPathStates = next.goalPathStates ∧ alone.store.plans <+: next.store.plans ∧
      LayeredPlanning.reconstruct view failing alone.missing alone.store = (.error e, next.store)

theorem Ordered.exists_failsAt (hordered : registry.Ordered)
    (hconstruct : registry.construct bound view = (.error e, next)) :
    ∃ handled failing rest events,
      FailsAt bound view registry next e handled failing rest events := by
  have hplans := plans_construct registry bound view
  rw [hconstruct] at hplans
  obtain ⟨last, hlast, hstops⟩ := construct_eq_error hconstruct
  obtain ⟨handled, events, h⟩ := Handles.exists_of_decisions hlast
  cases hstops with
  | @fail failing rest _ store hup hrec =>
    refine ⟨handled, failing, rest, events, ?_, hup.cuts, h.log, h.decided,
      fun cut hcut ↦ h.mem_left_iff hordered hcut, h.watermark, hplans, ?_⟩
    · rw [h.queue, hup.cuts]
    · obtain ⟨answer?, halone⟩ := h.alone none
      have hext := extends_reconstruct view failing last.missing last.store
      rw [hrec] at hext
      rw [construct, halone]
      exact ⟨_, rfl, rfl, rfl, rfl, hext.plans, hrec⟩

/-- A construction that fails, after any history of calls, has decided on the first cuts of the
queue and on no others, with one event for each.  The cut at which it fails stays at the front with
its states, and those after it stay behind it.  The watermark and the plans that were there stay as
they were, and new plans come behind them.  The log and the states on accepted plans are those of a
construction that succeeds on the first cuts alone, after which the reconstruction of the next one
fails. -/
theorem failsAt_after (database : PlanDatabase) (singleSolution : Bool) (calls : List RegistryCall)
    (hfails : ((ofStore database singleSolution).after calls).construct bound view =
      (.error e, next)) :
    ∃ handled failing rest events,
      FailsAt bound view ((ofStore database singleSolution).after calls) next e handled
        failing rest events :=
  ((Ordered.ofStore database singleSolution).after calls).exists_failsAt hfails

end CutRegistry

/-- The layers of the task that starts at its goal. -/
def arrivedView : LayerView where
  task := arrived.toTask
  forward? := some ((∅ : ClosedLayers).pushSublayer 0 (.singleton (.single 0)))
  backward? := some ((∅ : ClosedLayers).pushSublayer 0 (.singleton (.single 0)))

/-- The cut of the empty plan, and behind it one with a meeting state from nowhere. -/
def strandedCalls : List RegistryCall :=
  [.register ⟨0, 0, .singleton (.single 0)⟩, .register ⟨1, 0, .singleton (.single 5)⟩]

/-- The empty plan is accepted, and the second cut stays. -/
theorem stranded_failsAt :
    ∃ registry next e handled failing rest events,
      registry =
        (CutRegistry.ofStore (⟨.topK 2, false, [], [], none, false⟩ : PlanDatabase) false).after
          strandedCalls ∧
      registry.construct 2 arrivedView = (.error e, next) ∧
      next.store.plans = [⟨[], [.single 0]⟩] ∧
      next.cuts = [⟨1, 0, .singleton (.single 5)⟩] ∧
      CutRegistry.FailsAt 2 arrivedView registry next e handled failing rest events := by
  have hfails :
      ((CutRegistry.ofStore (⟨.topK 2, false, [], [], none, false⟩ : PlanDatabase) false).after
        strandedCalls).construct 2 arrivedView =
        (.error (.unjustifiedState .forward 1 (State.single 5).text), _) :=
    Prod.ext (by decide +kernel) rfl
  obtain ⟨handled, failing, rest, events, h⟩ :=
    CutRegistry.failsAt_after _ false strandedCalls hfails
  exact ⟨_, _, _, handled, failing, rest, events, rfl, hfails, by decide +kernel,
    by decide +kernel, h⟩

end LayeredPlanning
