import LayeredPlanning.Proofs.Reconstruction.Histories
import Mathlib.Algebra.GroupWithZero.Nat

/-!
# What a registry writes down

A registry keeps the states on accepted plans, and for each cut how many plans were accepted from
it.  Both are written down once the reconstruction of a cut is finished.  If the reconstruction
fails, the plans that the database has taken from the cut stay there, but nothing is written down
about them, and when the cut is reconstructed again they are duplicates.

`CutRegistry.Ledger registry kept lost` splits the plans of the database into those that have been
written down and those that have not.  Decisions of a construction add to the first part, a failure
to the second (`Ledger.construct`, `Ledger.of_abandons`).  So the books are balanced exactly if no
construction has failed on a cut from which plans had been accepted: `balanced_after_iff`.
-/

namespace LayeredPlanning

open Relation

/-- The number of plans that were accepted from the cut. -/
def CutEvent.accepted (event : CutEvent) : Nat :=
  match event.outcome with
  | .reconstructed accepted _ _ => accepted
  | .belowWatermark _ | .outsideQualityBound => 0

/-- The number of plans that were accepted, by the log. -/
def acceptedIn (events : List CutEvent) : Nat := (events.map CutEvent.accepted).sum

theorem acceptedIn_concat (events : List CutEvent) (event : CutEvent) :
    acceptedIn (events ++ [event]) = acceptedIn events + event.accepted := by
  simp [acceptedIn]

namespace CutRegistry

variable {registry registry' : CutRegistry PlanDatabase} {bound : Int} {view : LayerView}
  {kept lost plans : List Plan}

/-- The states on accepted plans are those of the plans in the database, and the log accounts for
all of these plans. -/
structure Balanced (registry : CutRegistry PlanDatabase) : Prop where
  goalPathStates : registry.goalPathStates = PlanDatabase.statesOn registry.store.plans
  acceptedPlans : registry.report.acceptedPlans = acceptedIn registry.report.events

/-- A construction fails on a cut from which the database has taken `plans`. -/
def Abandons (bound : Int) (view : LayerView) (registry : CutRegistry PlanDatabase)
    (plans : List Plan) : Prop :=
  ∃ (last : CutRegistry PlanDatabase) (cut : Cut) (rest : List Cut) (e : ReconstructionError)
    (store : PlanDatabase),
    ReflTransGen (Decides bound view) registry last ∧ last.ComesUp bound cut rest ∧
      LayeredPlanning.reconstruct view cut last.missing last.store = (.error e, store) ∧
      registry.construct bound view = (.error e, { last with store := store }) ∧
      store.plans = last.store.plans ++ plans

/-! ## The ledger -/

/-- What has been written down are the states and the number of the plans in `kept`; the plans in
`lost` are in the database as well. -/
structure Ledger (registry : CutRegistry PlanDatabase) (kept lost : List Plan) : Prop where
  plans : registry.store.plans.Perm (kept ++ lost)
  goalPathStates : registry.goalPathStates = PlanDatabase.statesOn kept
  accepted : acceptedIn registry.events = kept.length

namespace Ledger

theorem found_eq (h : registry.Ledger kept lost) :
    registry.found = acceptedIn registry.events + lost.length := by
  rw [h.accepted, ← List.length_append]
  exact h.plans.length_eq

theorem goalPathStates_subset (h : registry.Ledger kept lost) :
    ∀ s ∈ registry.goalPathStates, s ∈ PlanDatabase.statesOn registry.store.plans := by
  intro s hs
  rw [h.goalPathStates, PlanDatabase.mem_statesOn] at hs
  obtain ⟨plan, hplan, hs⟩ := hs
  exact PlanDatabase.mem_statesOn.mpr
    ⟨plan, h.plans.mem_iff.mpr (List.mem_append_left _ hplan), hs⟩

theorem balanced_iff (h : registry.Ledger kept lost) : registry.Balanced ↔ lost = [] := by
  constructor
  · intro hbalanced
    have hfound := hbalanced.acceptedPlans
    change registry.found = acceptedIn registry.events at hfound
    exact List.length_eq_zero_iff.mp (by have := h.found_eq; omega)
  · rintro rfl
    refine ⟨StateSet.ext fun s ↦ ?_, h.found_eq⟩
    have hplans := h.plans
    rw [List.append_nil] at hplans
    simp only [h.goalPathStates, PlanDatabase.mem_statesOn, hplans.mem_iff]

/-- A reconstruction that is not given up is written down. -/
theorem reconstructed (h : registry.Ledger kept lost) {cut : Cut} {rest : List Cut} {tally : Tally}
    {store : PlanDatabase}
    (hrec : LayeredPlanning.reconstruct view cut registry.missing registry.store =
      (.ok tally, store)) :
    ∃ fresh, (registry.reconstructed cut rest tally store).Ledger (kept ++ fresh) lost := by
  obtain ⟨plans, tally', hsubmit, htally⟩ := exists_submitAll_of_reconstruct hrec
  obtain rfl := htally tally rfl
  obtain ⟨fresh, hplans, haccepted, hstates⟩ := PlanDatabase.exists_fresh_of_submitAll hsubmit
  refine ⟨fresh, ?_, ?_, ?_⟩
  · show store.plans.Perm (kept ++ fresh ++ lost)
    rw [hplans]
    calc (registry.store.plans ++ fresh).Perm (kept ++ lost ++ fresh) := h.plans.append_right fresh
      _ |>.Perm (kept ++ fresh ++ lost) := by
        rw [List.append_assoc, List.append_assoc]
        exact List.perm_append_comm.append_left kept
  · show registry.goalPathStates ∪ tally.goalPathStates = _
    rw [h.goalPathStates, hstates, PlanDatabase.statesOn_append]
    exact StateSet.ext fun s ↦ by simp [Tally.zero]
  · show acceptedIn (registry.events ++ [.ofCut cut (outcomeOf tally)]) = _
    rw [acceptedIn_concat, h.accepted, List.length_append]
    show _ + tally.accepted = _
    rw [haccepted]
    exact congrArg (kept.length + ·) (Nat.zero_add _)

theorem decides (h : registry.Ledger kept lost) (hdecides : Decides bound view registry registry') :
    ∃ fresh, registry'.Ledger (kept ++ fresh) lost := by
  cases hdecides with
  | drop hup hwatermark =>
    refine ⟨[], ?_⟩
    rw [List.append_nil]
    refine ⟨h.plans, h.goalPathStates, ?_⟩
    show acceptedIn (registry.events ++ [_]) = _
    rw [acceptedIn_concat, h.accepted]
    rfl
  | reconstruct hup hwatermark hadmits hrec => exact h.reconstructed hrec

theorem decisions (h : registry.Ledger kept lost)
    (hlast : ReflTransGen (Decides bound view) registry registry') :
    ∃ kept', registry'.Ledger kept' lost := by
  induction hlast with
  | refl => exact ⟨kept, h⟩
  | tail _ hdecides ih =>
    obtain ⟨kept', hlater⟩ := ih
    obtain ⟨fresh, hnext⟩ := hlater.decides hdecides
    exact ⟨kept' ++ fresh, hnext⟩

/-- The plans of a cut that is abandoned are not written down. -/
theorem fail (h : registry.Ledger kept lost) {store : PlanDatabase}
    (hstore : store.plans = registry.store.plans ++ plans) :
    ({ registry with store := store } : CutRegistry PlanDatabase).Ledger kept (lost ++ plans) := by
  refine ⟨?_, h.goalPathStates, h.accepted⟩
  show store.plans.Perm _
  rw [hstore, ← List.append_assoc]
  exact h.plans.append_right plans

/-- A construction that succeeds writes down all plans that it adds to the database. -/
theorem construct_ok (h : registry.Ledger kept lost)
    (hconstruct : registry.construct bound view = (.ok (), registry')) :
    ∃ kept', registry'.Ledger kept' lost := by
  obtain ⟨last, least?, stopped, watermark?, hlast, hstops, rfl⟩ := construct_eq_ok hconstruct
  obtain ⟨kept', hlater⟩ := h.decisions hlast
  refine ⟨kept', ?_⟩
  cases hstops with
  | done => exact ⟨hlater.plans, hlater.goalPathStates, hlater.accepted⟩
  | @refuse _ cut rest =>
    refine ⟨?_, hlater.goalPathStates, ?_⟩
    · show (last.store.closeAtCost cut.f).plans.Perm _
      rw [PlanDatabase.plans_closeAtCost]
      exact hlater.plans
    · show acceptedIn (last.events ++ [_]) = _
      rw [acceptedIn_concat, hlater.accepted]
      rfl

theorem of_abandons (h : registry.Ledger kept lost)
    (habandons : registry.Abandons bound view plans) :
    ∃ kept', (registry.construct bound view).2.Ledger kept' (lost ++ plans) := by
  obtain ⟨last, cut, rest, e, store, hlast, -, -, hconstruct, hplans⟩ := habandons
  obtain ⟨kept', hlater⟩ := h.decisions hlast
  rw [hconstruct]
  exact ⟨kept', hlater.fail hplans⟩

end Ledger

/-- A construction that fails abandons what it has accepted from a cut. -/
theorem exists_abandons {e : ReconstructionError}
    (hconstruct : registry.construct bound view = (.error e, registry')) :
    ∃ plans, registry.Abandons bound view plans := by
  obtain ⟨last, hlast, hstops⟩ := construct_eq_error hconstruct
  cases hstops with
  | @fail cut rest _ store hup hrec =>
    have hext := extends_reconstruct view cut last.missing last.store
    rw [hrec] at hext
    obtain ⟨plans, hplans⟩ := hext.plans
    exact ⟨plans, last, cut, rest, e, store, hlast, hup, hrec, hconstruct, hplans.symm⟩

/-! ## Histories -/

/-- A construction in the history fails on a cut from which the database has taken plans. -/
def AbandonsPlans (registry : CutRegistry PlanDatabase) (calls : List RegistryCall)
    (plans : List Plan) : Prop :=
  ∃ before bound view rest, calls = before ++ .construct bound view :: rest ∧
    (registry.after before).Abandons bound view plans

theorem AbandonsPlans.append {calls : List RegistryCall} (h : registry.AbandonsPlans calls plans)
    (more : List RegistryCall) : registry.AbandonsPlans (calls ++ more) plans := by
  obtain ⟨before, bound, view, rest, rfl, habandons⟩ := h
  refine ⟨before, bound, view, rest ++ more, ?_, habandons⟩
  rw [List.append_assoc, List.cons_append]

/-- A call leaves a ledger; it only has more lost plans if it is a construction that abandons
them. -/
theorem Ledger.answer (h : registry.Ledger kept lost) (call : RegistryCall) :
    ∃ kept' plans, (registry.answer call).2.Ledger kept' (lost ++ plans) ∧
      (plans ≠ [] → ∃ bound view, call = .construct bound view ∧
        registry.Abandons bound view plans) := by
  cases call with
  | register cut =>
    refine ⟨kept, [], ?_, fun hne ↦ absurd rfl hne⟩
    rw [List.append_nil, CutRegistry.answer]
    split
    · exact h
    · next hregister =>
      rw [(register_eq_ok hregister).2]
      exact ⟨h.plans, h.goalPathStates, h.accepted⟩
  | construct bound view =>
    rcases hconstruct : registry.construct bound view with ⟨e | ⟨⟩, registry'⟩
    · obtain ⟨plans, habandons⟩ := exists_abandons hconstruct
      obtain ⟨kept', hlater⟩ := h.of_abandons habandons
      exact ⟨kept', plans, hlater, fun _ ↦ ⟨bound, view, rfl, habandons⟩⟩
    · obtain ⟨kept', hlater⟩ := h.construct_ok hconstruct
      refine ⟨kept', [], ?_, fun hne ↦ absurd rfl hne⟩
      rw [List.append_nil, CutRegistry.answer, hconstruct]
      exact hlater

/-- A history leaves a ledger; the lost plans stay lost. -/
theorem Ledger.after (h : registry.Ledger kept lost) (calls : List RegistryCall) :
    ∃ kept' more, (registry.after calls).Ledger kept' (lost ++ more) ∧
      (more ≠ [] → ∃ plans, plans ≠ [] ∧ registry.AbandonsPlans calls plans) := by
  -- On the last call, since plans are abandoned by a call after some history.
  induction calls using List.reverseRecOn with
  | nil =>
    refine ⟨kept, [], ?_, fun hne ↦ absurd rfl hne⟩
    rwa [List.append_nil]
  | append_singleton calls call ih =>
    obtain ⟨kept₁, more, hlater, hmore⟩ := ih
    obtain ⟨kept₂, plans, hlast, hplans⟩ := hlater.answer call
    refine ⟨kept₂, more ++ plans, ?_, fun hne ↦ ?_⟩
    · rw [after_concat, ← List.append_assoc]
      exact hlast
    · by_cases hnone : plans = []
      · rw [hnone, List.append_nil] at hne
        obtain ⟨plans, hne, habandons⟩ := hmore hne
        exact ⟨plans, hne, habandons.append [call]⟩
      · obtain ⟨bound, view, rfl, habandons⟩ := hplans hnone
        exact ⟨plans, hnone, calls, bound, view, [], rfl, habandons⟩

/-- Plans that are abandoned in a history are lost at its end. -/
theorem Ledger.after_of_abandonsPlans (h : registry.Ledger kept lost) {calls : List RegistryCall}
    (habandons : registry.AbandonsPlans calls plans) :
    ∃ kept' front back, (registry.after calls).Ledger kept' (front ++ plans ++ back) := by
  obtain ⟨before, bound, view, rest, rfl, habandons⟩ := habandons
  obtain ⟨kept₁, more, hbefore, -⟩ := h.after before
  obtain ⟨kept₂, hfailed⟩ := hbefore.of_abandons habandons
  obtain ⟨kept₃, back, hlast, -⟩ := hfailed.after rest
  refine ⟨kept₃, lost ++ more, back, ?_⟩
  rw [after_append]
  exact hlast

/-- Before the first call nothing is written down, and there is nothing to write down. -/
theorem ledger_ofStore {selection : Selection} {simpleOnly : Bool} {database : PlanDatabase}
    (h : PlanDatabase.ofSelection? selection simpleOnly = .ok database) (singleSolution : Bool) :
    (ofStore database singleSolution).Ledger [] [] := by
  refine ⟨?_, rfl, rfl⟩
  show database.plans.Perm []
  rw [PlanDatabase.plans_of_ofSelection? h]

theorem not_abandonsPlans_of_succeeds {calls : List RegistryCall} (h : registry.Succeeds calls) :
    ¬ registry.AbandonsPlans calls plans := by
  rintro ⟨before, bound, view, rest, rfl, last, cut, more, e, store, -, -, -, hconstruct, -⟩
  rw [← List.singleton_append, ← List.append_assoc] at h
  have hanswer := (succeeds_concat.mp h.of_append).2
  rw [answer, hconstruct] at hanswer
  cases hanswer

/-- After any history of calls, whatever the answers, what is written down is part of what is in the
database.  The books are balanced exactly if no construction has failed on a cut from which plans
had been accepted; so they are if no call has failed. -/
theorem balanced_after_iff {selection : Selection} {simpleOnly : Bool} {database : PlanDatabase}
    (h : PlanDatabase.ofSelection? selection simpleOnly = .ok database) (singleSolution : Bool)
    (calls : List RegistryCall) :
    let registry := ofStore database singleSolution
    let last := registry.after calls
    (last.Balanced ↔ ∀ plans, registry.AbandonsPlans calls plans → plans = []) ∧
      (registry.Succeeds calls → last.Balanced) ∧
      (∀ s ∈ last.goalPathStates, s ∈ PlanDatabase.statesOn last.store.plans) ∧
      acceptedIn last.report.events ≤ last.report.acceptedPlans := by
  have hfresh := ledger_ofStore h singleSolution
  obtain ⟨kept, lost, hlast, hlost⟩ := hfresh.after calls
  rw [List.nil_append] at hlast
  have hbalanced : ((ofStore database singleSolution).after calls).Balanced ↔
      ∀ plans, (ofStore database singleSolution).AbandonsPlans calls plans → plans = [] := by
    constructor
    · intro hbalanced plans habandons
      obtain ⟨kept', front, back, hlast'⟩ := hfresh.after_of_abandonsPlans habandons
      have hnil := hlast'.balanced_iff.mp hbalanced
      exact (List.append_eq_nil_iff.mp (List.append_eq_nil_iff.mp hnil).1).2
    · intro hnone
      refine hlast.balanced_iff.mpr ?_
      by_contra hne
      obtain ⟨plans, hplans, habandons⟩ := hlost hne
      exact hplans (hnone plans habandons)
  refine ⟨hbalanced, fun hsucceeds ↦ hbalanced.mpr fun plans habandons ↦ ?_,
    hlast.goalPathStates_subset, ?_⟩
  · exact absurd habandons (not_abandonsPlans_of_succeeds hsucceeds)
  · show _ ≤ ((ofStore database singleSolution).after calls).found
    rw [hlast.found_eq]
    exact Nat.le_add_right _ _

end CutRegistry

/-- On the cycle no call fails, so the books are balanced. -/
theorem cycle_balanced :
    ∃ database, PlanDatabase.ofSelection? (.topK 2) false = .ok database ∧
      ((CutRegistry.ofStore database false).after cycleCalls).Balanced := by
  have hdatabase : PlanDatabase.ofSelection? (.topK 2) false =
      .ok ⟨.topK 2, false, [], [], none, false⟩ := rfl
  exact ⟨_, hdatabase,
    (CutRegistry.balanced_after_iff hdatabase false cycleCalls).2.1 (by decide +kernel)⟩

/-- A cut of the task that starts at its goal, with a second meeting state from nowhere. -/
def strayCalls : List RegistryCall :=
  [.register ⟨0, 0, .ofList [.single 0, .single 5]⟩,
    .construct 1
      { task := arrived.toTask
        forward? := some (ClosedLayers.empty.pushSublayer 0 (.singleton (.single 0)))
        backward? := some (ClosedLayers.empty.pushSublayer 0 (.singleton (.single 0))) }]

/-- The empty plan is accepted from the first meeting state, the construction fails on the second,
and then neither the states of the plan nor its number are written down. -/
theorem stray_not_balanced :
    ∃ database last, PlanDatabase.ofSelection? (.topK 2) false = .ok database ∧
      last = (CutRegistry.ofStore database false).after strayCalls ∧
      last.store.plans = [⟨[], [.single 0]⟩] ∧ last.goalPathStates = ∅ ∧
      last.report.acceptedPlans = 1 ∧ last.report.events = [] ∧ ¬ last.Balanced := by
  refine ⟨⟨.topK 2, false, [], [], none, false⟩, _, rfl, rfl, by decide +kernel,
    by decide +kernel, by decide +kernel, by decide +kernel, fun h ↦ ?_⟩
  exact absurd h.acceptedPlans (by decide +kernel)

end LayeredPlanning
