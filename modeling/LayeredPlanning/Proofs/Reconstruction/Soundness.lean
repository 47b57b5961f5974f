import LayeredPlanning.Proofs.Reconstruction.Decisions
import LayeredPlanning.Proofs.Reconstruction.Registry

/-!
# Sound registries

Whatever cuts are registered and up to whatever bound they are reconstructed, from layers that may
be wrong or incomplete, the plans in the database are plans of eligible paths below the bound
(`CutRegistry.Sound`).  A construction that fails keeps this up as well: `Sound.construct`.
-/

namespace LayeredPlanning

/-- The plan is that of an eligible path, and its cost is exact. -/
def Plan.OfEligible (task : Task) (simpleOnly : Bool) (plan : Plan) : Prop :=
  ∃ es, task.Eligible simpleOnly es ∧ plan = pathPlan task.initial es ∧
    plan.cost = pathCost es

/-- A reconstruction, be it given up or not, adds plans of eligible paths that cost what the cut
promises. -/
theorem mem_plans_reconstruct {view : LayerView} {cut : Cut} {budget : Nat} {db : PlanDatabase}
    {plan : Plan} (hcons : ∀ r ∈ view.task.transitions.relations, r.Consistent)
    (hcut : cut.Valid) (hplan : plan ∈ (reconstruct view cut budget db).2.plans) :
    plan ∈ db.plans ∨ plan.cost = cut.f ∧ plan.OfEligible view.task db.simpleOnly := by
  by_cases hbudget : budget = 0
  · rw [reconstruct, if_pos hbudget] at hplan
    exact .inl hplan
  rw [reconstruct_eq_deliver hbudget, Walk.deliver_snd] at hplan
  rcases PlanDatabase.mem_of_submitAll rfl hplan with hold | ⟨hnew, hsimple⟩
  · exact .inl hold
  · obtain ⟨hcost, w, hw, rfl⟩ := witness_of_mem_submissions hcons hnew
    obtain ⟨heligible, hpath⟩ := hw.eligible
    refine .inr ⟨hcost, w.path, ⟨heligible.goal, heligible.levelSimple, hsimple⟩, rfl, ?_⟩
    rw [hcost, hpath, hcut.f_eq]

namespace CutRegistry

variable {registry registry' : CutRegistry PlanDatabase} {task : Task} {view : LayerView}
  {lo bound : Int} {cut : Cut}

/-- The cuts are valid, and the plans are plans of eligible paths below the bound. -/
structure Sound (task : Task) (bound : Int) (registry : CutRegistry PlanDatabase) : Prop where
  valid : ∀ cut ∈ registry.cuts, cut.Valid
  cost_lt : ∀ plan ∈ registry.store.plans, plan.cost < bound
  plan_of : ∀ plan ∈ registry.store.plans, plan.OfEligible task registry.store.simpleOnly

theorem sound_ofStore {selection : Selection} {simpleOnly : Bool} {database : PlanDatabase}
    (h : PlanDatabase.ofSelection? selection simpleOnly = .ok database) (singleSolution : Bool)
    (bound : Int) : (ofStore database singleSolution).Sound task bound := by
  have hplans : (ofStore database singleSolution).store.plans = [] :=
    PlanDatabase.plans_of_ofSelection? h
  constructor
  · exact fun cut hcut ↦ absurd hcut List.not_mem_nil
  · rw [hplans]
    exact fun plan hplan ↦ absurd hplan List.not_mem_nil
  · rw [hplans]
    exact fun plan hplan ↦ absurd hplan List.not_mem_nil

namespace Sound

theorem mono (h : registry.Sound task lo) (hle : lo ≤ bound) : registry.Sound task bound :=
  ⟨h.valid, fun plan hplan ↦ Int.lt_of_lt_of_le (h.cost_lt plan hplan) hle, h.plan_of⟩

theorem register (h : registry.Sound task bound)
    (hregister : registry.register cut = .ok registry') : registry'.Sound task bound := by
  obtain ⟨hcut, rfl⟩ := register_eq_ok hregister
  refine ⟨?_, h.cost_lt, h.plan_of⟩
  intro c hc
  rcases Cut.key_of_mem_insertInto hc with hkey | hc
  · exact Cut.valid_of_key hkey hcut
  · exact h.valid c hc

/-- A reconstruction keeps the database sound, whatever cuts then wait. -/
theorem reconstruct (h : registry.Sound view.task bound)
    (hcons : ∀ r ∈ view.task.transitions.relations, r.Consistent) {rest : List Cut}
    (hup : registry.ComesUp bound cut rest) (hcuts : registry'.cuts ⊆ registry.cuts)
    (hstore : registry'.store =
      (LayeredPlanning.reconstruct view cut registry.missing registry.store).2) :
    registry'.Sound view.task bound := by
  have hcut : cut.Valid := by
    apply h.valid
    rw [hup.cuts]
    exact List.mem_cons_self
  have hsimple : registry'.store.simpleOnly = registry.store.simpleOnly := by
    rw [hstore, (extends_reconstruct view cut registry.missing registry.store).simpleOnly]
  refine ⟨fun c hc ↦ h.valid c (hcuts hc), ?_, ?_⟩
  · intro plan hplan
    rw [hstore] at hplan
    rcases mem_plans_reconstruct hcons hcut hplan with hold | ⟨hcost, -⟩
    · exact h.cost_lt plan hold
    · rw [hcost]
      exact hup.lt
  · intro plan hplan
    rw [hstore] at hplan
    rw [hsimple]
    rcases mem_plans_reconstruct hcons hcut hplan with hold | ⟨-, heligible⟩
    · exact h.plan_of plan hold
    · exact heligible

theorem decides (h : registry.Sound view.task bound)
    (hcons : ∀ r ∈ view.task.transitions.relations, r.Consistent)
    (hdecides : Decides bound view registry registry') : registry'.Sound view.task bound := by
  cases hdecides with
  | drop hup _ =>
    refine ⟨fun c hc ↦ h.valid c ?_, h.cost_lt, h.plan_of⟩
    rw [hup.cuts]
    exact List.mem_cons_of_mem _ hc
  | @reconstruct cut rest tally store hup _ _ hrec =>
    refine h.reconstruct hcons hup ?_ ?_
    · rw [hup.cuts]
      exact List.subset_cons_self cut rest
    · rw [hrec]
      rfl

theorem stops (h : registry.Sound view.task bound)
    (hcons : ∀ r ∈ view.task.transitions.relations, r.Consistent)
    {result : Except ReconstructionError (Option Int)}
    (hstops : registry.Stops bound view (result, registry')) : registry'.Sound view.task bound := by
  cases hstops with
  | done => exact h
  | @refuse least? cut rest =>
    have hstore : (registry.refused cut).store = registry.store.closeAtCost cut.f := rfl
    refine ⟨h.valid, ?_, ?_⟩
    · rw [hstore, PlanDatabase.plans_closeAtCost]
      exact h.cost_lt
    · rw [hstore, PlanDatabase.plans_closeAtCost, PlanDatabase.simpleOnly_closeAtCost]
      exact h.plan_of
  | fail hup hrec =>
    refine h.reconstruct hcons hup (List.Subset.refl _) ?_
    rw [hrec]

/-- A construction up to a higher bound keeps the registry sound, also if it fails. -/
theorem construct (h : registry.Sound view.task lo)
    (hcons : ∀ r ∈ view.task.transitions.relations, r.Consistent) (hle : lo ≤ bound) :
    (registry.construct bound view).2.Sound view.task bound := by
  refine construct_induction (P := fun registry ↦ registry.Sound view.task bound)
    (fun _ _ h hdecides ↦ h.decides hcons hdecides) (fun _ _ _ h hstops ↦ h.stops hcons hstops)
    (fun _ _ h ↦ ⟨h.valid, h.cost_lt, h.plan_of⟩) (h.mono hle)

end Sound

end CutRegistry

end LayeredPlanning
