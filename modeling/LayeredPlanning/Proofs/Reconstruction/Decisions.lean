import LayeredPlanning.Proofs.Reconstruction.Submissions
import LayeredPlanning.Reconstruction.CutRegistry
import Mathlib.Logic.Relation

/-!
# The decisions of a construction

A construction decides on the first cut of its queue, then on the next one, until it has no reason
to go on.  `CutRegistry.Decides` is one decision with all that it changes, `CutRegistry.Stops` is
the end, and `exists_decisions` says that a construction is nothing else.

* A construction succeeds unless the reconstruction of a cut fails: `construct_eq_ok`,
  `construct_eq_error`.
* What decisions and ends keep up is kept up by a construction, also by one that fails:
  `construct_induction`.  Of the store this is what submissions and refusals keep up:
  `store_constructFrom`.
* A cut leaves the queue only with an event in the log, and the log only grows: `decided_construct`,
  `events_construct`.
-/

namespace LayeredPlanning

/-- The event is that of a cut that was taken off the queue. -/
structure CutEvent.Disposes (event : CutEvent) (cut : Cut) : Prop where
  g : event.g = cut.g
  h : event.h = cut.h
  f : event.f = cut.f
  outcome : event.outcome ≠ .outsideQualityBound

/-- The log has an event of a cut that was taken off the queue. -/
def Cut.DisposedIn (cut : Cut) (events : List CutEvent) : Prop :=
  ∃ event ∈ events, event.Disposes cut

/-- What is said of a cut is said of all cuts with its costs. -/
theorem Cut.DisposedIn.of_key {cut c : Cut} {events : List CutEvent} (h : cut.DisposedIn events)
    (hkey : cut.key = c.key) : c.DisposedIn events := by
  obtain ⟨event, hevent, hg, hh, hf, houtcome⟩ := h
  obtain ⟨hf', hg', hh'⟩ := CutKey.mk.inj hkey
  exact ⟨event, hevent, hg.trans hg', hh.trans hh', hf.trans hf', houtcome⟩

namespace CutRegistry

open Relation

section Decisions

variable {σ : Type} [PlanStore σ]

/-- The first cut comes up for decision: plans are missing, and it costs less than the bound. -/
structure ComesUp (registry : CutRegistry σ) (bound : Int) (cut : Cut) (rest : List Cut) :
    Prop where
  missing : registry.foundAll = false
  cuts : registry.cuts = cut :: rest
  lt : cut.f < bound

/-- The registry after the reconstruction of its first cut. -/
def reconstructed (registry : CutRegistry σ) (cut : Cut) (rest : List Cut) (tally : Tally)
    (store : σ) : CutRegistry σ :=
  { registry.consume cut rest (outcomeOf tally) with
    store := store
    goalPathStates := registry.goalPathStates ∪ tally.goalPathStates }

/-- The registry after its store has refused the cost of the first cut. -/
def refused (registry : CutRegistry σ) (cut : Cut) : CutRegistry σ :=
  { registry with
    store := PlanStore.closeAtCost registry.store cut.f
    events := registry.events ++ [.ofCut cut .outsideQualityBound] }

/-- A decision after which the construction goes on: the first cut is dropped or reconstructed. -/
inductive Decides (bound : Int) (view : LayerView) (registry : CutRegistry σ) :
    CutRegistry σ → Prop where
  | drop {cut : Cut} {rest : List Cut} {watermark : Int} : registry.ComesUp bound cut rest →
      registry.watermarkAbove? cut = some watermark →
        Decides bound view registry (registry.consume cut rest (.belowWatermark watermark))
  | reconstruct {cut : Cut} {rest : List Cut} {tally : Tally} {store : σ} :
      registry.ComesUp bound cut rest → registry.watermarkAbove? cut = none →
        PlanStore.admitsCost registry.store cut.f = true →
        reconstruct view cut registry.missing registry.store = (.ok tally, store) →
          Decides bound view registry (registry.reconstructed cut rest tally store)

/-- How a construction ends: nothing is left to decide, the cost of the first cut is refused, or its
reconstruction fails. -/
inductive Stops (bound : Int) (view : LayerView) (registry : CutRegistry σ) :
    Except ReconstructionError (Option Int) × CutRegistry σ → Prop where
  | done {least? : Option Int} :
      (registry.foundAll = false →
        ∀ cut, registry.cuts.head? = some cut → bound ≤ cut.f) →
        Stops bound view registry (.ok least?, registry)
  | refuse {least? : Option Int} {cut : Cut} {rest : List Cut} :
      registry.ComesUp bound cut rest → PlanStore.admitsCost registry.store cut.f = false →
        Stops bound view registry (.ok least?, registry.refused cut)
  | fail {cut : Cut} {rest : List Cut} {e : ReconstructionError} {store : σ} :
      registry.ComesUp bound cut rest →
        reconstruct view cut registry.missing registry.store = (.error e, store) →
          Stops bound view registry (.error e, { registry with store := store })

variable {registry registry' : CutRegistry σ} {bound : Int} {view : LayerView} {cut : Cut}
  {rest : List Cut}

theorem leastOf_some (least cost : Int) : leastOf (some least) cost = min least cost := by
  rw [leastOf]
  exact (Int.min_def least cost).symm

/-- The loop comes to a cut. -/
theorem comesUp_of_not_le (hopen : ¬ registry.foundAll = true)
    (hcuts : registry.cuts = cut :: rest) (hlt : ¬ bound ≤ cut.f) :
    registry.ComesUp bound cut rest :=
  ⟨Bool.not_eq_true _ ▸ hopen, hcuts, Int.not_le.mp hlt⟩

/-- With nothing to decide, the loop of a construction leaves the registry as it is. -/
theorem constructFrom_of_idle
    (hidle : registry.foundAll = false →
      ∀ cut, registry.cuts.head? = some cut → bound ≤ cut.f)
    (view : LayerView) (least? : Option Int) :
    registry.constructFrom bound view least? = (.ok least?, registry) := by
  rw [constructFrom]
  cases hall : registry.foundAll with
  | true => rfl
  | false =>
    rw [if_neg Bool.false_ne_true]
    split
    · rfl
    · next cut rest hcuts =>
      exact if_pos (hidle hall cut (by rw [hcuts]; rfl))

theorem constructFrom_of_foundAll (hall : registry.foundAll = true) (bound : Int) (view : LayerView)
    (least? : Option Int) : registry.constructFrom bound view least? = (.ok least?, registry) := by
  refine constructFrom_of_idle (fun hopen ↦ ?_) view least?
  rw [hall] at hopen
  cases hopen

theorem construct_of_idle
    (hidle : registry.foundAll = false →
      ∀ cut, registry.cuts.head? = some cut → bound ≤ cut.f)
    (view : LayerView) : registry.construct bound view = (.ok (), registry) := by
  rw [construct, constructFrom_of_idle hidle]
  rfl

/-- What the loop of a construction does with a cut that comes up. -/
theorem ComesUp.constructFrom_eq (hup : registry.ComesUp bound cut rest) (view : LayerView)
    (least? : Option Int) :
    registry.constructFrom bound view least? =
      match registry.watermarkAbove? cut with
      | some watermark =>
        (registry.consume cut rest (.belowWatermark watermark)).constructFrom bound view least?
      | none =>
        if PlanStore.admitsCost registry.store cut.f then
          match LayeredPlanning.reconstruct view cut registry.missing registry.store with
          | (.error e, store) => (.error e, { registry with store := store })
          | (.ok tally, store) =>
            (registry.reconstructed cut rest tally store).constructFrom bound view
              (some (leastOf least? cut.f))
        else (.ok least?, registry.refused cut) := by
  rw [constructFrom, hup.missing, if_neg Bool.false_ne_true]
  split
  · next hcuts =>
    rw [hup.cuts] at hcuts
    cases hcuts
  · next hcuts =>
    rw [hup.cuts] at hcuts
    cases hcuts
    exact if_neg (Int.not_le.mpr hup.lt)

theorem ComesUp.constructFrom_consume (hup : registry.ComesUp bound cut rest) {watermark : Int}
    (hwatermark : registry.watermarkAbove? cut = some watermark) (view : LayerView)
    (least? : Option Int) :
    registry.constructFrom bound view least? =
      (registry.consume cut rest (.belowWatermark watermark)).constructFrom bound view least? := by
  rw [hup.constructFrom_eq, hwatermark]

section Reconstruct

variable {tally : Tally} {store : σ} {e : ReconstructionError}

theorem ComesUp.constructFrom_reconstructed (hup : registry.ComesUp bound cut rest)
    (hwatermark : registry.watermarkAbove? cut = none)
    (hadmits : PlanStore.admitsCost registry.store cut.f = true)
    (hrec : LayeredPlanning.reconstruct view cut registry.missing registry.store =
      (.ok tally, store)) (least? : Option Int) :
    registry.constructFrom bound view least? =
      (registry.reconstructed cut rest tally store).constructFrom bound view
        (some (leastOf least? cut.f)) := by
  rw [hup.constructFrom_eq, hwatermark]
  dsimp only
  rw [if_pos hadmits, hrec]

theorem ComesUp.constructFrom_error (hup : registry.ComesUp bound cut rest)
    (hwatermark : registry.watermarkAbove? cut = none)
    (hadmits : PlanStore.admitsCost registry.store cut.f = true)
    (hrec : LayeredPlanning.reconstruct view cut registry.missing registry.store =
      (.error e, store)) (least? : Option Int) :
    registry.constructFrom bound view least? = (.error e, { registry with store := store }) := by
  rw [hup.constructFrom_eq, hwatermark]
  dsimp only
  rw [if_pos hadmits, hrec]

theorem ComesUp.constructFrom_refused (hup : registry.ComesUp bound cut rest)
    (hwatermark : registry.watermarkAbove? cut = none)
    (hrefuses : PlanStore.admitsCost registry.store cut.f = false) (view : LayerView)
    (least? : Option Int) :
    registry.constructFrom bound view least? = (.ok least?, registry.refused cut) := by
  rw [hup.constructFrom_eq, hwatermark]
  dsimp only
  rw [hrefuses, if_neg Bool.false_ne_true]

end Reconstruct

/-- The loop of a construction takes decisions, and stops. -/
theorem exists_decisions (registry : CutRegistry σ) (bound : Int) (view : LayerView)
    (least? : Option Int) :
    ∃ last, ReflTransGen (Decides bound view) registry last ∧
      last.Stops bound view (registry.constructFrom bound view least?) := by
  fun_induction CutRegistry.constructFrom bound view registry least? with
  | case1 registry least? hall =>
    refine ⟨registry, .refl, .done fun hopen ↦ ?_⟩
    rw [hall] at hopen
    cases hopen
  | case2 registry least? hopen hcuts =>
    refine ⟨registry, .refl, .done ?_⟩
    rintro _ cut hcut
    rw [hcuts] at hcut
    cases hcut
  | case3 registry least? hopen cut rest hcuts hle =>
    refine ⟨registry, .refl, .done ?_⟩
    rintro _ c hc
    rw [hcuts] at hc
    cases hc
    exact hle
  | case4 registry least? hopen cut rest hcuts hlt watermark hwatermark ih =>
    have hup := comesUp_of_not_le hopen hcuts hlt
    obtain ⟨last, hlast, hstops⟩ := ih
    exact ⟨last, .head (.drop hup hwatermark) hlast, hstops⟩
  | case5 registry least? hopen cut rest hcuts hlt hwatermark hadmits e store hrec =>
    exact ⟨registry, .refl, .fail (comesUp_of_not_le hopen hcuts hlt) hrec⟩
  | case6 registry least? hopen cut rest hcuts hlt hwatermark hadmits tally store hrec ih =>
    have hup := comesUp_of_not_le hopen hcuts hlt
    obtain ⟨last, hlast, hstops⟩ := ih
    exact ⟨last, .head (.reconstruct hup hwatermark hadmits hrec) hlast, hstops⟩
  | case7 registry least? hopen cut rest hcuts hlt hwatermark hadmits =>
    exact ⟨registry, .refl, .refuse (comesUp_of_not_le hopen hcuts hlt)
      (Bool.not_eq_true _ ▸ hadmits)⟩

/-- A construction that succeeds stops without an error, and then moves the watermark. -/
theorem construct_eq_ok (h : registry.construct bound view = (.ok (), registry')) :
    ∃ last least? stopped watermark?, ReflTransGen (Decides bound view) registry last ∧
      last.Stops bound view (.ok least?, stopped) ∧
        registry' = { stopped with planCostBound? := watermark? } := by
  obtain ⟨last, hlast, hstops⟩ := exists_decisions registry bound view none
  rw [construct] at h
  split at h
  · cases h
  · next least? stopped hloop =>
    cases h
    rw [hloop] at hstops
    exact ⟨last, least?, stopped, _, hlast, hstops, rfl⟩

/-- A construction that fails stops with its error. -/
theorem construct_eq_error {e : ReconstructionError}
    (h : registry.construct bound view = (.error e, registry')) :
    ∃ last, ReflTransGen (Decides bound view) registry last ∧
      last.Stops bound view (.error e, registry') := by
  obtain ⟨last, hlast, hstops⟩ := exists_decisions registry bound view none
  rw [construct] at h
  split at h
  · next e' stopped hloop =>
    cases h
    rw [hloop] at hstops
    exact ⟨last, hlast, hstops⟩
  · cases h

/-- What decisions keep up holds of all registries to which they lead. -/
theorem decides_induction {P : CutRegistry σ → Prop}
    (hdecides : ∀ registry registry', P registry → Decides bound view registry registry' →
      P registry')
    (h : P registry) (hlast : ReflTransGen (Decides bound view) registry registry') :
    P registry' := by
  induction hlast with
  | refl => exact h
  | tail _ hdecision ih => exact hdecides _ _ ih hdecision

/-- What decisions and ends keep up is kept up by the loop of a construction. -/
theorem constructFrom_induction {P : CutRegistry σ → Prop}
    (hdecides : ∀ registry registry', P registry → Decides bound view registry registry' →
      P registry')
    (hstops : ∀ registry result registry', P registry →
      registry.Stops bound view (result, registry') → P registry')
    (h : P registry) (least? : Option Int) : P (registry.constructFrom bound view least?).2 := by
  obtain ⟨last, hlast, hend⟩ := exists_decisions registry bound view least?
  exact hstops last _ _ (decides_induction hdecides h hlast) hend

/-- What holds of a registry whatever its watermark, and is kept up by decisions and ends, is kept
up by a construction. -/
theorem construct_induction {P : CutRegistry σ → Prop}
    (hdecides : ∀ registry registry', P registry → Decides bound view registry registry' →
      P registry')
    (hstops : ∀ registry result registry', P registry →
      registry.Stops bound view (result, registry') → P registry')
    (hwatermark : ∀ registry watermark?, P registry →
      P { registry with planCostBound? := watermark? })
    (h : P registry) : P (registry.construct bound view).2 := by
  have hloop := constructFrom_induction hdecides hstops h none
  rcases heq : registry.constructFrom bound view none with ⟨e | least?, stopped⟩
  · rw [heq] at hloop
    rw [construct, heq]
    exact hloop
  · rw [heq] at hloop
    rw [construct, heq]
    exact hwatermark _ _ hloop

/-- What submissions and refusals keep up of the store is kept up by the loop of a construction. -/
theorem store_constructFrom {P : σ → Prop}
    (hsubmit : ∀ store plan, P store → P (PlanStore.submit store plan).2)
    (hclose : ∀ store cost, P store → P (PlanStore.closeAtCost store cost))
    (h : P registry.store) (bound : Int) (view : LayerView) (least? : Option Int) :
    P (registry.constructFrom bound view least?).2.store := by
  have hreconstruct : ∀ {later : CutRegistry σ} {cut : Cut} {result store}, P later.store →
      LayeredPlanning.reconstruct view cut later.missing later.store = (result, store) →
        P store := by
    intro later cut result store h hrec
    have hlast := reconstruct_induction hsubmit h view cut later.missing
    rwa [hrec] at hlast
  refine constructFrom_induction (P := fun later ↦ P later.store) ?_ ?_ h least?
  · intro later next h hdecides
    cases hdecides with
    | drop => exact h
    | reconstruct _ _ _ hrec => exact hreconstruct h hrec
  · intro later result last h hstops
    cases hstops with
    | done => exact h
    | refuse => exact hclose _ _ h
    | fail _ hrec => exact hreconstruct h hrec

/-- A construction does with the store what its loop does. -/
theorem store_construct (registry : CutRegistry σ) (bound : Int) (view : LayerView) :
    (registry.construct bound view).2.store = (registry.constructFrom bound view none).2.store := by
  rw [construct]
  split
  · next hloop => rw [hloop]
  · next hloop => rw [hloop]

/-- Whether a single plan is wanted never changes. -/
theorem singleSolution_construct (registry : CutRegistry σ) (bound : Int) (view : LayerView) :
    (registry.construct bound view).2.singleSolution = registry.singleSolution := by
  refine construct_induction
    (P := fun later ↦ later.singleSolution = registry.singleSolution) ?_ ?_ (fun _ _ h ↦ h) rfl
  · intro later next h hdecides
    cases hdecides <;> exact h
  · intro later result last h hstops
    cases hstops <;> exact h

/-! ## The log -/

/-- The log only grows. -/
theorem events_construct (registry : CutRegistry σ) (bound : Int) (view : LayerView) :
    registry.events <+: (registry.construct bound view).2.events := by
  refine construct_induction (P := fun later ↦ registry.events <+: later.events) ?_ ?_
    (fun _ _ h ↦ h) (List.prefix_refl _)
  · intro later next h hdecides
    cases hdecides with
    | drop | reconstruct => exact h.trans (List.prefix_append _ _)
  · intro later result last h hstops
    cases hstops with
    | done | fail => exact h
    | refuse => exact h.trans (List.prefix_append _ _)

/-- A construction leaves a cut in the queue, or takes it off with an event. -/
theorem decided_construct {cut : Cut} (hcut : cut ∈ registry.cuts) (bound : Int)
    (view : LayerView) :
    cut ∈ (registry.construct bound view).2.cuts ∨
      cut.DisposedIn (registry.construct bound view).2.events := by
  have hconsume : ∀ {later : CutRegistry σ} {first : Cut} {rest : List Cut}
      {outcome : CutOutcome}, later.cuts = first :: rest →
      outcome ≠ .outsideQualityBound → cut ∈ later.cuts ∨ cut.DisposedIn later.events →
        cut ∈ rest ∨ cut.DisposedIn (later.events ++ [.ofCut first outcome]) := by
    rintro later first rest outcome hcuts houtcome (hwaits | ⟨event, hevent, hdisposes⟩)
    · rw [hcuts] at hwaits
      rcases List.mem_cons.mp hwaits with rfl | hrest
      · exact .inr ⟨_, List.mem_append_right _ (List.mem_singleton.mpr rfl), rfl, rfl,
          rfl, houtcome⟩
      · exact .inl hrest
    · exact .inr ⟨event, List.mem_append_left _ hevent, hdisposes⟩
  refine construct_induction
    (P := fun later ↦ cut ∈ later.cuts ∨ cut.DisposedIn later.events) ?_ ?_
    (fun _ _ h ↦ h) (.inl hcut)
  · intro later next h hdecides
    cases hdecides with
    | drop hup => exact hconsume hup.cuts nofun h
    | reconstruct hup => exact hconsume hup.cuts nofun h
  · intro later result last h hstops
    cases hstops with
    | done | fail => exact h
    | refuse =>
      refine h.imp_right ?_
      rintro ⟨event, hevent, hdisposes⟩
      exact ⟨event, List.mem_append_left _ hevent, hdisposes⟩

end Decisions

end CutRegistry

end LayeredPlanning
