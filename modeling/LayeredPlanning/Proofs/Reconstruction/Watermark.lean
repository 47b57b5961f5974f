import LayeredPlanning.Proofs.Reconstruction.Queue

/-!
# The watermark

A construction goes through the queue from the front, and logs what becomes of each cut (`Batch`):
those below the watermark are dropped, and those after them are reconstructed, up to the bound or to
the first cost that the store refuses.  Since the queue is in order the first cut that is
reconstructed is the cheapest, and it is not below the watermark.  So the watermark moves to it when
the construction succeeds (`CutRegistry.exists_batch`), and never goes back:
`CutRegistry.watermark_after`.
-/

namespace LayeredPlanning

namespace CutEvent

/-- The key of the cut that was decided on. -/
def key (event : CutEvent) : CutKey := ⟨event.f, event.g, event.h⟩

/-- Whether the plans of the cut were submitted. -/
def isReconstructed (event : CutEvent) : Bool :=
  match event.outcome with
  | .reconstructed _ _ _ => true
  | .belowWatermark _ | .outsideQualityBound => false

/-- The cost of the first cut that was reconstructed. -/
def firstReconstructed? (events : List CutEvent) : Option Int :=
  (events.find? isReconstructed).map CutEvent.f

end CutEvent

/-- The decisions of a construction on the cuts of a queue, with those that are left. -/
inductive Batch (bound : Int) (watermark? : Option Int) :
    List Cut → List CutEvent → List Cut → Prop where
  | stop (cuts : List Cut) : Batch bound watermark? cuts [] cuts
  | drop {cut : Cut} {rest left : List Cut} {events : List CutEvent} {watermark : Int} :
      cut.f < bound → watermark? = some watermark → cut.f < watermark →
        Batch bound watermark? rest events left →
          Batch bound watermark? (cut :: rest)
            (.ofCut cut (.belowWatermark watermark) :: events) left
  | reconstruct {cut : Cut} {rest left : List Cut} {events : List CutEvent} {tally : Tally} :
      cut.f < bound → (∀ watermark, watermark? = some watermark → watermark ≤ cut.f) →
        Batch bound watermark? rest events left →
          Batch bound watermark? (cut :: rest)
            (.ofCut cut (CutRegistry.outcomeOf tally) :: events) left
  | refuse {cut : Cut} {rest : List Cut} : cut.f < bound →
      Batch bound watermark? (cut :: rest) [.ofCut cut .outsideQualityBound] (cut :: rest)

namespace Batch

variable {bound watermark : Int} {watermark? : Option Int} {cuts left : List Cut}
  {events : List CutEvent} {event : CutEvent}

/-- The decisions are on the first cuts, in their order. -/
theorem keys (h : Batch bound watermark? cuts events left) :
    events.map CutEvent.key <+: cuts.map Cut.key := by
  induction h with
  | stop => exact List.nil_prefix
  | drop _ _ _ _ ih | reconstruct _ _ _ ih => exact List.cons_prefix_cons.mpr ⟨rfl, ih⟩
  | refuse => exact List.cons_prefix_cons.mpr ⟨rfl, List.nil_prefix⟩

theorem ascending (h : Batch bound watermark? cuts events left)
    (hcuts : cuts.Pairwise fun a b ↦ a.key < b.key) :
    events.Pairwise fun a b ↦ a.key < b.key := by
  have hkeys := (List.pairwise_map.mpr hcuts).sublist h.keys.sublist
  exact List.pairwise_map.mp hkeys

theorem lt (h : Batch bound watermark? cuts events left) (hevent : event ∈ events) :
    event.f < bound := by
  induction h with
  | stop => exact absurd hevent List.not_mem_nil
  | drop hlt _ _ _ ih | reconstruct hlt _ _ ih =>
    rcases List.mem_cons.mp hevent with rfl | hevent
    · exact hlt
    · exact ih hevent
  | refuse hlt =>
    obtain rfl := List.mem_singleton.mp hevent
    exact hlt

/-- What is reconstructed is not below the watermark. -/
theorem le_of_isReconstructed (h : Batch bound watermark? cuts events left)
    (hwatermark : watermark? = some watermark) (hevent : event ∈ events)
    (hreconstructed : event.isReconstructed = true) : watermark ≤ event.f := by
  induction h with
  | stop => exact absurd hevent List.not_mem_nil
  | drop _ _ _ _ ih =>
    rcases List.mem_cons.mp hevent with rfl | hevent
    · cases hreconstructed
    · exact ih hevent
  | reconstruct _ habove _ ih =>
    rcases List.mem_cons.mp hevent with rfl | hevent
    · exact habove watermark hwatermark
    · exact ih hevent
  | refuse =>
    obtain rfl := List.mem_singleton.mp hevent
    cases hreconstructed

/-- What is dropped is below the watermark. -/
theorem lt_of_belowWatermark (h : Batch bound watermark? cuts events left)
    (hevent : event ∈ events) (hdropped : event.outcome = .belowWatermark watermark) :
    watermark? = some watermark ∧ event.f < watermark := by
  induction h with
  | stop => exact absurd hevent List.not_mem_nil
  | drop _ hwatermark hbelow _ ih =>
    rcases List.mem_cons.mp hevent with rfl | hevent
    · obtain rfl := CutOutcome.belowWatermark.inj hdropped
      exact ⟨hwatermark, hbelow⟩
    · exact ih hevent
  | reconstruct _ _ _ ih =>
    rcases List.mem_cons.mp hevent with rfl | hevent
    · cases hdropped
    · exact ih hevent
  | refuse =>
    obtain rfl := List.mem_singleton.mp hevent
    cases hdropped

/-- Only the last decision can be that a cost is refused. -/
theorem ne_outsideQualityBound (h : Batch bound watermark? cuts events left)
    (hevent : event ∈ events.dropLast) : event.outcome ≠ .outsideQualityBound := by
  induction h with
  | stop => exact absurd hevent List.not_mem_nil
  | @drop _ _ _ events _ _ _ _ _ ih | @reconstruct _ _ _ events _ _ _ _ ih =>
    cases events with
    | nil => exact absurd hevent List.not_mem_nil
    | cons e events =>
      rw [List.dropLast_cons_cons] at hevent
      rcases List.mem_cons.mp hevent with rfl | hevent
      · nofun
      · exact ih hevent
  | refuse => exact absurd hevent List.not_mem_nil

end Batch

namespace CutRegistry

variable {σ : Type} {registry : CutRegistry σ} {cut : Cut} {watermark : Int}

theorem watermarkAbove?_eq_some_iff :
    registry.watermarkAbove? cut = some watermark ↔
      registry.planCostBound? = some watermark ∧ cut.f < watermark := by
  rw [watermarkAbove?, Option.filter_eq_some_iff, decide_eq_true_iff]

theorem watermarkAbove?_eq_none_iff :
    registry.watermarkAbove? cut = none ↔
      ∀ watermark, registry.planCostBound? = some watermark → watermark ≤ cut.f := by
  rw [Option.eq_none_iff_forall_ne_some]
  simp only [ne_eq, watermarkAbove?_eq_some_iff, not_and, Int.not_lt]

variable [PlanStore σ] {bound : Int} {view : LayerView} {rest : List Cut} {events : List CutEvent}
  {least? : Option Int} {result : Except ReconstructionError (Option Int) × CutRegistry σ}

/-! ## The loop of a construction -/

/-- What the loop of a construction has done when it ends: it has decided on the first cuts, and
answers the cost of the first that it has reconstructed, unless it has come with a cost.  If it
wants more plans and no cost is refused, it has reached the bound. -/
structure Logs (registry : CutRegistry σ) (bound : Int) (least? : Option Int)
    (events : List CutEvent) (result : Except ReconstructionError (Option Int) × CutRegistry σ) :
    Prop where
  batch : Batch bound registry.planCostBound? registry.cuts events result.2.cuts
  log : result.2.events = registry.events ++ events
  watermark : result.2.planCostBound? = registry.planCostBound?
  answer : ∀ answer?, result.1 = .ok answer? →
    answer? = least?.or (CutEvent.firstReconstructed? events)
  reached : ∀ answer?, result.1 = .ok answer? → result.2.foundAll = false →
    (∀ event, events.getLast? = some event → event.outcome ≠ .outsideQualityBound) →
      ∀ cut ∈ result.2.cuts, bound ≤ cut.f

namespace Logs

theorem ne_outsideQualityBound_of_cons {event : CutEvent}
    (h : ∀ last, (event :: events).getLast? = some last →
      last.outcome ≠ .outsideQualityBound) :
    ∀ last, events.getLast? = some last → last.outcome ≠ .outsideQualityBound := by
  intro last hlast
  refine h last ?_
  rw [List.getLast?_cons, hlast]
  rfl

/-- A loop that does nothing wants no more plans, or is at the bound. -/
theorem stop (hreached : registry.foundAll = false → ∀ cut ∈ registry.cuts, bound ≤ cut.f) :
    registry.Logs bound least? [] (.ok least?, registry) where
  batch := .stop _
  log := (List.append_nil _).symm
  watermark := rfl
  answer := by
    rintro _ ⟨⟩
    exact (Option.or_none).symm
  reached := fun _ _ hopen _ ↦ hreached hopen

theorem drop (hup : registry.ComesUp bound cut rest)
    (hwatermark : registry.watermarkAbove? cut = some watermark)
    (h : (registry.consume cut rest (.belowWatermark watermark)).Logs bound least? events result) :
    registry.Logs bound least? (.ofCut cut (.belowWatermark watermark) :: events) result where
  batch := by
    obtain ⟨hset, hbelow⟩ := watermarkAbove?_eq_some_iff.mp hwatermark
    rw [hup.cuts]
    exact .drop hup.lt hset hbelow h.batch
  log := h.log.trans (List.append_assoc _ _ _)
  watermark := h.watermark
  answer := h.answer
  reached := fun answer? hanswer hopen hlast ↦
    h.reached answer? hanswer hopen (ne_outsideQualityBound_of_cons hlast)

theorem reconstruct {tally : Tally} {store : σ} (hup : registry.ComesUp bound cut rest)
    (hwatermark : registry.watermarkAbove? cut = none)
    (hleast : ∀ least, least? = some least → least ≤ cut.f)
    (h : (registry.reconstructed cut rest tally store).Logs bound
      (some (leastOf least? cut.f)) events result) :
    registry.Logs bound least? (.ofCut cut (outcomeOf tally) :: events) result where
  batch := by
    rw [hup.cuts]
    exact .reconstruct hup.lt (watermarkAbove?_eq_none_iff.mp hwatermark) h.batch
  log := h.log.trans (List.append_assoc _ _ _)
  watermark := h.watermark
  answer := by
    intro answer? hanswer
    have hfirst : CutEvent.firstReconstructed? (.ofCut cut (outcomeOf tally) :: events) =
        some cut.f := rfl
    rw [h.answer answer? hanswer, Option.some_or, hfirst]
    cases least? with
    | none => rfl
    | some least => rw [leastOf, Option.some_or, if_pos (hleast least rfl)]
  reached := fun answer? hanswer hopen hlast ↦
    h.reached answer? hanswer hopen (ne_outsideQualityBound_of_cons hlast)

theorem refuse (hup : registry.ComesUp bound cut rest) :
    registry.Logs bound least? [.ofCut cut .outsideQualityBound]
      (.ok least?, registry.refused cut) where
  batch := by
    rw [refused, hup.cuts]
    exact .refuse hup.lt
  log := rfl
  watermark := rfl
  answer := by
    rintro _ ⟨⟩
    exact (Option.or_none).symm
  reached := fun _ _ _ hlast ↦ absurd rfl (hlast _ rfl)

theorem fail (e : ReconstructionError) (store : σ) :
    registry.Logs bound least? [] (.error e, { registry with store := store }) where
  batch := .stop _
  log := (List.append_nil _).symm
  watermark := rfl
  answer := nofun
  reached := nofun

end Logs

/-- In order the first of the cuts is the cheapest, so the loop never answers less than what it came
with. -/
theorem exists_logs (hcuts : registry.cuts.Pairwise fun a b ↦ a.key < b.key) (bound : Int)
    (view : LayerView) (least? : Option Int)
    (hleast : ∀ least, least? = some least → ∀ cut ∈ registry.cuts, least ≤ cut.f) :
    ∃ events, registry.Logs bound least? events (registry.constructFrom bound view least?) := by
  -- By the loop, which only ever removes the first cut: order and `hleast` hold of what is left.
  fun_induction CutRegistry.constructFrom bound view registry least? with
  | case1 registry least? hall =>
    refine ⟨[], .stop fun hopen ↦ ?_⟩
    rw [hall] at hopen
    cases hopen
  | case2 registry least? hopen hnil =>
    refine ⟨[], .stop fun _ ↦ ?_⟩
    rw [hnil]
    exact List.forall_mem_nil _
  | case3 registry least? hopen cut rest hcons hle =>
    refine ⟨[], .stop fun _ c hc ↦ ?_⟩
    rw [hcons] at hcuts hc
    exact Int.le_trans hle (Cut.f_le_of_pairwise hcuts c hc)
  | case4 registry least? hopen cut rest hcons hlt watermark hwatermark ih =>
    have hup := comesUp_of_not_le hopen hcons hlt
    rw [hcons] at hcuts hleast
    obtain ⟨events, hevents⟩ := ih (List.pairwise_cons.mp hcuts).2 fun least h c hc ↦
      hleast least h c (List.mem_cons_of_mem _ hc)
    exact ⟨_, hevents.drop hup hwatermark⟩
  | case5 registry least? hopen cut rest hcons hlt hwatermark hadmits e store hrec =>
    exact ⟨[], .fail e store⟩
  | case6 registry least? hopen cut rest hcons hlt hwatermark hadmits tally store hrec ih =>
    have hup := comesUp_of_not_le hopen hcons hlt
    rw [hcons] at hcuts hleast
    have hfirst : ∀ least, least? = some least → least ≤ cut.f := fun least h ↦
      hleast least h cut List.mem_cons_self
    have hmin : ∀ least, some (leastOf least? cut.f) = some least →
        ∀ c ∈ rest, least ≤ c.f := by
      rintro _ ⟨⟩ c hc
      refine Int.le_trans ?_ (Cut.f_le_of_pairwise hcuts c (List.mem_cons_of_mem _ hc))
      cases least? with
      | none => exact Int.le_refl _
      | some least =>
        rw [leastOf_some]
        exact Int.min_le_right least cut.f
    obtain ⟨events, hevents⟩ := ih (List.pairwise_cons.mp hcuts).2 hmin
    exact ⟨_, hevents.reconstruct hup hwatermark hfirst⟩
  | case7 registry least? hopen cut rest hcons hlt hwatermark hadmits =>
    exact ⟨_, .refuse (comesUp_of_not_le hopen hcons hlt)⟩

/-! ## Histories -/

/-- What a construction does with the watermark. -/
theorem exists_batch (hordered : registry.Ordered) (bound : Int) (view : LayerView) :
    ∃ events,
      Batch bound registry.planCostBound? registry.cuts events
        (registry.construct bound view).2.cuts ∧
      (registry.construct bound view).2.events = registry.events ++ events ∧
      ((registry.construct bound view).1 = .ok () →
        (registry.construct bound view).2.planCostBound? =
          (CutEvent.firstReconstructed? events).or registry.planCostBound? ∧
        ((registry.construct bound view).2.foundAll = false →
          (∀ event, events.getLast? = some event → event.outcome ≠ .outsideQualityBound) →
            ∀ cut ∈ (registry.construct bound view).2.cuts, bound ≤ cut.f)) ∧
      ∀ e, (registry.construct bound view).1 = .error e →
        (registry.construct bound view).2.planCostBound? = registry.planCostBound? := by
  have hleast : ∀ least, none = some least → ∀ cut ∈ registry.cuts, least ≤ cut.f := by
    intro least h
    cases h
  obtain ⟨events, hlogs⟩ := exists_logs hordered.ascending bound view none hleast
  refine ⟨events, ?_⟩
  rw [construct]
  split
  · next e stopped hloop =>
    rw [hloop] at hlogs
    refine ⟨hlogs.batch, hlogs.log, ?_, fun _ _ ↦ hlogs.watermark⟩
    intro hok
    cases hok
  · next answer? stopped hloop =>
    rw [hloop] at hlogs
    refine ⟨hlogs.batch, hlogs.log, fun _ ↦ ⟨?_, hlogs.reached answer? rfl⟩, ?_⟩
    · have hanswer := hlogs.answer answer? rfl
      rw [Option.none_or] at hanswer
      rw [← hanswer]
      exact congrArg answer?.or hlogs.watermark
    · intro e herror
      cases herror

/-- No call takes the watermark back. -/
theorem Ordered.le_watermark_answer (hordered : registry.Ordered) (call : RegistryCall)
    (hwatermark : registry.planCostBound? = some watermark) :
    ∃ later, (registry.answer call).2.planCostBound? = some later ∧ watermark ≤ later := by
  cases call with
  | register cut =>
    refine ⟨watermark, ?_, Int.le_refl _⟩
    rw [snd_answer_register]
    split <;> exact hwatermark
  | construct bound view =>
    obtain ⟨events, hbatch, -, hok, herror⟩ := exists_batch hordered bound view
    rw [CutRegistry.answer]
    cases hresult : (registry.construct bound view).1 with
    | error e => exact ⟨watermark, (herror e hresult).trans hwatermark, Int.le_refl _⟩
    | ok =>
      rw [(hok hresult).1]
      cases hfirst : CutEvent.firstReconstructed? events with
      | none => exact ⟨watermark, hwatermark, Int.le_refl _⟩
      | some f =>
        obtain ⟨event, hevent, rfl⟩ := Option.map_eq_some_iff.mp hfirst
        exact ⟨event.f, rfl,
          hbatch.le_of_isReconstructed hwatermark (List.mem_of_find?_eq_some hevent)
            (List.find?_some hevent)⟩

theorem Ordered.le_watermark_after (hordered : registry.Ordered) (calls : List RegistryCall)
    (hwatermark : registry.planCostBound? = some watermark) :
    ∃ later, (registry.after calls).planCostBound? = some later ∧ watermark ≤ later := by
  induction calls using List.reverseRecOn with
  | nil => exact ⟨watermark, hwatermark, Int.le_refl _⟩
  | append_singleton calls call ih =>
    obtain ⟨later, hlater, hle⟩ := ih
    obtain ⟨last, hlast, hle'⟩ := (hordered.after calls).le_watermark_answer call hlater
    rw [after_concat]
    exact ⟨last, hlast, Int.le_trans hle hle'⟩

/-- After any history of calls the watermark, once it is set, stays set and never goes back.  A
construction logs decisions of ascending keys below its bound.  It reconstructs nothing below the
watermark, drops only what is below it, and refuses a cost at the end only.  If it succeeds the
watermark moves to the first cut that it has reconstructed, if there is one, and no cut below the
bound is left, unless enough plans are found or a cost is refused.  If it fails the watermark
stays. -/
theorem watermark_after (store : σ) (singleSolution : Bool) (calls : List RegistryCall) :
    let registry := (ofStore store singleSolution).after calls
    (∀ more watermark, registry.planCostBound? = some watermark →
      ∃ later, (registry.after more).planCostBound? = some later ∧ watermark ≤ later) ∧
    ∀ bound view, ∃ events,
      let answer := (registry.construct bound view).1
      let next := (registry.construct bound view).2
      next.events = registry.events ++ events ∧
      events.Pairwise (fun a b ↦ a.key < b.key) ∧
      (∀ event ∈ events, event.f < bound) ∧
      (∀ event ∈ events, event.isReconstructed = true →
        ∀ watermark, registry.planCostBound? = some watermark → watermark ≤ event.f) ∧
      (∀ event ∈ events, ∀ watermark, event.outcome = .belowWatermark watermark →
        registry.planCostBound? = some watermark ∧ event.f < watermark) ∧
      (∀ event ∈ events.dropLast, event.outcome ≠ .outsideQualityBound) ∧
      (answer = .ok () →
        next.planCostBound? =
          (CutEvent.firstReconstructed? events).or registry.planCostBound? ∧
        (next.foundAll = false →
          (∀ event, events.getLast? = some event → event.outcome ≠ .outsideQualityBound) →
            ∀ cut ∈ next.cuts, bound ≤ cut.f)) ∧
      ∀ e, answer = .error e → next.planCostBound? = registry.planCostBound? := by
  intro registry
  have hordered : registry.Ordered := (Ordered.ofStore store singleSolution).after calls
  refine ⟨fun more watermark hwatermark ↦ hordered.le_watermark_after more hwatermark, ?_⟩
  intro bound view
  obtain ⟨events, hbatch, hlog, hok, herror⟩ := exists_batch hordered bound view
  exact ⟨events, hlog, hbatch.ascending hordered.ascending, fun _ hevent ↦ hbatch.lt hevent,
    fun _ hevent hreconstructed _ hwatermark ↦
      hbatch.le_of_isReconstructed hwatermark hevent hreconstructed,
    fun _ hevent _ hdropped ↦ hbatch.lt_of_belowWatermark hevent hdropped,
    fun _ hevent ↦ hbatch.ne_outsideQualityBound hevent, hok, herror⟩

end CutRegistry

end LayeredPlanning
