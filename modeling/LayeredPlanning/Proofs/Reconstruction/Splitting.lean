import LayeredPlanning.Proofs.Reconstruction.Failures

/-!
# Splitting a bound

Constructing up to a bound and then up to a larger one does what constructing up to the larger one
does at once, but for the watermark (`CutRegistry.construct_split_after`).  There are two reasons.

* The loop of a construction that stops at the smaller bound is the beginning of the loop that goes
  on to the larger one: `constructFrom_split`.
* The first construction may move the watermark, but only to a cost that no cut which is left is
  below.  Where the watermark drops nothing, it does not matter what it is:
  `constructFrom_withWatermark`.
-/

namespace LayeredPlanning

namespace Batch

variable {bound : Int} {watermark? : Option Int} {cuts left : List Cut} {events : List CutEvent}

/-- What is left are the last cuts. -/
theorem suffix (h : Batch bound watermark? cuts events left) : left <:+ cuts := by
  induction h with
  | stop cuts => exact List.suffix_refl cuts
  | drop _ _ _ _ ih | reconstruct _ _ _ ih => exact ih.trans (List.suffix_cons _ _)
  | refuse => exact List.suffix_refl _

/-- What is left costs no less than what has been decided on. -/
theorem f_le (h : Batch bound watermark? cuts events left)
    (hcuts : cuts.Pairwise fun a b ↦ a.key < b.key) {event : CutEvent}
    (hevent : event ∈ events) : ∀ cut ∈ left, event.f ≤ cut.f := by
  induction h with
  | stop => exact absurd hevent List.not_mem_nil
  | @drop cut rest left events _ _ _ _ hrest ih
  | @reconstruct cut rest left events _ _ _ hrest ih =>
    rcases List.mem_cons.mp hevent with rfl | hlater
    · intro c hc
      exact Cut.f_le_of_pairwise hcuts c (List.mem_cons_of_mem _ (hrest.suffix.subset hc))
    · exact ih (List.pairwise_cons.mp hcuts).2 hlater
  | refuse =>
    obtain rfl := List.mem_singleton.mp hevent
    exact Cut.f_le_of_pairwise hcuts

end Batch

namespace CutRegistry

section Loop

variable {σ : Type} [PlanStore σ] {registry last : CutRegistry σ} {lo bound : Int}
  {view : LayerView} {least? : Option Int} {watermark? : Option Int}

/-! ## Constructions up to their watermarks -/

/-- The registry with another watermark. -/
def withWatermark (registry : CutRegistry σ) (watermark? : Option Int) : CutRegistry σ :=
  { registry with planCostBound? := watermark? }

/-- A construction answers what its loop answers, and leaves what its loop leaves, but for the
watermark. -/
theorem exists_construct_eq (registry : CutRegistry σ) (bound : Int) (view : LayerView) :
    ∃ watermark?, registry.construct bound view =
      ((registry.constructFrom bound view none).1.map fun _ ↦ (),
        (registry.constructFrom bound view none).2.withWatermark watermark?) := by
  rw [construct]
  split
  · next e last hloop => exact ⟨last.planCostBound?, by rw [hloop]; rfl⟩
  · next least? last hloop => exact ⟨least?.or last.planCostBound?, by rw [hloop]; rfl⟩

/-- No cut that waits is below the watermark. -/
def Clear (registry : CutRegistry σ) : Prop :=
  ∀ cut ∈ registry.cuts, registry.watermarkAbove? cut = none

/-- A watermark that drops nothing has no influence on the loop of a construction, and the cost with
which the loop starts has none but on its answer. -/
theorem constructFrom_withWatermark (hclear : registry.Clear)
    (hclear' : (registry.withWatermark watermark?).Clear) (bound : Int) (view : LayerView)
    (least? least'? : Option Int) :
    ((registry.withWatermark watermark?).constructFrom bound view least'?).1.map (fun _ ↦ ()) =
        (registry.constructFrom bound view least?).1.map (fun _ ↦ ()) ∧
      ((registry.withWatermark watermark?).constructFrom bound view least'?).2 =
        (registry.constructFrom bound view least?).2.withWatermark watermark? := by
  fun_induction constructFrom bound view registry least? generalizing least'? with
  | case1 registry least? hall =>
    have hall' : (registry.withWatermark watermark?).foundAll = true := hall
    rw [constructFrom_of_foundAll hall']
    exact ⟨rfl, rfl⟩
  | case2 registry least? hopen hnil =>
    have hnone : (registry.withWatermark watermark?).cuts.head? = none := congrArg List.head? hnil
    rw [constructFrom_of_idle fun _ cut hcut ↦ by rw [hnone] at hcut; cases hcut]
    exact ⟨rfl, rfl⟩
  | case3 registry least? hopen cut rest hcons hle =>
    have hfirst : (registry.withWatermark watermark?).cuts.head? = some cut :=
      congrArg List.head? hcons
    rw [constructFrom_of_idle fun _ c hc ↦ Option.some.inj (hfirst.symm.trans hc) ▸ hle]
    exact ⟨rfl, rfl⟩
  | case4 registry least? hopen cut rest hcons hlt watermark hwatermark ih =>
    rw [hclear cut (hcons ▸ List.mem_cons_self)] at hwatermark
    cases hwatermark
  | case5 registry least? hopen cut rest hcons hlt hwatermark hadmits e store hrec =>
    have hup : (registry.withWatermark watermark?).ComesUp bound cut rest :=
      comesUp_of_not_le hopen hcons hlt
    rw [hup.constructFrom_error (hclear' cut (hup.cuts ▸ List.mem_cons_self)) hadmits hrec]
    exact ⟨rfl, rfl⟩
  | case6 registry least? hopen cut rest hcons hlt hwatermark hadmits tally store hrec ih =>
    have hup : (registry.withWatermark watermark?).ComesUp bound cut rest :=
      comesUp_of_not_le hopen hcons hlt
    rw [hup.constructFrom_reconstructed
      (hclear' cut (hup.cuts ▸ List.mem_cons_self)) hadmits hrec]
    exact ih (fun c hc ↦ hclear c (hcons ▸ List.mem_cons_of_mem _ hc))
      (fun c hc ↦ hclear' c (hup.cuts ▸ List.mem_cons_of_mem _ hc))
      (some (leastOf least'? cut.f))
  | case7 registry least? hopen cut rest hcons hlt hwatermark hadmits =>
    have hup : (registry.withWatermark watermark?).ComesUp bound cut rest :=
      comesUp_of_not_le hopen hcons hlt
    rw [hup.constructFrom_refused (hclear' cut (hup.cuts ▸ List.mem_cons_self))
      (Bool.not_eq_true _ ▸ hadmits)]
    exact ⟨rfl, rfl⟩

/-- If the loop of a construction has reconstructed a cut, it leaves only cuts that are neither
below the watermark that there was, nor below the cost that it answers. -/
theorem Ordered.clear_of_constructFrom (hordered : registry.Ordered) {least : Int}
    (hloop : registry.constructFrom lo view none = (.ok (some least), last)) :
    last.Clear ∧ (last.withWatermark (some least)).Clear := by
  obtain ⟨events, hlogs⟩ := exists_logs hordered.ascending lo view none
    fun _ hnone ↦ absurd hnone (Option.some_ne_none _).symm
  rw [hloop] at hlogs
  obtain ⟨event, hfirst, rfl⟩ := Option.map_eq_some_iff.mp (hlogs.answer _ rfl).symm
  have hevent := List.mem_of_find?_eq_some hfirst
  have hleast := hlogs.batch.f_le hordered.ascending hevent
  constructor
  · intro cut hcut
    refine watermarkAbove?_eq_none_iff.mpr fun watermark hwatermark ↦ ?_
    rw [hlogs.watermark] at hwatermark
    exact Int.le_trans
      (hlogs.batch.le_of_isReconstructed hwatermark hevent (List.find?_some hfirst))
      (hleast cut hcut)
  · intro cut hcut
    refine watermarkAbove?_eq_none_iff.mpr fun watermark hwatermark ↦ ?_
    obtain rfl : event.f = watermark := Option.some.inj hwatermark
    exact hleast cut hcut

end Loop

/-! ## Two bounds -/

variable {registry mid : CutRegistry PlanDatabase} {lo bound : Int} {view : LayerView}
  {least? mid? : Option Int}

/-- The loop that stops at a bound is the beginning of a loop that goes on to a larger one. -/
theorem constructFrom_split (hle : lo ≤ bound)
    (hloop : registry.constructFrom lo view least? = (.ok mid?, mid)) :
    registry.constructFrom bound view least? = mid.constructFrom bound view mid? := by
  fun_induction constructFrom lo view registry least? with
  | case1 | case2 | case3 =>
    cases hloop
    rfl
  | case4 registry least? hopen cut rest hcons hlt watermark hwatermark ih =>
    have hup : registry.ComesUp bound cut rest := comesUp_of_not_le hopen hcons (by omega)
    rw [hup.constructFrom_consume hwatermark]
    exact ih hloop
  | case5 => cases hloop
  | case6 registry least? hopen cut rest hcons hlt hwatermark hadmits tally store hrec ih =>
    have hup : registry.ComesUp bound cut rest := comesUp_of_not_le hopen hcons (by omega)
    rw [hup.constructFrom_reconstructed hwatermark hadmits hrec]
    exact ih hloop
  | case7 registry least? hopen cut rest hcons hlt hwatermark hadmits =>
    -- The database is closed, so the loop that goes on has nothing to do.
    have hup : registry.ComesUp bound cut rest := comesUp_of_not_le hopen hcons (by omega)
    have hrefuses : registry.store.withinQuality cut.f = false := Bool.not_eq_true _ ▸ hadmits
    have hclosed : (registry.refused cut).foundAll = true :=
      Advancing.foundAll_of_closeAtCost hrefuses rfl
    obtain ⟨hmid?, hmid⟩ := Prod.mk.inj hloop
    obtain rfl := Except.ok.inj hmid?
    obtain rfl : registry.refused cut = mid := hmid
    rw [hup.constructFrom_refused hwatermark hrefuses, constructFrom_of_foundAll hclosed]

/-- A loop that ends without an error has nothing left to decide. -/
theorem idle_of_constructFrom (hloop : registry.constructFrom lo view least? = (.ok mid?, mid)) :
    mid.foundAll = false → ∀ cut, mid.cuts.head? = some cut → lo ≤ cut.f := by
  obtain ⟨last, -, hstops⟩ := exists_decisions registry lo view least?
  rw [hloop] at hstops
  cases hstops with
  | done hidle => exact hidle
  | refuse hup hrefuses =>
    intro hopen
    rw [Advancing.foundAll_of_closeAtCost hrefuses rfl] at hopen
    cases hopen

/-- A construction that succeeds is its loop, and then the watermark moves. -/
theorem exists_loop_of_construct_ok (hconstruct : registry.construct lo view = (.ok (), mid)) :
    ∃ last mid?, registry.constructFrom lo view none = (.ok mid?, last) ∧
      mid = last.withWatermark (mid?.or last.planCostBound?) := by
  rw [construct] at hconstruct
  split at hconstruct
  · cases hconstruct
  · next mid? last hloop => exact ⟨last, mid?, hloop, (Prod.mk.inj hconstruct).2.symm⟩

/-- A construction that succeeds leaves nothing to do for another one of the same bound. -/
theorem construct_of_construct (hconstruct : registry.construct lo view = (.ok (), mid)) :
    mid.construct lo view = (.ok (), mid) := by
  obtain ⟨last, mid?, hloop, hmid⟩ := exists_loop_of_construct_ok hconstruct
  have hlast := idle_of_constructFrom hloop
  have hidle : mid.foundAll = false → ∀ cut, mid.cuts.head? = some cut → lo ≤ cut.f := by
    rw [hmid]
    exact hlast
  exact construct_of_idle hidle view

theorem Ordered.construct_split (hordered : registry.Ordered) (hle : lo ≤ bound)
    (hfirst : registry.construct lo view = (.ok (), mid)) :
    ∃ watermark?, mid.construct bound view =
      ((registry.construct bound view).1,
        (registry.construct bound view).2.withWatermark watermark?) := by
  obtain ⟨last, mid?, hloop, hmid⟩ := exists_loop_of_construct_ok hfirst
  have hsame : (mid.constructFrom bound view none).1.map (fun _ ↦ ()) =
        (registry.constructFrom bound view none).1.map (fun _ ↦ ()) ∧
      ∃ watermark?, (mid.constructFrom bound view none).2 =
        (registry.constructFrom bound view none).2.withWatermark watermark? := by
    rw [constructFrom_split hle hloop]
    cases mid? with
    | none =>
      -- The watermark has not moved.
      obtain rfl : mid = last := hmid
      exact ⟨rfl, (mid.constructFrom bound view none).2.planCostBound?, rfl⟩
    | some least =>
      obtain ⟨hclear, hclear'⟩ := hordered.clear_of_constructFrom hloop
      obtain ⟨hanswer, hlast⟩ :=
        constructFrom_withWatermark hclear hclear' bound view (some least) none
      obtain rfl : mid = last.withWatermark (some least) := hmid
      exact ⟨hanswer, some least, hlast⟩
  obtain ⟨hanswer, _, hlast⟩ := hsame
  obtain ⟨_, hmid⟩ := exists_construct_eq mid bound view
  obtain ⟨_, hregistry⟩ := exists_construct_eq registry bound view
  rw [hmid, hregistry, hanswer, hlast]
  exact ⟨_, rfl⟩

/-- After any history of calls, a construction that succeeds, followed by one up to a larger bound,
answers what one construction up to the larger bound answers, and leaves what it leaves, but for the
watermark.  Followed by one up to the same bound, it leaves nothing to do. -/
theorem construct_split_after (database : PlanDatabase) (singleSolution : Bool)
    (calls : List RegistryCall) (hle : lo ≤ bound)
    (hfirst : ((ofStore database singleSolution).after calls).construct lo view = (.ok (), mid)) :
    (∃ watermark?, mid.construct bound view =
      ((((ofStore database singleSolution).after calls).construct bound view).1,
        (((ofStore database singleSolution).after calls).construct bound view).2.withWatermark
          watermark?)) ∧
    (lo = bound → mid.construct bound view = (.ok (), mid)) := by
  refine ⟨((Ordered.ofStore database singleSolution).after calls).construct_split hle hfirst,
    ?_⟩
  rintro rfl
  exact construct_of_construct hfirst

end CutRegistry

/-- The first of two constructions moves the watermark to the cost of the empty plan, the second one
fails as a single one would. -/
theorem stranded_construct_split :
    ∃ registry mid,
      registry =
        (CutRegistry.ofStore (⟨.topK 2, false, [], [], none, false⟩ : PlanDatabase) false).after
          strandedCalls ∧
      registry.construct 1 arrivedView = (.ok (), mid) ∧ mid.planCostBound? = some 0 ∧
      (∃ watermark?, mid.construct 2 arrivedView =
        ((registry.construct 2 arrivedView).1,
          (registry.construct 2 arrivedView).2.withWatermark watermark?)) ∧
      ((1 : Int) = 2 → mid.construct 2 arrivedView = (.ok (), mid)) := by
  have hfirst :
      ((CutRegistry.ofStore (⟨.topK 2, false, [], [], none, false⟩ : PlanDatabase) false).after
        strandedCalls).construct 1 arrivedView = (.ok (), _) :=
    Prod.ext (by decide +kernel) rfl
  have hle : (1 : Int) ≤ 2 := by decide
  exact ⟨_, _, rfl, hfirst, by decide +kernel,
    CutRegistry.construct_split_after _ false strandedCalls hle hfirst⟩

end LayeredPlanning
