import LayeredPlanning.Proofs.Layers.Frontiers
import LayeredPlanning.Proofs.Reconstruction.Registry
import LayeredPlanning.Proofs.Run.Turns

/-!
# The invariant of a run

`Progress.Covers frontiers lo progress` is what holds of a run between two layers: the registry is
settled at `lo`, and every state in which the searches meet at a cost of `lo` or more waits in a
cut.  Registering the cuts of a new layer and reconstructing up to the bound that is proved then
keep this up (`Covers.registerCuts`, `Covers.raiseBound`).
-/

namespace LayeredPlanning

variable {task : Task} {horizon : Int}

namespace Progress

variable {progress progress' : Progress} {cuts : List Cut} {view : LayerView} {lo bound : Int}

/-- Between the two, nothing has changed but the queue, in which the meeting states of the cuts are
listed besides, unless enough plans are found. -/
structure Queued (progress : Progress) (cuts : List Cut) (progress' : Progress) : Prop where
  lowerBound : progress'.lowerBound = progress.lowerBound
  registry : ∃ queue, progress'.registry = { progress.registry with cuts := queue }
  settled : ∀ task lo, progress.registry.Settled task lo → progress'.registry.Settled task lo
  listed : progress.registry.foundAll = false → ∀ g k s,
    (∃ cut ∈ cuts, cut.g = g ∧ cut.h = k ∧ s ∈ cut.states) ∨
      Cut.Listed progress.registry.cuts g k s → Cut.Listed progress'.registry.cuts g k s

namespace Queued

theorem nil (progress : Progress) : progress.Queued [] progress := by
  refine ⟨rfl, ⟨_, rfl⟩, fun _ _ hsettled ↦ hsettled, ?_⟩
  rintro _ g k s (⟨cut, hcut, _⟩ | hlisted)
  · exact absurd hcut List.not_mem_nil
  · exact hlisted

/-- If enough plans are found there is nothing to list. -/
theorem of_foundAll (hall : progress.registry.foundAll = true) (cuts : List Cut) :
    progress.Queued cuts progress := by
  refine ⟨rfl, ⟨_, rfl⟩, fun _ _ hsettled ↦ hsettled, ?_⟩
  intro hopen
  rw [hall] at hopen
  cases hopen

theorem foundAll (h : progress.Queued cuts progress') :
    progress'.registry.foundAll = progress.registry.foundAll := by
  obtain ⟨queue, hqueue⟩ := h.registry
  rw [hqueue]
  rfl

theorem plans (h : progress.Queued cuts progress') : progress'.plans = progress.plans := by
  obtain ⟨queue, hqueue⟩ := h.registry
  rw [Progress.plans, hqueue]
  rfl

theorem wishes (h : progress.Queued cuts progress') :
    progress'.registry.wishes = progress.registry.wishes := by
  obtain ⟨queue, hqueue⟩ := h.registry
  rw [hqueue]
  rfl

theorem cons {next : Progress} {cut : Cut} (hfirst : progress.Queued [cut] next)
    (hrest : next.Queued cuts progress') : progress.Queued (cut :: cuts) progress' := by
  constructor
  case lowerBound => rw [hrest.lowerBound, hfirst.lowerBound]
  case registry =>
    obtain ⟨queue, hqueue⟩ := hrest.registry
    obtain ⟨_, hnext⟩ := hfirst.registry
    exact ⟨queue, by rw [hqueue, hnext]⟩
  case settled => exact fun task lo h ↦ hrest.settled task lo (hfirst.settled task lo h)
  case listed =>
    intro hopen g k s hs
    refine hrest.listed (hfirst.foundAll.trans hopen) g k s ?_
    rcases hs with ⟨c, hc, hs⟩ | hs
    · rcases List.mem_cons.mp hc with rfl | hc
      · exact .inr (hfirst.listed hopen g k s (.inl ⟨c, List.mem_cons_self, hs⟩))
      · exact .inl ⟨c, hc, hs⟩
    · exact .inr (hfirst.listed hopen g k s (.inr hs))

end Queued

/-- Registering a cut queues it. -/
theorem queued_registerCut {cut : Cut} (h : progress.registerCut cut = .ok progress') :
    progress.Queued [cut] progress' := by
  rw [registerCut] at h
  split at h
  · next hall =>
    cases h
    exact .of_foundAll hall _
  · split at h
    · cases h
    · next registry hregister =>
      cases h
      have hregistry := (CutRegistry.register_eq_ok hregister).2
      refine ⟨rfl, ⟨_, hregistry⟩, fun task lo h ↦ h.register hregister, ?_⟩
      rintro _ g k s (⟨c, hc, hg, hk, hs⟩ | hs)
      · obtain rfl := List.mem_singleton.mp hc
        rw [hregistry]
        exact Cut.listed_insertInto.mpr (.inl ⟨hg, hk, hs⟩)
      · rw [hregistry]
        exact Cut.listed_insertInto.mpr (.inr hs)

/-- Registering cuts one after the other queues them all. -/
theorem queued_registerCuts (h : progress.registerCuts cuts = .ok progress') :
    progress.Queued cuts progress' := by
  induction cuts generalizing progress with
  | nil =>
    cases h
    exact .nil _
  | cons cut cuts ih =>
    rw [registerCuts] at h
    split at h
    · cases h
    · next hfirst => exact (queued_registerCut hfirst).cons (ih h)

end Progress

/-! ## Lawful tasks -/

/-- The indexes of the relations agree, and the goal test accepts exactly the goals, of which there
is one. -/
structure Task.Lawful (task : Task) : Prop where
  consistent : ∀ r ∈ task.transitions.relations, r.Consistent
  isGoal_iff : ∀ s, task.isGoal s = true ↔ s ∈ task.goals
  goals_ne_empty : task.goals.isEmpty = false

theorem ExplicitTask.lawful (task : ExplicitTask) : task.toTask.Lawful :=
  ⟨task.consistent, fun _ ↦ isGoal_toTask, task.goals_ne_empty⟩

theorem Task.one_le_maxActionCost (task : Task) : 1 ≤ task.maxActionCost := by
  rw [maxActionCost]
  split <;> omega

theorem Task.cost_le_maxActionCost {r : Transition} (hr : r ∈ task.transitions.relations) :
    r.action.cost ≤ task.maxActionCost := by
  rw [maxActionCost]
  cases hc : task.transitions.maxCost? with
  | none =>
    rw [TransitionTable.maxCost?, Option.map_eq_none_iff, List.getLast?_eq_none_iff] at hc
    rw [hc] at hr
    exact absurd hr List.not_mem_nil
  | some c =>
    have hle := TransitionTable.cost_le_of_maxCost? hc hr
    dsimp only [Option.getD_some]
    split <;> omega

namespace Progress

theorem wishes_raiseBound {progress progress' : Progress} {bound : Int} {view : LayerView}
    (h : progress.raiseBound bound view = .ok progress') :
    progress'.registry.wishes = progress.registry.wishes := by
  rcases raiseBound_eq_ok h with ⟨_, rfl⟩ | ⟨_, _, hconstruct, _⟩
  · rfl
  · have hwishes := CutRegistry.wishes_construct bound view progress.registry
    rwa [hconstruct] at hwishes

variable {frontiers next : Frontiers task horizon} {progress progress' : Progress} {cuts : List Cut}
  {lo : Int}

/-! ## Covered searches -/

/-- The registry is settled at `lo`, and the meetings of the searches from `lo` on are listed. -/
structure Covers (frontiers : Frontiers task horizon) (lo : Int) (progress : Progress) : Prop where
  settled : progress.registry.Settled task lo
  listed : progress.registry.foundAll = false → ∀ g k s, frontiers.Meets g k s →
    lo ≤ g + k → Cut.Listed progress.registry.cuts g k s

namespace Covers

/-- The cuts of a new layer list its meetings. -/
theorem registerCuts (h : progress.Covers frontiers lo)
    (hclose : frontiers.closeNext? = some (cuts, next))
    (hregister : progress.registerCuts cuts = .ok progress') : progress'.Covers next lo := by
  have hqueued := queued_registerCuts hregister
  refine ⟨hqueued.settled task lo h.settled, ?_⟩
  intro hopen g k s hmeets hcost
  rw [hqueued.foundAll] at hopen
  refine hqueued.listed hopen g k s ?_
  rcases Frontiers.meets_of_closeNext? hclose hmeets with hold | hnew
  · exact .inr (h.listed hopen g k s hold hcost)
  · exact .inl hnew

/-- Once enough plans are found, it does not matter what else is known. -/
theorem of_foundAll (h : progress.Covers frontiers lo) (hall : progress.registry.foundAll = true)
    {bound : Int} (hlo : lo ≤ bound) : progress.Covers frontiers bound := by
  have hopen : ¬ progress.registry.foundAll = false := by
    rw [hall]
    exact Bool.false_ne_true.symm
  refine ⟨⟨h.settled.toLawful, ?_, ?_, fun h ↦ absurd h hopen, fun hclosed ↦
    (h.settled.refuses hclosed).imp fun _ hevent ↦ hevent.mono hlo⟩, fun h ↦ absurd h hopen⟩
  · intro plan hplan
    exact Int.lt_of_lt_of_le (h.settled.cost_lt plan hplan) hlo
  · intro w hw
    exact Int.lt_of_lt_of_le (h.settled.watermark_lt w hw) hlo

/-- Below the proven bound no eligible path is missed. -/
theorem pending (h : progress.Covers frontiers lo) (hlawful : task.Lawful)
    (hexact : frontiers.Exact) (hstarted : frontiers.Started)
    (hopen : progress.registry.foundAll = false) :
    progress.registry.Pending frontiers.view (frontiers.provenBound task.maxActionCost) := by
  intro es hes hlt
  by_cases hlow : pathCost es < lo
  · exact .inl (h.settled.knowsBelow hopen es hes hlow)
  obtain ⟨fs, gs, rfl, hreaches⟩ := Frontiers.exists_reaches hstarted
    (fun r hr ↦ Task.cost_le_maxActionCost hr) (Int.le_of_lt task.one_le_maxActionCost) hlt
  obtain ⟨t, ht, hgoal⟩ := hes.goal
  obtain ⟨m, hfs, hgs⟩ := Leads.append_iff.mp ht
  obtain ⟨hmeets, hwitness⟩ := hreaches.hasWitness hexact hlawful.consistent hlawful.isGoal_iff
    hfs hgs hgoal hes.levelSimple
  have hcost : lo ≤ pathCost fs + pathCost gs := by
    have hsum : pathCost (fs ++ gs) = pathCost fs + pathCost gs := pathCost_append fs gs
    rw [← hsum]
    exact Int.not_lt.mp hlow
  obtain ⟨cut, hcut, hg, hk, hm⟩ := h.listed hopen _ _ m hmeets hcost
  exact .inr ⟨cut, hcut, ⟨fs, gs⟩, hwitness cut hg hk hm, rfl⟩

/-- Raising the bound settles the registry at the new lower bound, if either nothing was settled
less before, or the bound does rise. -/
theorem raiseBound (h : progress.Covers frontiers lo) (hlawful : task.Lawful)
    (hexact : frontiers.Exact) (hstarted : frontiers.Started) (hlo : lo ≤ progress.lowerBound)
    (hrise : lo = progress.lowerBound ∨
      progress.lowerBound < frontiers.provenBound task.maxActionCost)
    (hraise : progress.raiseBound (frontiers.provenBound task.maxActionCost) frontiers.view =
      .ok progress') : progress'.Covers frontiers progress'.lowerBound := by
  rcases raiseBound_eq_ok hraise with ⟨hidle, rfl⟩ | ⟨hlt, hopen, hconstruct, hlower⟩
  · cases hall : progress'.registry.foundAll with
    | false =>
      have hle := hidle.resolve_right (by rw [hall]; exact Bool.false_ne_true)
      rw [← hrise.resolve_right (Int.not_lt.mpr hle)]
      exact h
    | true => exact h.of_foundAll hall hlo
  · have hbefore : progress.registry.Settled frontiers.view.task lo := h.settled
    have hmax := max_eq_right (Int.le_of_lt (Int.lt_of_le_of_lt hlo hlt))
    have hpending := h.pending hlawful hexact hstarted hopen
    rw [← hmax] at hpending
    obtain ⟨hsettled, hlisted⟩ :=
      hbefore.construct hlawful.consistent (fun _ ↦ hpending) hconstruct
    rw [hmax] at hsettled
    rw [hlower]
    exact ⟨hsettled, fun hopen' g k s hmeets hcost ↦
      hlisted hopen' g k s hcost (h.listed hopen g k s hmeets (by omega))⟩

end Covers

end Progress

end LayeredPlanning
