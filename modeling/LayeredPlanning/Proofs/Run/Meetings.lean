import LayeredPlanning.Proofs.Layers.Meetings
import LayeredPlanning.Proofs.Run.Bounds

/-!
# The cuts of a run

A run learns of cuts one layer at a time.  `Frontiers.closeMany` is the run without its registry:
the layers are closed in the order in which a run closes them, and the cuts that they make are
collected.

* From both ends, these are the cuts of all pairs of layers that are closed, each once, and in the
  end those of the layers up to the horizon: `steps_meet_like_batch`.
* They tell of all paths below the proven bound: such a path to a goal passes through a state of one
  of them, at the costs of that cut: `met_below_provenBound`.
-/

namespace LayeredPlanning

open Relation

variable {task : Task} {horizon : Int} {policy : RunPolicy}

/-- The turns of a run close its layers in this order. -/
theorem Turns.exists_closeMany {frontiers current : Frontiers task horizon}
    {progress reached : Progress} {made : List Cut}
    (h : Turns frontiers progress made current reached) :
    ∃ n, frontiers.closeMany n = (made, current) := by
  induction h with
  | refl => exact ⟨0, rfl⟩
  | snoc _ hlast ih =>
    obtain ⟨n, hmany⟩ := ih
    refine ⟨n + 1, ?_⟩
    rw [Frontiers.closeMany, hmany]
    dsimp only
    rw [hlast.closes]

namespace Frontiers

theorem closes_closeMany (frontiers : Frontiers task horizon) (n : Nat) :
    ReflTransGen Closes frontiers (frontiers.closeMany n).2 :=
  closeMany_induction (P := fun _ current ↦ ReflTransGen Closes frontiers current) .refl
    (fun _ _ cuts _ h hclose ↦ h.tail ⟨cuts, hclose⟩) n

theorem underway_start (task : Task) (hpolicy : 0 ≤ policy.maxCost) :
    (Frontiers.start task policy).Underway := by
  rintro (_ | _) search hsearch
  · obtain ⟨-, ⟨⟩⟩ := Option.ite_none_right_eq_some.mp hsearch
    exact .start task .forward hpolicy
  · obtain ⟨-, ⟨⟩⟩ := Option.ite_none_right_eq_some.mp hsearch
    exact .start task .backward hpolicy

theorem underway_of_closes (hpolicy : 0 ≤ policy.maxCost)
    {frontiers : Frontiers task policy.maxCost}
    (h : ReflTransGen Closes (Frontiers.start task policy) frontiers) : frontiers.Underway := by
  induction h with
  | refl => exact underway_start task hpolicy
  | tail _ hcloses ih =>
    obtain ⟨cuts, hclose⟩ := hcloses
    exact ih.closeNext hclose

/-! ## All meetings -/

theorem paired_start (task : Task) (hmode : policy.mode = .bidirectional)
    (hpolicy : 0 ≤ policy.maxCost) : Paired [] (Frontiers.start task policy) := by
  refine ⟨underway_start task hpolicy, .start task .forward policy.maxCost,
    .start task .backward policy.maxCost, ?_, ?_⟩
  · rw [start, hmode]
    rfl
  · have hempty : (LayerSearch.start task .forward policy.maxCost).closed = ∅ := by
      rw [LayerSearch.start, dif_pos hpolicy]
    rw [hempty]
    exact .nil

/-- From both ends the cuts that the steps make are, each once, those of all pairs of closed layers
that share states.  The steps come to an end, with the layers up to the horizon, and then these are
the cuts that one sweep over the layers makes. -/
theorem steps_meet_like_batch (task : Task) (policy : RunPolicy)
    (hmode : policy.mode = .bidirectional) (hpolicy : 0 ≤ policy.maxCost) :
    (∀ n, ∃ (f : LayerSearch task .forward policy.maxCost)
        (b : LayerSearch task .backward policy.maxCost) (made : List Cut),
      (Frontiers.start task policy).closeMany n = (made, ⟨some f, some b⟩) ∧ made.Nodup ∧
      (∀ cut, cut ∈ made ↔ ∃ g ∈ f.closed.closedCosts, ∃ h ∈ b.closed.closedCosts,
        (f.closed.closedAt g ∩ b.closed.closedAt h).isEmpty = false ∧
          cut = ⟨g, h, f.closed.closedAt g ∩ b.closed.closedAt h⟩) ∧
      (f.isExhausted = true → b.isExhausted = true →
        f.closed = .upTo task .forward policy.maxCost ∧
        b.closed = .upTo task .backward policy.maxCost ∧
        made.Perm (meetingCuts (.upTo task .forward policy.maxCost)
          (.upTo task .backward policy.maxCost)))) ∧
    ∃ n made f b, (Frontiers.start task policy).closeMany n = (made, ⟨some f, some b⟩) ∧
      f.isExhausted = true ∧ b.isExhausted = true := by
  have hpaired := (paired_start task hmode hpolicy).closeMany
  constructor
  · intro n
    have hunderway := (hpaired n).underway
    obtain ⟨f, b, hmany, hperm⟩ := (hpaired n).perm
    rw [hmany] at hunderway
    refine ⟨f, b, _, Prod.ext rfl hmany, ?_, ?_, ?_⟩
    · exact hperm.nodup_iff.mpr (nodup_meetingCuts _ _)
    · intro cut
      rw [hperm.mem_iff, mem_meetingCuts]
    · intro hf hb
      have hforward := (hunderway .forward f rfl).closed_eq_upTo (LayerSearch.isExhausted_iff.mp hf)
      have hbackward := (hunderway .backward b rfl).closed_eq_upTo
        (LayerSearch.isExhausted_iff.mp hb)
      rw [hforward, hbackward] at hperm
      exact ⟨hforward, hbackward, hperm⟩
  · obtain ⟨n, hnone⟩ := exists_closeMany_closeNext?_eq_none (Frontiers.start task policy)
    obtain ⟨f, b, hmany, -⟩ := (hpaired n).perm
    rw [hmany] at hnone
    obtain ⟨hf, hb⟩ := closeNext?_eq_none hnone
    exact ⟨n, _, f, b, Prod.ext rfl hmany, LayerSearch.isExhausted_iff.mpr hf,
      LayerSearch.isExhausted_iff.mpr hb⟩

/-- On the cycle both searches are at their end after four layers, and have met twice. -/
theorem cycle_steps_meet_like_batch :
    ∃ f b made, (Frontiers.start cycle.toTask { maxCost := 2 }).closeMany 4 =
        (made, ⟨some f, some b⟩) ∧ f.isExhausted = true ∧ b.isExhausted = true ∧
      made.length = 2 ∧ made.Perm (meetingCuts (.upTo cycle.toTask .forward 2)
        (.upTo cycle.toTask .backward 2)) := by
  obtain ⟨f, b, made, hmany, -, -, hlast⟩ :=
    (steps_meet_like_batch cycle.toTask { maxCost := 2 } rfl (by decide)).1 4
  have hends : let last := (Frontiers.start cycle.toTask { maxCost := 2 }).closeMany 4
      last.1.length = 2 ∧ last.2.forward?.all (·.isExhausted) = true ∧
        last.2.backward?.all (·.isExhausted) = true := by
    decide +kernel
  rw [hmany] at hends
  obtain ⟨hlength, hf, hb⟩ := hends
  exact ⟨f, b, made, hmany, hf, hb, hlength, (hlast hf hb).2.2⟩

/-! ## Below the proven bound -/

/-- Wherever the searches meet, they have made a cut. -/
theorem exists_mem_made (hpolicy : 0 ≤ policy.maxCost) {n : Nat} {made : List Cut}
    {current : Frontiers task policy.maxCost}
    (hmany : (Frontiers.start task policy).closeMany n = (made, current)) {g h : Int} {s : State}
    (hmeets : current.Meets g h s) :
    ∃ cut ∈ made, cut.g = g ∧ cut.h = h ∧ s ∈ cut.states := by
  have hall : ∀ g h s, ((Frontiers.start task policy).closeMany n).2.Meets g h s →
      ∃ cut ∈ ((Frontiers.start task policy).closeMany n).1, cut.g = g ∧ cut.h = h ∧
        s ∈ cut.states := by
    refine closeMany_induction (P := fun made current ↦ ∀ g h s, current.Meets g h s →
      ∃ cut ∈ made, cut.g = g ∧ cut.h = h ∧ s ∈ cut.states) ?_ ?_ n
    · intro g h s hmeets
      exact absurd hmeets (not_meets_start task hpolicy g h s)
    · intro made current cuts next ih hclose g h s hmeets
      rcases meets_of_closeNext? hclose hmeets with hold | ⟨cut, hcut, hnew⟩
      · obtain ⟨cut, hcut, hmet⟩ := ih g h s hold
        exact ⟨cut, List.mem_append_left _ hcut, hmet⟩
      · exact ⟨cut, List.mem_append_right _ hcut, hnew⟩
  rw [hmany] at hall
  exact hall g h s hmeets

/-- A direction is searched exactly if the mode uses it. -/
theorem Serves.isSome_search? {frontiers : Frontiers task horizon} {mode : SearchMode}
    (h : frontiers.Serves mode) : (d : Direction) → (frontiers.search? d).isSome = mode.uses d
  | .forward => h.forward
  | .backward => h.backward

theorem Serves.search?_eq_none {frontiers : Frontiers task horizon}
    {mode : SearchMode} {d : Direction} (h : frontiers.Serves mode) (hd : mode.uses d = false) :
    frontiers.search? d = none :=
  Option.isNone_iff_eq_none.mp (Option.isSome_eq_false_iff.mp ((h.isSome_search? d).trans hd))

/-- A search that has closed a layer has closed that of its root. -/
theorem Underway.started {frontiers : Frontiers task horizon} (h : frontiers.Underway)
    (hclosed : ∀ d, (frontiers.search? d).isSome = true → frontiers.closedCosts d ≠ []) :
    frontiers.Started := by
  have hsearch : ∀ d search, frontiers.search? d = some search →
      0 ≤ search.closedThrough := by
    intro d search hd
    have hcosts := hclosed d (hd ▸ rfl)
    rw [closedCosts, hd, Option.map_some, Option.getD_some] at hcosts
    obtain ⟨c, hc⟩ := List.exists_mem_of_ne_nil _ hcosts
    obtain ⟨hnonneg, hle⟩ := (h d search hd).bounds_of_mem_closedCosts hc
    exact Int.le_trans hnonneg hle
  exact ⟨hsearch .forward, hsearch .backward⟩

/-- Once a layer is closed in every direction that is searched, a path to a goal that costs less
than the proven bound passes through a state of a cut that has been made, when it has cost what the
cut costs on one side, and still costs what it costs on the other. -/
theorem met_below_provenBound (task : ExplicitTask) (policy : RunPolicy)
    (hpolicy : 0 ≤ policy.maxCost) {n : Nat} {made : List Cut}
    {current : Frontiers task.toTask policy.maxCost}
    (hmany : (Frontiers.start task.toTask policy).closeMany n = (made, current))
    (hclosed : ∀ d, policy.mode.uses d = true → current.closedCosts d ≠ [])
    {es : List (Step task.toTask.transitions)} {t : State} (hes : Leads task.initial es t)
    (ht : t ∈ task.goals) (hlt : pathCost es < current.provenBound task.toTask.maxActionCost) :
    ∃ cut ∈ made, cut.h = pathCost es - cut.g ∧
      (∃ s ∈ cut.states, (s, cut.g) ∈ visits task.initial 0 es) ∧
      (policy.mode = .forward → cut.g = pathCost es) ∧
      (policy.mode = .backward → cut.g = 0) := by
  have hcloses := closes_closeMany (Frontiers.start task.toTask policy) n
  rw [hmany] at hcloses
  have hexact := (exact_and_within hpolicy hcloses).1
  have hserves := serves_of_closes hcloses
  have hstarted : current.Started := by
    refine (underway_of_closes hpolicy hcloses).started fun d hsome ↦ hclosed d ?_
    rw [← hserves.isSome_search? d, hsome]
  obtain ⟨fs, gs, rfl, hreaches⟩ := exists_reaches hstarted
    (fun r hr ↦ Task.cost_le_maxActionCost hr) (Int.le_of_lt task.toTask.one_le_maxActionCost) hlt
  obtain ⟨m, hfs, hgs⟩ := Leads.append_iff.mp hes
  have hforward := (hreaches.closed_before hexact hfs).1
  have hbackward := (hreaches.closed_after (g := pathCost fs) hexact task.consistent hgs ht).1
  obtain ⟨cut, hcut, hg, hh, hm⟩ := exists_mem_made hpolicy hmany ⟨hforward, hbackward⟩
  have hvisit : (m, pathCost fs) ∈ visits task.initial 0 (fs ++ gs) := by
    rw [visits_append, visits_eq_departures_append hfs, Int.zero_add]
    exact List.mem_append_left _ (List.mem_append_right _ List.mem_cons_self)
  refine ⟨cut, hcut, ?_, ⟨m, hm, hg ▸ hvisit⟩, ?_, ?_⟩
  · rw [hg, hh, pathCost_append]
    omega
  · intro hmode
    have hnone : current.backward? = none :=
      hserves.search?_eq_none (d := .backward) (by rw [hmode]; rfl)
    rw [hreaches.backward_none hnone, List.append_nil, hg]
  · intro hmode
    have hnone : current.forward? = none :=
      hserves.search?_eq_none (d := .forward) (by rw [hmode]; rfl)
    rw [hg, hreaches.forward_none hnone, pathCost_nil]

/-- The path round the cycle is met after three layers, one of them from the goal. -/
theorem cycle_met_below_provenBound :
    ∃ made current, (Frontiers.start cycle.toTask { maxCost := 2 }).closeMany 3 =
      (made, current) ∧
      current.closedCosts .forward = [0, 1] ∧ current.closedCosts .backward = [0] ∧
      pathCost [cycle.enter, cycle.turn (.single 2)] <
        current.provenBound cycle.toTask.maxActionCost ∧
      ∃ cut ∈ made, cut.h = 1 - cut.g ∧
        ∃ s ∈ cut.states,
          (s, cut.g) ∈ visits (.single 0) 0 [cycle.enter, cycle.turn (.single 2)] := by
  let policy : RunPolicy := { maxCost := 2 }
  obtain ⟨made, current, hmany⟩ : ∃ made current,
      (Frontiers.start cycle.toTask policy).closeMany 3 = (made, current) := ⟨_, _, rfl⟩
  have hlast : let last := ((Frontiers.start cycle.toTask policy).closeMany 3).2
      last.closedCosts .forward = [0, 1] ∧ last.closedCosts .backward = [0] ∧
        pathCost [cycle.enter, cycle.turn (.single 2)] <
          last.provenBound cycle.toTask.maxActionCost := by
    decide +kernel
  rw [hmany] at hlast
  obtain ⟨hforward, hbackward, hlt⟩ := hlast
  have hclosed : ∀ d, policy.mode.uses d = true → current.closedCosts d ≠ [] := by
    rintro (_ | _) -
    · rw [hforward]
      exact List.cons_ne_nil _ _
    · rw [hbackward]
      exact List.cons_ne_nil _ _
  obtain ⟨t, hes, ht⟩ := (cycle.eligible false).goal
  obtain ⟨cut, hcut, hh, hvisit, -⟩ :=
    met_below_provenBound cycle policy (by decide) hmany hclosed hes
      (ExplicitTask.isGoal_toTask.mp ht) hlt
  exact ⟨made, current, hmany, hforward, hbackward, hlt, cut, hcut, hh, hvisit⟩

end Frontiers

end LayeredPlanning
