import LayeredPlanning.Proofs.Reconstruction.Registry

/-!
# Justified layers

A reconstruction gives up at a branch that the layers do not explain.  This does not happen if each
state that the layers hold is a root, or comes from a state that they hold at what its action leaves
of the cost (`LayerView.Justified`).  Then every branch can be expanded
(`Branch.Grounded.exists_expand`), every plan costs what its cut promises, and the reconstruction
ends with a tally: `exists_tally_reconstruct`.
-/

namespace LayeredPlanning

/-! ## Justified views -/

namespace LayerView

variable {view : LayerView} {d : Direction} {s : State} {c : Int}

/-- The layers of a direction hold a state at a cost.  Where nothing was searched, the root counts
as held. -/
def Holds (view : LayerView) (d : Direction) (s : State) (c : Int) : Prop :=
  match view.layers? d with
  | some closed => s ∈ closed.closedAt c
  | none => c = 0 ∧ s ∈ view.task.root d

/-- Each state that the layers hold is the root at cost zero, or an action leads to it from a state
that they hold at what is left of the cost. -/
def Justified (view : LayerView) : Prop :=
  ∀ d s c, view.Holds d s c → c = 0 ∧ s ∈ view.task.root d ∨
    ∃ r ∈ view.task.transitions.relations, ∃ t, s ∈ r.step d (.singleton t) ∧
      r.action.cost ≤ c ∧ view.Holds d t (c - r.action.cost)

theorem holds_of_some {closed : ClosedLayers} (h : view.layers? d = some closed) :
    view.Holds d s c ↔ s ∈ closed.closedAt c := by
  rw [Holds, h]

theorem holds_of_none (h : view.layers? d = none) :
    view.Holds d s c ↔ c = 0 ∧ s ∈ view.task.root d := by
  rw [Holds, h]

theorem holds_of_mem_closedAt (h : s ∈ view.closedAt d c) : view.Holds d s c := by
  cases hlayers : view.layers? d with
  | none =>
    rw [closedAt_of_none hlayers] at h
    exact absurd h (StateSet.notMem_empty s)
  | some closed =>
    rw [closedAt_of_some hlayers] at h
    exact (holds_of_some hlayers).mpr h

end LayerView

/-- In a consistent relation a step one way is a step back the other way. -/
theorem Transition.Consistent.mem_step_opposite {r : Transition} (h : r.Consistent) {d : Direction}
    {s t : State} (hs : s ∈ r.step d (.singleton t)) :
    t ∈ r.step d.opposite (.singleton s) := by
  cases d with
  | forward =>
    obtain ⟨t', ht', hedge⟩ := Transition.mem_image.mp hs
    obtain rfl := StateSet.mem_singleton.mp ht'
    exact h.mem_preimage.mpr ⟨s, StateSet.mem_singleton.mpr rfl, hedge⟩
  | backward =>
    obtain ⟨t', ht', hedge⟩ := h.mem_preimage.mp hs
    obtain rfl := StateSet.mem_singleton.mp ht'
    exact Transition.mem_image.mpr ⟨s, StateSet.mem_singleton.mpr rfl, hedge⟩

/-! ## Grounded branches -/

section Grounded

variable {view : LayerView} {cut : Cut} {h : Int} {b : Branch}

namespace Branch

/-- The layers hold the end of the branch at its cost, and the meeting state at the cost from which
the branch will go on. -/
structure Grounded (view : LayerView) (h : Int) (b : Branch) : Prop where
  holds : view.Holds b.direction b.state b.cost
  meets : view.Holds .backward b.meeting h

/-- A branch at the root has arrived. -/
theorem hasArrived_of_root (hgoal : ∀ s ∈ view.task.goals, view.task.isGoal s = true)
    (hcost : b.cost = 0) (hroot : b.state ∈ view.task.root b.direction) :
    b.hasArrived view.task = true := by
  rw [hasArrived, hcost, Bool.and_eq_true]
  refine ⟨rfl, ?_⟩
  cases hd : b.direction with
  | forward =>
    rw [hd] at hroot
    exact beq_iff_eq.mpr (StateSet.mem_singleton.mp hroot)
  | backward =>
    rw [hd] at hroot
    exact hgoal _ hroot

/-- A step to a state that the layers hold justifies a branch. -/
theorem isJustified_of_neighbour {closed : ClosedLayers} {r : Transition} {t : State}
    (hr : r ∈ view.task.transitions.relations) (ht : t ∈ b.neighbours r)
    (hcost : r.action.cost ≤ b.cost) (hclosed : t ∈ closed.closedAt (b.cost - r.action.cost)) :
    (b.isFreelyJustified view.task.transitions closed ||
      !(b.paidSteps view.task.transitions closed).isEmpty) = true := by
  rw [Bool.or_eq_true]
  by_cases hfree : r.action.cost = 0
  · left
    rw [hfree, Int.sub_zero] at hclosed
    refine List.any_eq_true.mpr ⟨r, TransitionTable.mem_zeroCost.mpr ⟨hr, hfree⟩, ?_⟩
    rw [Bool.not_eq_true']
    exact StateSet.isEmpty_eq_false_iff.mpr ⟨t, StateSet.mem_inter.mpr ⟨ht, hclosed⟩⟩
  · right
    have hpos := r.action.cost_nonneg
    have hmem : b.paidStep r.action t ∈ b.paidSteps view.task.transitions closed :=
      mem_paidSteps.mpr ⟨r, TransitionTable.mem_paid.mpr ⟨hr, by omega⟩, hcost, t,
        hclosed, ht, rfl⟩
    rw [Bool.not_eq_true', List.isEmpty_eq_false_iff]
    exact List.ne_nil_of_mem hmem

namespace Grounded

/-- On justified layers a grounded branch can be expanded. -/
theorem exists_expand (hb : b.Grounded view h) (hjust : view.Justified)
    (hcons : ∀ r ∈ view.task.transitions.relations, r.Consistent)
    (hgoal : ∀ s ∈ view.task.goals, view.task.isGoal s = true) :
    ∃ x, b.expand view h = .ok x := by
  cases hlayers : view.layers? b.direction with
  | none =>
    obtain ⟨hcost, hroot⟩ := (LayerView.holds_of_none hlayers).mp hb.holds
    have harr := hasArrived_of_root hgoal hcost hroot
    exact ⟨_, by rw [expand, hlayers]; exact if_pos harr⟩
  | some closed =>
    have hexplained : (b.hasArrived view.task || b.isFreelyJustified view.task.transitions closed ||
        !(b.paidSteps view.task.transitions closed).isEmpty) = true := by
      rw [Bool.or_assoc, Bool.or_eq_true]
      rcases hjust b.direction b.state b.cost hb.holds with
        ⟨hcost, hroot⟩ | ⟨r, hr, t, hstep, hcost, ht⟩
      · exact .inl (hasArrived_of_root hgoal hcost hroot)
      · exact .inr (isJustified_of_neighbour hr ((hcons r hr).mem_step_opposite hstep) hcost
          ((LayerView.holds_of_some hlayers).mp ht))
    exact ⟨_, by rw [expand, hlayers]; exact if_pos hexplained⟩

/-- Every move leads to a grounded branch. -/
theorem make (hb : b.Grounded view h) {mv : Move view.task.transitions}
    (hmv : mv ∈ b.moves view) : (b.make h mv).Grounded view h := by
  rcases mem_moves.mp hmv with ⟨rfl, -, -⟩ | ⟨k, p, rfl, -, hp, -⟩
  · exact ⟨hb.meets, hb.meets⟩
  · rw [make_step]
    exact ⟨LayerView.holds_of_mem_closedAt hp, hb.meets⟩

/-- So do moves one after the other. -/
theorem follow (hb : b.Grounded view h) {ms : List (Move view.task.transitions)}
    (hms : b.Follows view h ms) : (b.follow h ms).Grounded view h := by
  induction ms generalizing b with
  | nil => exact hb
  | cons mv ms ih => exact ih (hb.make hms.1) hms.2

end Grounded

end Branch

/-! ## Reconstructions on justified layers -/

/-- The layers hold the meeting states of a cut at its costs. -/
def Cut.HeldBy (view : LayerView) (cut : Cut) : Prop :=
  ∀ m ∈ cut.states, view.Holds .forward m cut.g ∧ view.Holds .backward m cut.h

open Branch in
/-- A reconstruction on justified layers comes across plans only, and they cost what the cut
promises. -/
theorem exists_plan_of_mem_preorder (hjust : view.Justified)
    (hcons : ∀ r ∈ view.task.transitions.relations, r.Consistent)
    (hgoal : ∀ s ∈ view.task.goals, view.task.isGoal s = true) (hcut : cut.Valid)
    (hheld : cut.HeldBy view) {item : Except ReconstructionError Plan}
    (hitem : item ∈ cut.preorder view) : ∃ plan, item = .ok plan ∧ plan.cost = cut.f := by
  obtain ⟨m, hm, hitem⟩ := List.mem_flatMap.mp hitem
  obtain ⟨ms, hms, hitem⟩ := List.mem_flatMap.mp hitem
  have hms := mem_courses.mp hms
  have hm := StateSet.mem_toList.mp hm
  have hground : (ofMeeting cut.g m).Grounded view cut.h := ⟨(hheld m hm).1, (hheld m hm).2⟩
  obtain ⟨x, hx⟩ := (hground.follow hms).exists_expand hjust hcons hgoal
  cases item with
  | error e =>
    rw [yields, hx] at hitem
    obtain ⟨plan, -, heq⟩ := List.mem_map.mp hitem
    cases heq
  | ok plan =>
    refine ⟨plan, rfl, ?_⟩
    have hplan : plan ∈ (((ofMeeting cut.g m).follow cut.h ms).yields view cut.h).filterMap
        Except.toOption :=
      List.mem_filterMap.mpr ⟨_, hitem, rfl⟩
    rw [filterMap_yields] at hplan
    split at hplan
    · next hdone =>
      obtain ⟨w, hw, -, -, hw'⟩ := exists_witness_of_completes hcons hm hms hdone
      have hpath := hw.eligible.2
      rw [List.mem_singleton.mp hplan, hw', Witness.plan,
        cost_pathPlan _ (hpath ▸ hcut.2.2), hpath, hcut.f_eq]
    · exact absurd hplan List.not_mem_nil

/-- Where only plans of the promised cost come up, a delivery ends with a tally. -/
theorem Walk.exists_tally_deliver {σ : Type} [PlanStore σ] {budget : Nat}
    {tally : Tally} {store : σ} {items : List (Except ReconstructionError Plan)}
    (hitems : ∀ item ∈ items, ∃ plan, item = .ok plan ∧ plan.cost = cut.f) :
    ∃ tally', (deliver cut budget tally store items).1 = .ok tally' := by
  fun_induction deliver cut budget tally store items with
  | case1 tally => exact ⟨tally, rfl⟩
  | case2 =>
    obtain ⟨plan, heq, -⟩ := hitems _ List.mem_cons_self
    cases heq
  | case3 => exact ⟨_, rfl⟩
  | case4 _ _ _ _ _ _ _ _ _ _ ih =>
    exact ih fun item hitem ↦ hitems item (List.mem_cons_of_mem _ hitem)
  | case5 tally store plan rest hcost =>
    obtain ⟨_, ⟨⟩, hplan⟩ := hitems _ List.mem_cons_self
    exact absurd hplan hcost

/-- On justified layers that hold its meeting states, the reconstruction of a cut ends with a tally,
whatever the budget and the store. -/
theorem exists_tally_reconstruct {σ : Type} [PlanStore σ] (hjust : view.Justified)
    (hcons : ∀ r ∈ view.task.transitions.relations, r.Consistent)
    (hgoal : ∀ s ∈ view.task.goals, view.task.isGoal s = true) (hcut : cut.Valid)
    (hheld : cut.HeldBy view) (budget : Nat) (store : σ) :
    ∃ tally, (reconstruct view cut budget store).1 = .ok tally := by
  by_cases hbudget : budget = 0
  · rw [reconstruct, if_pos hbudget]
    exact ⟨_, rfl⟩
  · rw [reconstruct_eq_deliver hbudget]
    exact Walk.exists_tally_deliver fun item hitem ↦
      exists_plan_of_mem_preorder hjust hcons hgoal hcut hheld hitem

end Grounded

end LayeredPlanning
