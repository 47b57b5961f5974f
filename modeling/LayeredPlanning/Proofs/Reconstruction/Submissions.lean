import LayeredPlanning.Proofs.Reconstruction.Courses
import LayeredPlanning.Reconstruction.Walk

/-!
# What a reconstruction submits

`Branch.preorder` is what a depth-first walk below a branch comes across, one after the other: plans
that are complete, and branches that cannot be justified.  It is defined through the tree of
branches alone.  `Walk.deliver` hands such a list to a plan store, up to the first error or until
enough plans are accepted.

`run_eq_delivery` says that the walk with its explicit stack is the delivery of the preorder
listing.  `Recorder` is a plan store that keeps a record of what it is offered, to speak about the
submissions to any other store.
-/

namespace LayeredPlanning

namespace Branch

variable {view : LayerView} {h : Int}

/-- What a branch comes to by itself: an error, a plan, or nothing. -/
def yields (view : LayerView) (h : Int) (b : Branch) : List (Except ReconstructionError Plan) :=
  match b.expand view h with
  | .error e => [.error e]
  | .ok x => x.completed?.toList.map .ok

/-- What a branch and the branches below it come to, depth first. -/
def preorder (view : LayerView) (h : Int) (b : Branch) : List (Except ReconstructionError Plan) :=
  (b.courses view h).flatMap fun ms ↦ (b.follow h ms).yields view h

theorem preorder_eq (b : Branch) :
    b.preorder view h = b.yields view h ++ (b.children view h).flatMap (preorder view h) := by
  rw [preorder, courses_eq, List.flatMap_cons, List.flatMap_assoc, ← map_make_moves,
    List.flatMap_map]
  simp only [List.flatMap_map]
  rfl

end Branch

namespace Walk

variable {σ : Type} [PlanStore σ] {view : LayerView} {cut : Cut} {budget : Nat}

/-- Hands plans to the store until it has accepted `budget` of them, or an error comes up. -/
def deliver (cut : Cut) (budget : Nat) (tally : Tally) (store : σ) :
    List (Except ReconstructionError Plan) → Walk.End σ
  | [] => (.ok tally, store)
  | .error e :: _ => (.error e, store)
  | .ok plan :: rest =>
    if plan.cost = cut.f then
      let (verdict, store) := PlanStore.submit store plan
      let tally := tally.record verdict plan
      if budget ≤ tally.accepted then (.ok tally, store)
      else deliver cut budget tally store rest
    else (.error (.costMismatch cut.f plan.cost), store)

/-- The plans that a delivery hands to the store. -/
def submissions (cut : Cut) (budget : Nat) (tally : Tally) (store : σ) :
    List (Except ReconstructionError Plan) → List Plan
  | [] => []
  | .error _ :: _ => []
  | .ok plan :: rest =>
    if plan.cost = cut.f then
      let (verdict, store) := PlanStore.submit store plan
      let tally := tally.record verdict plan
      if budget ≤ tally.accepted then [plan]
      else plan :: submissions cut budget tally store rest
    else []

/-- The delivery of all that lies below the branches of the stack. -/
def delivery (view : LayerView) (cut : Cut) (budget : Nat) (walk : Walk σ) : Walk.End σ :=
  deliver cut budget walk.tally walk.store (walk.stack.flatMap (Branch.preorder view cut.h))

theorem delivery_of_cons {walk : Walk σ} {b : Branch} {rest : List Branch}
    (hstack : walk.stack = b :: rest) :
    walk.delivery view cut budget = deliver cut budget walk.tally walk.store
      (b.yields view cut.h ++
        (b.children view cut.h ++ rest).flatMap (Branch.preorder view cut.h)) := by
  rw [delivery, hstack, List.flatMap_cons, Branch.preorder_eq, List.flatMap_append,
    List.append_assoc]

/-- If the walk ends with the next branch, so does the delivery. -/
theorem delivery_of_advance_inl {walk : Walk σ} {last : Walk.End σ}
    (hadv : walk.advance view cut budget = .inl last) :
    walk.delivery view cut budget = last := by
  unfold advance at hadv
  split at hadv
  · next hstack =>
    cases hadv
    rw [delivery, hstack]
    rfl
  · next b rest hstack =>
    rw [delivery_of_cons hstack, Branch.yields]
    split at hadv
    · next e hb =>
      cases hadv
      rw [hb]
      rfl
    · cases hadv
    · next plan children hb =>
      rw [hb]
      simp only [Option.toList_some, List.map_cons, List.map_nil, List.cons_append, deliver]
      split at hadv
      · next hcost =>
        rw [if_pos hcost]
        dsimp only at hadv
        split at hadv
        · next hbudget =>
          cases hadv
          rw [if_pos hbudget]
        · cases hadv
      · next hcost =>
        cases hadv
        rw [if_neg hcost]

/-- If the walk goes on from the next branch, there is the rest of the delivery to come. -/
theorem delivery_of_advance_inr {walk next : Walk σ}
    (hadv : walk.advance view cut budget = .inr next) :
    walk.delivery view cut budget = next.delivery view cut budget := by
  unfold advance at hadv
  split at hadv
  · cases hadv
  · next b rest hstack =>
    rw [delivery_of_cons hstack, Branch.yields, Branch.children]
    split at hadv
    · cases hadv
    · next children hb =>
      cases hadv
      rw [hb]
      rfl
    · next plan children hb =>
      rw [hb]
      simp only [Option.toList_some, List.map_cons, List.map_nil, List.cons_append, deliver]
      split at hadv
      · next hcost =>
        rw [if_pos hcost]
        dsimp only at hadv
        split at hadv
        · cases hadv
        · next hbudget =>
          cases hadv
          rw [if_neg hbudget]
          rfl
      · cases hadv

/-- The walk with its stack delivers what lies below the branches of the stack. -/
theorem run_eq_delivery (walk : Walk σ) :
    walk.run view cut budget = walk.delivery view cut budget := by
  fun_induction run view cut budget walk with
  | case1 walk last hadv => exact (delivery_of_advance_inl hadv).symm
  | case2 walk next hadv ih => rw [ih, delivery_of_advance_inr hadv]

/-! ## What a delivery does to the store -/

/-- Hands plans to the store one after the other, whatever it says. -/
def submitAll (tally : Tally) (store : σ) : List Plan → Tally × σ
  | [] => (tally, store)
  | plan :: rest =>
    let (verdict, store) := PlanStore.submit store plan
    submitAll (tally.record verdict plan) store rest

section Deliver

variable {tally tally' : Tally} {store : σ} {items : List (Except ReconstructionError Plan)}

/-- The submitted plans are the first items of the list. -/
theorem submissions_prefix :
    (submissions cut budget tally store items).map Except.ok <+: items := by
  fun_induction submissions cut budget tally store items with
  | case1 => exact List.prefix_refl []
  | case2 tally store e rest => exact List.nil_prefix
  | case3 tally store plan rest => exact ⟨rest, rfl⟩
  | case4 tally store plan rest _ _ _ _ _ _ ih =>
    exact List.prefix_cons_iff.mpr (.inr ⟨_, rfl, ih⟩)
  | case5 tally store plan rest => exact List.nil_prefix

/-- Only plans that cost what the cut promises are submitted. -/
theorem cost_of_mem_submissions {plan : Plan}
    (h : plan ∈ submissions cut budget tally store items) : plan.cost = cut.f := by
  fun_induction submissions cut budget tally store items with
  | case1 => exact absurd h List.not_mem_nil
  | case2 => exact absurd h List.not_mem_nil
  | case3 tally store p rest hcost =>
    obtain rfl := List.mem_singleton.mp h
    exact hcost
  | case4 tally store p rest hcost _ _ _ _ _ ih =>
    rcases List.mem_cons.mp h with rfl | h
    · exact hcost
    · exact ih h
  | case5 => exact absurd h List.not_mem_nil

/-- A delivery leaves the store that results from the submissions. -/
theorem deliver_snd :
    (deliver cut budget tally store items).2 =
      (submitAll tally store (submissions cut budget tally store items)).2 := by
  fun_induction submissions cut budget tally store items with
  | case1 => rfl
  | case2 => rfl
  | case3 tally store plan rest hcost verdict store' hsubmit tally' hbudget =>
    rw [deliver, if_pos hcost, submitAll, hsubmit]
    dsimp only
    rw [if_pos hbudget, submitAll]
  | case4 tally store plan rest hcost verdict store' hsubmit tally' hbudget ih =>
    rw [deliver, if_pos hcost, submitAll, hsubmit]
    dsimp only
    rw [if_neg hbudget, ih]
  | case5 tally store plan rest hcost =>
    rw [deliver, if_neg hcost]
    rfl

/-- A delivery without an error answers the tally of the submissions; it has submitted everything,
unless enough plans were accepted before. -/
theorem deliver_fst (h : (deliver cut budget tally store items).1 = .ok tally') :
    tally' = (submitAll tally store (submissions cut budget tally store items)).1 ∧
      (tally'.accepted < budget →
        items = (submissions cut budget tally store items).map Except.ok) := by
  fun_induction submissions cut budget tally store items with
  | case1 =>
    cases h
    exact ⟨rfl, fun _ ↦ rfl⟩
  | case2 => cases h
  | case3 tally store plan rest hcost verdict store' hsubmit _ hbudget =>
    rw [deliver, if_pos hcost, hsubmit] at h
    dsimp only at h
    rw [if_pos hbudget] at h
    cases h
    rw [submitAll, hsubmit]
    exact ⟨rfl, fun hlt ↦ absurd hlt (Nat.not_lt.mpr hbudget)⟩
  | case4 tally store plan rest hcost verdict store' hsubmit _ hbudget ih =>
    rw [deliver, if_pos hcost, hsubmit] at h
    dsimp only at h
    rw [if_neg hbudget] at h
    obtain ⟨htally, hitems⟩ := ih h
    rw [submitAll, hsubmit]
    refine ⟨htally, ?_⟩
    intro hlt
    rw [List.map_cons, ← hitems hlt]
  | case5 tally store plan rest hcost =>
    rw [deliver, if_neg hcost] at h
    cases h

theorem accepted_record_le (tally : Tally) (verdict : Verdict) (plan : Plan) :
    (tally.record verdict plan).accepted ≤ tally.accepted + 1 := by
  cases verdict
  · exact Nat.le_refl _
  · exact Nat.le_succ _
  · exact Nat.le_succ _

/-- A delivery stops at its budget. -/
theorem accepted_deliver_le (hlt : tally.accepted < budget)
    (h : (deliver cut budget tally store items).1 = .ok tally') : tally'.accepted ≤ budget := by
  fun_induction deliver cut budget tally store items with
  | case1 =>
    cases h
    exact Nat.le_of_lt hlt
  | case2 => cases h
  | case3 tally store plan rest hcost verdict store' hsubmit _ hbudget =>
    rw [← Except.ok.inj h]
    exact Nat.le_trans (accepted_record_le tally verdict plan) hlt
  | case4 tally store plan rest hcost verdict store' hsubmit _ hbudget ih =>
    exact ih (Nat.not_le.mp hbudget) h
  | case5 => cases h

end Deliver

end Walk

/-! ## Recording submissions -/

/-- A plan store with a record of the plans that it has been offered. -/
structure Recorder (σ : Type) where
  store : σ
  submitted : List Plan

namespace Recorder

variable {σ : Type} [PlanStore σ]

/-- The store before it is offered anything. -/
def ofStore (store : σ) : Recorder σ := ⟨store, []⟩

instance instPlanStore : PlanStore (Recorder σ) where
  submit recorder plan :=
    let (verdict, store) := PlanStore.submit recorder.store plan
    (verdict, ⟨store, recorder.submitted ++ [plan]⟩)
  quota recorder := PlanStore.quota recorder.store
  acceptedCount recorder := PlanStore.acceptedCount recorder.store
  foundEnough recorder := PlanStore.foundEnough recorder.store
  admitsCost recorder := PlanStore.admitsCost recorder.store
  closeAtCost recorder cost := { recorder with store := PlanStore.closeAtCost recorder.store cost }

/-- The record does not change the delivery, and has what is submitted. -/
theorem deliver_recorder (cut : Cut) (budget : Nat) (tally : Tally) (store : σ)
    (record : List Plan) (items : List (Except ReconstructionError Plan)) :
    Walk.deliver cut budget tally (⟨store, record⟩ : Recorder σ) items =
      ((Walk.deliver cut budget tally store items).1,
        ⟨(Walk.deliver cut budget tally store items).2,
          record ++ Walk.submissions cut budget tally store items⟩) := by
  induction items generalizing tally store record with
  | nil => rw [Walk.deliver, Walk.deliver, Walk.submissions, List.append_nil]
  | cons item rest ih =>
    cases item with
    | error e => rw [Walk.deliver, Walk.deliver, Walk.submissions, List.append_nil]
    | ok plan =>
      rw [Walk.deliver, Walk.deliver, Walk.submissions]
      by_cases hcost : plan.cost = cut.f
      · simp only [if_pos hcost, PlanStore.submit]
        by_cases hbudget :
            budget ≤ (tally.record (PlanStore.submit store plan).1 plan).accepted
        · simp only [if_pos hbudget]
        · simp only [if_neg hbudget, ih, List.append_assoc, List.singleton_append]
      · simp only [if_neg hcost, List.append_nil]

end Recorder

/-! ## Reconstructions -/

/-- What the branches of a cut come to, depth first. -/
def Cut.preorder (view : LayerView) (cut : Cut) : List (Except ReconstructionError Plan) :=
  cut.states.toList.flatMap fun m ↦ (Branch.ofMeeting cut.g m).preorder view cut.h

theorem reconstruct_eq_deliver {σ : Type} [PlanStore σ] {view : LayerView} {cut : Cut}
    {budget : Nat} {store : σ} (hbudget : budget ≠ 0) :
    reconstruct view cut budget store =
      Walk.deliver cut budget .zero store (cut.preorder view) := by
  rw [reconstruct, if_neg hbudget, Walk.run_eq_delivery, Walk.delivery, Walk.start,
    List.flatMap_map]
  rfl

/-- A reconstruction, be it given up or not, submits plans; if it is not given up, it answers their
tally. -/
theorem exists_submitAll_of_reconstruct {σ : Type} [PlanStore σ] {view : LayerView} {cut : Cut}
    {budget : Nat} {store store' : σ} {result : Except ReconstructionError Tally}
    (h : reconstruct view cut budget store = (result, store')) :
    ∃ plans tally, Walk.submitAll .zero store plans = (tally, store') ∧
      ∀ tally', result = .ok tally' → tally' = tally := by
  by_cases hbudget : budget = 0
  · rw [reconstruct, if_pos hbudget] at h
    cases h
    exact ⟨[], .zero, rfl, fun _ h ↦ (Except.ok.inj h).symm⟩
  rw [reconstruct_eq_deliver hbudget] at h
  refine ⟨Walk.submissions cut budget .zero store (cut.preorder view), _,
    Prod.ext rfl (Walk.deliver_snd.symm.trans (congrArg Prod.snd h)), ?_⟩
  rintro tally' rfl
  exact (Walk.deliver_fst (congrArg Prod.fst h)).1

/-- What every submission keeps up of the store is kept up by a reconstruction. -/
theorem reconstruct_induction {σ : Type} [PlanStore σ] {P : σ → Prop}
    (hsubmit : ∀ store plan, P store → P (PlanStore.submit store plan).2)
    {store : σ} (h : P store) (view : LayerView) (cut : Cut) (budget : Nat) :
    P (reconstruct view cut budget store).2 := by
  have hall : ∀ (plans : List Plan) (tally : Tally) (store : σ), P store →
      P (Walk.submitAll tally store plans).2 := by
    intro plans
    induction plans with
    | nil => exact fun _ _ h ↦ h
    | cons plan plans ih => exact fun tally store h ↦ ih _ _ (hsubmit store plan h)
  rcases hrec : reconstruct view cut budget store with ⟨result, store'⟩
  obtain ⟨plans, tally, hsubmitAll, -⟩ := exists_submitAll_of_reconstruct hrec
  have hlast := hall plans .zero store h
  rwa [hsubmitAll] at hlast

theorem accepted_reconstruct_le {σ : Type} [PlanStore σ] {view : LayerView} {cut : Cut}
    {budget : Nat} {store store' : σ} {tally : Tally}
    (h : reconstruct view cut budget store = (.ok tally, store')) : tally.accepted ≤ budget := by
  by_cases hbudget : budget = 0
  · rw [reconstruct, if_pos hbudget] at h
    cases h
    exact Nat.zero_le _
  · rw [reconstruct_eq_deliver hbudget] at h
    exact Walk.accepted_deliver_le (Nat.pos_of_ne_zero hbudget) (congrArg Prod.fst h)

end LayeredPlanning
