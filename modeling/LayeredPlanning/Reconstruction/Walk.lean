import LayeredPlanning.Plans.PlanStore
import LayeredPlanning.Reconstruction.Branch
import LayeredPlanning.Reconstruction.Cut

/-!
# Reconstructing the plans of a cut

The plans through a cut are found depth first: the branches that are still to be explored wait on a
stack, and `Walk.advance` takes the top one.  A branch that completes a plan submits it to the plan
store.  `reconstruct` walks until a budget of plans is accepted, an error arises, or nothing is left
to explore; every advance makes the stack lighter, so it does end.
-/

namespace LayeredPlanning

/-- How the plans of a cut were received. -/
structure Tally where
  /-- The number of plans accepted. -/
  accepted : Nat
  /-- The number of plans known before. -/
  duplicates : Nat
  /-- The number of plans not wanted. -/
  filtered : Nat
  /-- The states on accepted plans. -/
  goalPathStates : StateSet
deriving DecidableEq

namespace Tally

/-- No plan has been submitted. -/
def zero : Tally := ⟨0, 0, 0, ∅⟩

/-- Counts one more verdict. -/
def record (tally : Tally) (verdict : Verdict) (plan : Plan) : Tally :=
  match verdict with
  | .accepted =>
    { tally with
      accepted := tally.accepted + 1
      goalPathStates := tally.goalPathStates ∪ .ofList plan.states }
  | .duplicate => { tally with duplicates := tally.duplicates + 1 }
  | .filtered => { tally with filtered := tally.filtered + 1 }

end Tally

/-- A reconstruction under way. -/
structure Walk (σ : Type) where
  /-- The branches still to be explored, the next one first. -/
  stack : List Branch
  /-- How the submitted plans were received. -/
  tally : Tally
  /-- The plan store. -/
  store : σ

/-- How a reconstruction ends: with a tally or an error, and in any case with the store. -/
abbrev Walk.End (σ : Type) : Type := Except ReconstructionError Tally × σ

namespace Walk

variable {σ : Type} [PlanStore σ]

/-- The walk that starts at the meeting states of a cut. -/
def start (cut : Cut) (store : σ) : Walk σ :=
  ⟨cut.states.toList.map (Branch.ofMeeting cut.g), .zero, store⟩

/-- Explores the next branch: the walk ends, or goes on. -/
def advance (view : LayerView) (cut : Cut) (budget : Nat) (walk : Walk σ) :
    Walk.End σ ⊕ Walk σ :=
  match walk.stack with
  | [] => .inl (.ok walk.tally, walk.store)
  | b :: rest =>
    match b.expand view cut.h with
    | .error e => .inl (.error e, walk.store)
    | .ok ⟨none, children⟩ => .inr { walk with stack := children ++ rest }
    | .ok ⟨some plan, children⟩ =>
      if plan.cost = cut.f then
        let (verdict, store) := PlanStore.submit walk.store plan
        let tally := walk.tally.record verdict plan
        if budget ≤ tally.accepted then .inl (.ok tally, store)
        else .inr ⟨children ++ rest, tally, store⟩
      else .inl (.error (.costMismatch cut.f plan.cost), walk.store)

/-- The number of branches that the walk can still go through. -/
def weight (view : LayerView) (cut : Cut) (walk : Walk σ) : Nat :=
  Branch.totalWeight view cut.h walk.stack

/-- Exploring a branch puts its ways to go on in its place. -/
theorem stack_of_advance {view : LayerView} {cut : Cut} {budget : Nat} {walk walk' : Walk σ}
    (h : walk.advance view cut budget = .inr walk') :
    ∃ b rest, walk.stack = b :: rest ∧ walk'.stack = b.children view cut.h ++ rest := by
  unfold advance at h
  cases hs : walk.stack with
  | nil =>
    simp only [hs] at h
    cases h
  | cons b rest =>
    refine ⟨b, rest, rfl, ?_⟩
    unfold Branch.children
    simp only [hs] at h
    cases hb : b.expand view cut.h with
    | error e =>
      simp only [hb] at h
      cases h
    | ok x =>
      obtain ⟨_ | plan, children⟩ := x
      · simp only [hb] at h
        cases h
        rfl
      · simp only [hb] at h
        split at h
        · split at h
          · cases h
          · cases h
            rfl
        · cases h

/-- Every advance makes the walk lighter. -/
theorem weight_lt_of_advance {view : LayerView} {cut : Cut} {budget : Nat} {walk walk' : Walk σ}
    (h : walk.advance view cut budget = .inr walk') :
    walk'.weight view cut < walk.weight view cut := by
  obtain ⟨b, rest, hs, hs'⟩ := stack_of_advance h
  rw [weight, weight, hs, hs', Branch.totalWeight_append, Branch.totalWeight,
    Branch.weight_eq view cut.h b]
  omega

/-- Walks to the end. -/
def run (view : LayerView) (cut : Cut) (budget : Nat) (walk : Walk σ) : Walk.End σ :=
  match _h : walk.advance view cut budget with
  | .inl last => last
  | .inr next => next.run view cut budget
termination_by walk.weight view cut
decreasing_by exact weight_lt_of_advance _h

end Walk

/-- Submits the plans through `cut` to the store, until the store has accepted `budget` of them or
no more are left. -/
def reconstruct {σ : Type} [PlanStore σ] (view : LayerView) (cut : Cut)
    (budget : Nat) (store : σ) : Walk.End σ :=
  if budget = 0 then (.ok .zero, store)
  else (Walk.start cut store).run view cut budget

end LayeredPlanning
