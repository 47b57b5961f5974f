import Mathlib.Algebra.BigOperators.Group.List.Basic
import LayeredPlanning.Proofs.Reconstruction.DeadEnds
import LayeredPlanning.Proofs.Reconstruction.Termination

/-!
# Branches are parts of plans

A branch holds a part of a plan of its cut, whichever way it grows (`Branch.IsPart`).  On the way
back its actions, read backwards, lead from its end to the meeting state, and cost what has been
spent of `g`.  On the way on they lead from the initial state through the meeting state, which they
reach at cost `g`, to its end, and cost what has been spent of `g + h`.  The trail holds the states
of the part that lie in the layer of the end, each of them once; the layer of the meeting state is
one layer for both halves.

The tracks of a branch say nearly all of this.  What they leave open is that the trail has no
repetitions (`Branch.nodup_trail_follow`), which has to be seen anew at a turn, where the trail is
read off the states.

So whatever a reconstruction puts on its stack is a part of a plan, and what is completed costs what
the cut says: `reconstruct_stacks_parts`.
-/

namespace LayeredPlanning

namespace Branch

/-- The state in which the part starts. -/
def first (task : Task) (b : Branch) : State :=
  match b.direction with
  | .forward => b.state
  | .backward => task.initial

/-- The accumulated cost at which the end is. -/
def level (cut : Cut) (b : Branch) : Int :=
  match b.direction with
  | .forward => b.cost
  | .backward => cut.g + cut.h - b.cost

/-- What has been spent of the cost: on the way back, of that of the meeting state, on the way on,
of that of the cut. -/
def spent (cut : Cut) (b : Branch) : Int :=
  match b.direction with
  | .forward => cut.g - b.cost
  | .backward => cut.g + cut.h - b.cost

/-- The steps lead from the start of the part to its other end, by way of the meeting state. -/
inductive GrownAlong (view : LayerView) (cut : Cut) (b : Branch) :
    List (Step view.task.transitions) → Prop where
  | back {before : List (Step view.task.transitions)} : b.direction = .forward →
      Leads b.state before b.meeting → GrownAlong view cut b before
  | on {before after : List (Step view.task.transitions)} : b.direction = .backward →
      Leads view.task.initial before b.meeting → pathCost before = cut.g →
        Leads b.meeting after b.state → GrownAlong view cut b (before ++ after)

/-- A branch holds a part of a plan around a meeting state.  Read in order of execution, which is
backwards on the way back, its actions and states are those of the steps along which it has grown.
The trail has the states that are visited at the level of the end. -/
structure IsPart (view : LayerView) (cut : Cut) (b : Branch) : Prop where
  meeting : b.meeting ∈ cut.states
  path : ∃ es, b.GrownAlong view cut es ∧ b.part = pathPlan (b.first view.task) es
  cost : (b.actions.map Action.cost).sum = b.spent cut
  length : b.states.length = b.actions.length + 1
  nodup_trail : b.trail.Nodup
  mem_trail : ∀ p, p ∈ b.trail ↔
    (p, b.level cut) ∈ b.part.states.zip (Plan.runningCosts b.startCost b.part.actions)

variable {view : LayerView} {cut : Cut} {b : Branch} {m : State}

/-! ## Trails -/

/-- A step keeps repetitions out of the trail. -/
theorem nodup_trail_make {h : Int} {k : Fin view.task.transitions.relations.length} {p : State}
    (hmv : .step k p ∈ b.moves view) (hb : b.trail.Nodup) :
    (b.make h (.step k p)).trail.Nodup := by
  rw [make_step]
  rcases mem_moves.mp hmv with ⟨hturn, _⟩ | ⟨_, _, heq, _, _, hstep⟩
  · cases hturn
  obtain ⟨rfl, rfl⟩ := Move.step.inj heq
  dsimp only
  rcases hstep with ⟨hfree, hnew⟩ | ⟨hpos, _⟩
  · rw [if_pos hfree]
    exact List.nodup_append.mpr ⟨hb, List.nodup_singleton p, fun q hq _ hlast heq ↦
      hnew (List.mem_singleton.mp hlast ▸ heq ▸ hq)⟩
  · rw [if_neg (by omega)]
    exact List.nodup_singleton p

/-- No trail has repetitions.  At a turn it is that of the path behind the branch, which has
none. -/
theorem nodup_trail_follow (hcons : ∀ r ∈ view.task.transitions.relations, r.Consistent)
    {ms : List (Move view.task.transitions)} (hms : (ofMeeting cut.g m).Follows view cut.h ms) :
    ((ofMeeting cut.g m).follow cut.h ms).trail.Nodup := by
  induction ms using List.reverseRecOn with
  | nil => exact List.nodup_singleton m
  | append_singleton ms mv ih =>
    obtain ⟨hfront, hmv⟩ := follows_concat.mp hms
    rw [follow_concat]
    cases mv with
    | turn =>
      rcases tracks_of_follows hcons hfront with ⟨before, hb, _⟩ | ⟨w, hb, _⟩
      · exact nodup_statesSincePaid hb.toPlan_reverse hb.nodup
      · rcases mem_moves.mp hmv with ⟨_, _, hd⟩ | ⟨_, _, hstep, _⟩
        · rw [hb.direction] at hd
          cases hd
        · cases hstep
    | step k p => exact nodup_trail_make hmv (ih hfront)

/-! ## Parts -/

/-- A branch that has grown along a path holds a part of a plan, if the path costs what has been
spent, and the trail has the states that the path visits at the level of the end. -/
theorem GrownAlong.isPart {es : List (Step view.task.transitions)} (hes : b.GrownAlong view cut es)
    (hm : b.meeting ∈ cut.states) (hpart : b.part = pathPlan (b.first view.task) es)
    (hcost : pathCost es = b.spent cut) (hnodup : b.trail.Nodup)
    (htrail : ∀ p, p ∈ b.trail ↔
      (p, b.level cut) ∈ visits (b.first view.task) b.startCost es) : b.IsPart view cut where
  meeting := hm
  path := ⟨es, hes, hpart⟩
  cost := by
    rw [← (b.perm_part.1.map Action.cost).sum_eq, hpart, pathPlan, ← pathCost_eq_sum, hcost]
  length := by
    rw [← b.perm_part.1.length_eq, ← b.perm_part.2.length_eq, hpart, pathPlan, List.length_map]
    exact length_pathStates _ es
  nodup_trail := hnodup
  mem_trail p := by
    rw [hpart, pathPlan, zip_pathStates]
    exact htrail p

theorem TracksBefore.isPart {before : List (Step view.task.transitions)}
    (hb : b.TracksBefore view cut.g m before) (hm : m ∈ cut.states) (hnodup : b.trail.Nodup) :
    b.IsPart view cut := by
  have hfirst : b.first view.task = b.state := by rw [first, hb.direction]
  have hlevel : b.level cut = b.cost := by rw [level, hb.direction]
  have hstart : b.startCost = b.cost := by rw [startCost, hb.direction]
  have hspent : b.spent cut = cut.g - b.cost := by rw [spent, hb.direction]
  have hcost := hb.cost
  obtain rfl := hb.meeting
  refine GrownAlong.isPart (.back hb.direction hb.leads) hm ?_ (by omega) hnodup ?_
  · rw [hfirst, hb.part]
  · rw [hfirst, hlevel, hstart]
    exact hb.trail

theorem TracksAfter.isPart {w : Witness view.task.transitions} (hb : b.TracksAfter view cut w)
    (hm : b.meeting ∈ cut.states) (hnodup : b.trail.Nodup) : b.IsPart view cut := by
  have hfirst : b.first view.task = view.task.initial := by rw [first, hb.direction]
  have hstart : b.startCost = 0 := by rw [startCost, hb.direction]
  have hspent : b.spent cut = cut.g + cut.h - b.cost := by rw [spent, hb.direction]
  have hcost := pathCost_path hb.cost_before
  have hleft := hb.cost
  have hlevel : b.level cut = cut.g + pathCost w.after := by
    rw [level, hb.direction]
    dsimp only
    omega
  refine GrownAlong.isPart (.on hb.direction hb.leads_before hb.cost_before hb.leads_after) hm ?_ ?_
    hnodup ?_
  · rw [hfirst, hb.part]
    rfl
  · show pathCost w.path = _
    omega
  · rw [hfirst, hlevel, hstart]
    exact hb.trail

/-- Allowed moves from a meeting state lead to parts of plans. -/
theorem isPart_follow (hcons : ∀ r ∈ view.task.transitions.relations, r.Consistent)
    (hm : m ∈ cut.states) {ms : List (Move view.task.transitions)}
    (hms : (ofMeeting cut.g m).Follows view cut.h ms) :
    ((ofMeeting cut.g m).follow cut.h ms).IsPart view cut := by
  have hnodup := nodup_trail_follow hcons hms
  rcases tracks_of_follows hcons hms with ⟨before, hb, _⟩ | ⟨w, hb, hmeet, _⟩
  · exact hb.isPart hm hnodup
  · refine hb.isPart ?_ hnodup
    rwa [hmeet]

/-- A part that has arrived at a goal costs what its cut says. -/
theorem IsPart.cost_toPlan (hb : b.IsPart view cut) (hcut : cut.Valid)
    (hdone : b.completes view = true) : b.toPlan.cost = cut.f := by
  rw [completes, Bool.and_eq_true, beq_iff_eq] at hdone
  obtain ⟨harr, hd⟩ := hdone
  have hzero : b.cost = 0 := (hasArrived_iff.mp harr).1
  have hspent : b.spent cut = cut.g + cut.h := by
    rw [spent, hd, hzero]
    exact Int.sub_zero _
  have hsum : (b.toPlan.actions.map Action.cost).sum = cut.g + cut.h := hb.cost.trans hspent
  rw [hcut.f_eq, ← hsum]
  exact Plan.cost_eq_sum (hsum ▸ hcut.2.2)

/-! ## What branches come to -/

/-- What a branch completes is the plan that it has grown to. -/
theorem completes_of_expand {h : Int} {x : Expansion} {plan : Plan} (hx : b.expand view h = .ok x)
    (hplan : x.completed? = some plan) : b.completes view = true ∧ plan = b.toPlan := by
  have hyields : (b.yields view h).filterMap Except.toOption = _ := filterMap_yields b h
  rw [yields, hx] at hyields
  dsimp only at hyields
  rw [hplan] at hyields
  split at hyields
  · next hdone => exact ⟨hdone, (List.cons.inj hyields).1⟩
  · cases hyields

/-- No branch by itself comes to an error about costs. -/
theorem expand_ne_costMismatch (b : Branch) (h expected actual : Int) :
    b.expand view h ≠ .error (.costMismatch expected actual) := by
  rw [expand]
  cases view.layers? b.direction with
  | none =>
    dsimp only
    split <;> simp
  | some closed =>
    dsimp only
    split <;> simp

end Branch

/-- What comes up below the meeting states of a cut is no fault about costs. -/
theorem Cut.fault?_ne_costMismatch {view : LayerView} {cut : Cut}
    (hcons : ∀ r ∈ view.task.transitions.relations, r.Consistent) (hcut : cut.Valid)
    {item : Except ReconstructionError Plan} (hitem : item ∈ cut.preorder view)
    (expected actual : Int) : Walk.fault? cut item ≠ some (.costMismatch expected actual) := by
  obtain ⟨m, hm, hitem⟩ := List.mem_flatMap.mp hitem
  obtain ⟨ms, hms, hitem⟩ := List.mem_flatMap.mp hitem
  have hpart := Branch.isPart_follow hcons (StateSet.mem_toList.mp hm) (Branch.mem_courses.mp hms)
  rw [Branch.yields] at hitem
  split at hitem
  · next e he =>
    obtain rfl := List.mem_singleton.mp hitem
    rintro heq
    obtain rfl := Option.some.inj heq
    exact Branch.expand_ne_costMismatch _ _ _ _ he
  · next x hx =>
    obtain ⟨plan, hplan, rfl⟩ := List.mem_map.mp hitem
    obtain ⟨hdone, rfl⟩ := Branch.completes_of_expand hx (Option.mem_toList.mp hplan)
    rw [Walk.fault?, if_pos (hpart.cost_toPlan hcut hdone)]
    exact (Option.some_ne_none _).symm

/-! ## Reconstructions -/

namespace Walk

variable {σ : Type} [PlanStore σ] {view : LayerView} {cut : Cut} {budget : Nat}
  {store : σ} {b : Branch}

/-- The branch is on the stack after some turns of a reconstruction, or goes there with the turn
after them, be it the last. -/
def Stacks (view : LayerView) (cut : Cut) (budget : Nat) (store : σ) (b : Branch) : Prop :=
  ∃ turns walk, advances view cut budget turns (start cut store) = .inr walk ∧
    (b ∈ walk.stack ∨ ∃ top rest, walk.stack = top :: rest ∧ b ∈ top.children view cut.h)

/-- What is put on the stack has come from a meeting state by allowed moves. -/
theorem Stacks.exists_follows (hb : Stacks view cut budget store b) :
    ∃ m ∈ cut.states, ∃ ms : List (Move view.task.transitions),
      (Branch.ofMeeting cut.g m).Follows view cut.h ms ∧
        b = (Branch.ofMeeting cut.g m).follow cut.h ms := by
  obtain ⟨turns, walk, hwalk, hb | ⟨top, rest, hstack, hb⟩⟩ := hb
  · exact exists_follows_of_advances hwalk b hb
  · obtain ⟨m, hm, ms, hms, rfl⟩ :=
      exists_follows_of_advances hwalk top (hstack ▸ List.mem_cons_self)
    exact ⟨m, hm, Branch.exists_follow_of_mem_children hms hb⟩

end Walk

/-- Every branch that a reconstruction puts on its stack holds a part of a plan.  So a plan that is
completed costs what the cut says, exactly, and no reconstruction is given up for the cost of a
plan. -/
theorem reconstruct_stacks_parts {σ : Type} [PlanStore σ] (view : LayerView) (cut : Cut)
    (hcons : ∀ r ∈ view.task.transitions.relations, r.Consistent)
    (hcut : cut.Valid) (budget : Nat) (store : σ) :
    (∀ b, Walk.Stacks view cut budget store b → b.IsPart view cut ∧
      ∀ x plan, b.expand view cut.h = .ok x → x.completed? = some plan →
        plan.cost = cut.f ∧ plan.cost = cut.g + cut.h) ∧
    ∀ expected actual, (reconstruct view cut budget store).1 ≠
      .error (.costMismatch expected actual) := by
  constructor
  · intro b hb
    obtain ⟨m, hm, ms, hms, rfl⟩ := hb.exists_follows
    have hpart := Branch.isPart_follow hcons hm hms
    refine ⟨hpart, fun x plan hx hplan ↦ ?_⟩
    obtain ⟨hdone, rfl⟩ := Branch.completes_of_expand hx hplan
    have hcost := hpart.cost_toPlan hcut hdone
    exact ⟨hcost, hcost.trans hcut.f_eq⟩
  · intro expected actual herror
    by_cases hbudget : budget = 0
    · rw [reconstruct, if_pos hbudget] at herror
      cases herror
    have hdelivers : Walk.Delivers cut budget .zero store _ _ _ :=
      Walk.delivers_deliver (Nat.pos_of_ne_zero hbudget) (cut.preorder view)
    rw [reconstruct_eq_deliver hbudget] at herror
    rcases hdelivers.answer with ⟨hok, -⟩ | ⟨-, e, item, hgiven, hnext, hfault⟩
    · rw [hok] at herror
      cases herror
    · have hitem := hnext.subset (List.mem_append_right _ (List.mem_singleton_self item))
      obtain rfl : e = .costMismatch expected actual := Except.error.inj (hgiven.symm.trans herror)
      exact Cut.fault?_ne_costMismatch hcons hcut hitem expected actual hfault

/-- On the cycle the way back may take the free step first; then both states of the layer are on the
trail. -/
theorem cycle_stacks_parts :
    (∃ b, Walk.Stacks cycleView ⟨1, 0, .ofList [.single 1, .single 2]⟩ 3
          (ScriptedStore.ofScript 3 [] none) b ∧
        b.trail = [.single 1, .single 2] ∧
        b.IsPart cycleView ⟨1, 0, .ofList [.single 1, .single 2]⟩) ∧
      ∀ expected actual, (reconstruct cycleView ⟨1, 0, .ofList [.single 1, .single 2]⟩ 3
        (ScriptedStore.ofScript 3 [] none)).1 ≠ .error (.costMismatch expected actual) := by
  obtain ⟨hparts, hcost⟩ := reconstruct_stacks_parts cycleView
    ⟨1, 0, .ofList [.single 1, .single 2]⟩ cycle.consistent
    ⟨by decide, by decide, by decide⟩ 3 (ScriptedStore.ofScript 3 [] none)
  have hb : Walk.Stacks cycleView ⟨1, 0, .ofList [.single 1, .single 2]⟩ 3
      (ScriptedStore.ofScript 3 [] none)
      ⟨.forward, 1, .single 2, [.single 1, .single 2], .single 1, [⟨1, "turn", 0, by decide⟩],
        [.single 1, .single 2]⟩ :=
    ⟨0, _, rfl, .inr ⟨.ofMeeting 1 (.single 1), [.ofMeeting 1 (.single 2)], by decide +kernel,
      by decide +kernel⟩⟩
  exact ⟨⟨_, hb, rfl, (hparts _ hb).1⟩, hcost⟩

end LayeredPlanning
