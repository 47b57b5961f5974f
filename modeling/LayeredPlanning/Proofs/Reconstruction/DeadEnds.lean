import LayeredPlanning.Proofs.Plans.Genuine
import LayeredPlanning.Proofs.Reconstruction.Preorder
import LayeredPlanning.Proofs.Reconstruction.Registry
import LayeredPlanning.Proofs.Reconstruction.Tracks
import Mathlib.Logic.Relation

/-!
# Dead ends

Where every action costs something, a state of a layer is explained by a step to a state that is
closed at what the step leaves of the cost (`LayerView.Descends`).  In layers that fit together such
steps lead on from everywhere to the root.  In others they lead to dead ends: states without a step
that are not the root at cost zero (`LayerView.DeadEnd`).

A reconstruction looks at one branch at a time.  A tour of a branch that comes across no error has
toured what lies below all of its moves, so the steps from its end lead on to the root, whichever
are taken (`Branch.Tours.exists_arrives`, `Cut.Passes.follow`); and it only comes across an error at
a dead end.  What a branch has grown to meanwhile costs what its cut says (`Branch.Grows`).

So a dead end is noticed, and no meeting state goes without a plan, unless enough plans are accepted
before: `reconstruct_notices_deadEnds`.
-/

namespace LayeredPlanning

open Relation

namespace LayerView

/-- Every action costs something. -/
def Paid (view : LayerView) : Prop :=
  ∀ r ∈ view.task.transitions.relations, 1 ≤ r.action.cost

/-- A step against the direction of the layers, from a state at a cost to one that is closed at what
the action leaves of the cost.  It never goes below zero. -/
def Descends (view : LayerView) (d : Direction) (v w : State × Int) : Prop :=
  ∃ r ∈ view.task.transitions.relations, w.1 ∈ r.step d.opposite (.singleton v.1) ∧
    r.action.cost ≤ v.2 ∧ w.2 = v.2 - r.action.cost ∧ w.1 ∈ view.closedAt d w.2

/-- The state is the initial state or a goal, with no cost left. -/
def Arrives (view : LayerView) (d : Direction) (v : State × Int) : Prop :=
  v.2 = 0 ∧ match d with
    | .forward => v.1 = view.task.initial
    | .backward => view.task.isGoal v.1 = true

/-- No step goes on from the state, and it has not arrived. -/
def DeadEnd (view : LayerView) (d : Direction) (v : State × Int) : Prop :=
  ¬ view.Arrives d v ∧ ∀ w, ¬ view.Descends d v w

/-- Nothing is reached from a dead end. -/
theorem DeadEnd.not_arrives {view : LayerView} {d : Direction} {v w : State × Int}
    (h : view.DeadEnd d v) (hchain : ReflTransGen (view.Descends d) v w) : ¬ view.Arrives d w := by
  rcases hchain.cases_head with rfl | ⟨next, hstep, -⟩
  · exact h.1
  · exact absurd hstep (h.2 next)

end LayerView

namespace Cut

/-- The cost at which the layers of a direction meet the cut. -/
def costIn (cut : Cut) : Direction → Int
  | .forward => cut.g
  | .backward => cut.h

/-- Steps lead from a meeting state to `v`. -/
def DescendsTo (cut : Cut) (view : LayerView) (d : Direction) (v : State × Int) : Prop :=
  ∃ m ∈ cut.states, ReflTransGen (view.Descends d) (m, cut.costIn d) v

end Cut

namespace Branch

variable {view : LayerView} {cut : Cut} {b : Branch} {h : Int}
  {items : List (Except ReconstructionError Plan)}

/-! ## Steps of branches -/

/-- The end of a branch with its cost. -/
def tip (b : Branch) : State × Int := (b.state, b.cost)

theorem hasArrived_iff : b.hasArrived view.task = true ↔ view.Arrives b.direction b.tip := by
  unfold LayerView.Arrives
  rw [hasArrived, Bool.and_eq_true, beq_iff_eq]
  refine and_congr_right fun _ ↦ ?_
  cases b.direction with
  | forward => exact beq_iff_eq
  | backward => exact Iff.rfl

/-- Where no action is free, the steps from the end of a branch are what explains it. -/
theorem descends_iff (hpaid : view.Paid) {v : State × Int} :
    view.Descends b.direction b.tip v ↔ ∃ k, b.Explains view k v.1 ∧
      v.2 = b.cost - (view.task.transitions.relationAt k).action.cost := by
  constructor
  · rintro ⟨r, hr, hp, hle, hc, hclosed⟩
    obtain ⟨k, rfl⟩ := List.mem_iff_get.mp hr
    exact ⟨k, ⟨hp, hc ▸ hclosed, fun _ ↦ hle⟩, hc⟩
  · rintro ⟨k, ⟨hp, hclosed, hle⟩, hc⟩
    have hr := view.task.transitions.relationAt_mem k
    exact ⟨_, hr, hp, hle (hpaid _ hr), hc, hc ▸ hclosed⟩

/-- Where no action is free, every explanation is followed. -/
theorem Explains.allows (hpaid : view.Paid) {k : Fin view.task.transitions.relations.length}
    {p : State} (hexplains : b.Explains view k p) : b.Allows view (.step k p) := by
  refine .step hexplains fun hfree ↦ ?_
  have hcost := hpaid _ (view.task.transitions.relationAt_mem k)
  omega

theorem tip_make_step (n : Int) (b : Branch) (k : Fin view.task.transitions.relations.length)
    (p : State) : (b.make n (.step k p)).tip =
      (p, b.cost - (view.task.transitions.relationAt k).action.cost) := by
  rw [make_step]
  rfl

/-! ## What branches grow to -/

/-- The cost accumulated at the start of a branch: on the way back to the initial state it is what
is left of the cost. -/
def startCost (b : Branch) : Int :=
  match b.direction with
  | .forward => b.cost
  | .backward => 0

/-- What a branch has grown to: from its meeting state, which it still visits at the cost `g` of the
cut, steps lead to its end; and its actions cost what is not left. -/
structure Grows (view : LayerView) (cut : Cut) (b : Branch) : Prop where
  meeting : b.meeting ∈ cut.states
  descends : ReflTransGen (view.Descends b.direction) (b.meeting, cut.costIn b.direction) b.tip
  length : b.part.states.length = b.part.actions.length + 1
  visits : (b.meeting, cut.g) ∈
    b.part.states.zip (Plan.runningCosts b.startCost b.part.actions)
  cost : b.startCost + (b.part.actions.map Action.cost).sum =
    match b.direction with
    | .forward => cut.g
    | .backward => cut.g + cut.h - b.cost

namespace Grows

theorem ofMeeting {m : State} (hm : m ∈ cut.states) : (ofMeeting cut.g m).Grows view cut where
  meeting := hm
  descends := .refl
  length := rfl
  visits := List.mem_singleton.mpr rfl
  cost := Int.add_zero cut.g

/-- The turn at the initial state starts from the meeting state again. -/
theorem turn (h : b.Grows view cut) (harr : b.hasArrived view.task = true)
    (hd : b.direction = .forward) : (b.turn cut.h).Grows view cut := by
  have hstart : b.startCost = 0 := by
    rw [startCost, hd]
    exact (hasArrived_iff.mp harr).1
  obtain ⟨hmeeting, -, hlength, hvisits, hcost⟩ := h
  rw [hstart] at hvisits hcost
  rw [hd] at hcost
  rw [← part_turn hd cut.h] at hlength hvisits hcost
  refine ⟨hmeeting, .refl, hlength, hvisits, ?_⟩
  show 0 + _ = cut.g + cut.h - cut.h
  dsimp only at hcost
  omega

/-- A step from the end of a branch puts its action at that end. -/
theorem step (h : b.Grows view cut) {k : Fin view.task.transitions.relations.length} {p : State}
    (hdescends : view.Descends b.direction b.tip
      (p, b.cost - (view.task.transitions.relationAt k).action.cost)) (n : Int) :
    (b.make n (.step k p)).Grows view cut := by
  have hdirection := direction_make_step n b k p
  have hleft : (b.make n (.step k p)).cost =
      b.cost - (view.task.transitions.relationAt k).action.cost := by rw [make_step]
  obtain ⟨hmeeting, hchain, hlength, hvisits, hcost⟩ := h
  have hmeeting' : (b.make n (.step k p)).meeting ∈ cut.states := by rwa [meeting_make_step]
  have hchain' : ReflTransGen (view.Descends (b.make n (.step k p)).direction)
      ((b.make n (.step k p)).meeting, cut.costIn (b.make n (.step k p)).direction)
      (b.make n (.step k p)).tip := by
    rw [hdirection, meeting_make_step, tip_make_step]
    exact hchain.tail hdescends
  cases hd : b.direction with
  | forward =>
    have hpart := part_make_of_forward hd n k p
    have hstart : b.startCost = b.cost := by rw [startCost, hd]
    have hstart' : (b.make n (.step k p)).startCost =
        b.cost - (view.task.transitions.relationAt k).action.cost := by
      rw [startCost, hdirection, hd, ← hleft]
    rw [hstart] at hvisits hcost
    rw [hd] at hcost
    refine ⟨hmeeting', hchain', ?_, ?_, ?_⟩
    · rw [hpart]
      exact congrArg Nat.succ hlength
    · rw [meeting_make_step, hpart, hstart', Plan.runningCosts, Int.sub_add_cancel]
      exact List.mem_cons_of_mem _ hvisits
    · rw [hpart, hstart', hdirection, hd, List.map_cons, List.sum_cons]
      dsimp only at hcost ⊢
      omega
  | backward =>
    have hpart := part_make_of_backward hd n k p
    have hstart : b.startCost = 0 := by rw [startCost, hd]
    have hstart' : (b.make n (.step k p)).startCost = 0 := by rw [startCost, hdirection, hd]
    rw [hstart] at hvisits hcost
    rw [hd] at hcost
    refine ⟨hmeeting', hchain', ?_, ?_, ?_⟩
    · rw [hpart, List.length_append, List.length_append, hlength]
      rfl
    · rw [meeting_make_step, hpart, hstart', Plan.runningCosts_concat,
        List.zip_append (hlength.trans (Plan.length_runningCosts _ _).symm)]
      exact List.mem_append_left _ hvisits
    · rw [hpart, hstart', hdirection, hd, hleft, List.map_append, List.sum_append,
        List.map_singleton, List.sum_singleton]
      dsimp only at hcost ⊢
      omega

/-- A branch that arrives at a goal has grown to a plan of the cost of the cut, which visits the
meeting state at the cost `g`. -/
theorem toPlan (h : b.Grows view cut) (hcut : cut.Valid) (harr : b.hasArrived view.task = true)
    (hd : b.direction = .backward) :
    b.toPlan.cost = cut.f ∧ (b.meeting, cut.g) ∈ b.toPlan.visits := by
  have hzero : b.cost = 0 := (hasArrived_iff.mp harr).1
  have hstart : b.startCost = 0 := by rw [startCost, hd]
  obtain ⟨-, -, -, hvisits, hcost⟩ := h
  rw [part_of_backward hd, hstart] at hvisits hcost
  rw [hd] at hcost
  refine ⟨?_, hvisits⟩
  have hsum : (b.toPlan.actions.map Action.cost).sum = cut.g + cut.h := by
    dsimp only at hcost
    omega
  rw [hcut.f_eq, ← hsum]
  exact Plan.cost_eq_sum (hsum ▸ hcut.2.2)

end Grows

/-! ## Tours -/

/-- A tour without an error is one of a branch that has arrived or is explained; it has the plan of
the branch, and has toured what lies below its moves. -/
theorem Tours.visit_of_clean (htours : b.Tours view h items) (hclean : ∀ e, .error e ∉ items) :
    (b.hasArrived view.task = true ∨ ∃ k p, b.Explains view k p) ∧
      b.completion view ⊆ items ∧
        ∀ mv, b.Allows view mv →
          ∃ part, (b.make h mv).Tours view h part ∧ part ⊆ items := by
  cases htours with
  | missing => exact absurd List.mem_cons_self (hclean _)
  | unjustified => exact absurd List.mem_cons_self (hclean _)
  | @visit _ moves below hvisit _ hmoves hbelow =>
    refine ⟨hvisit, List.subset_append_left _ _, fun mv hmv ↦ ?_⟩
    have hmem := (hmoves mv).mpr hmv
    refine ⟨below mv, hbelow mv hmem, fun item hitem ↦ ?_⟩
    exact List.mem_append_right _ (List.mem_flatMap.mpr ⟨mv, hmem, hitem⟩)

/-- Where a tour comes across no error, steps from the end of its branch lead to the root. -/
theorem Tours.exists_arrives (hpaid : view.Paid) (htours : b.Tours view h items)
    (hclean : ∀ e, .error e ∉ items) :
    ∃ w, ReflTransGen (view.Descends b.direction) b.tip w ∧ view.Arrives b.direction w := by
  induction htours with
  | missing => exact absurd List.mem_cons_self (hclean _)
  | unjustified => exact absurd List.mem_cons_self (hclean _)
  | @visit b moves below hvisit _ hmoves _ ih =>
    rcases hvisit with harr | ⟨k, p, hexplains⟩
    · exact ⟨b.tip, .refl, hasArrived_iff.mp harr⟩
    · have hmem := (hmoves _).mpr (hexplains.allows hpaid)
      obtain ⟨w, hchain, harrives⟩ := ih _ hmem fun e he ↦
        hclean e (List.mem_append_right _ (List.mem_flatMap.mpr ⟨_, hmem, he⟩))
      rw [direction_make_step] at hchain harrives
      rw [tip_make_step] at hchain
      exact ⟨w, .head ((descends_iff hpaid).mpr ⟨k, hexplains, rfl⟩) hchain, harrives⟩

end Branch

/-! ## Cuts -/

/-- What comes up at a cut: a plan that costs what the cut says, or an error at a dead end. -/
inductive Cut.ComesTo (view : LayerView) (cut : Cut) :
    Except ReconstructionError Plan → Prop where
  | plan {plan : Plan} : plan.cost = cut.f → ComesTo view cut (.ok plan)
  | deadEnd {d : Direction} {v : State × Int} : cut.DescendsTo view d v → view.DeadEnd d v →
      ComesTo view cut (.error (.unjustifiedState d v.2 v.1.text))

section Cuts

variable {view : LayerView} {cut : Cut} {items : List (Except ReconstructionError Plan)}

/-- A tour only comes across plans that cost what the cut says, and errors at dead ends. -/
theorem Branch.Tours.comesTo {b : Branch} (hpaid : view.Paid)
    (hlayers : ∀ d, (view.layers? d).isSome = true) (hcut : cut.Valid)
    (htours : b.Tours view cut.h items) (hgrows : b.Grows view cut) :
    ∀ item ∈ items, cut.ComesTo view item := by
  induction htours with
  | @missing b _ hnone =>
    have hsome := hlayers b.direction
    rw [hnone] at hsome
    cases hsome
  | @unjustified b _ harr _ hnone =>
    intro item hitem
    obtain rfl := List.mem_singleton.mp hitem
    refine .deadEnd ⟨b.meeting, hgrows.meeting, hgrows.descends⟩ ⟨?_, fun w hw ↦ ?_⟩
    · rw [← hasArrived_iff, harr]
      exact Bool.false_ne_true
    · obtain ⟨k, hexplains, -⟩ := (descends_iff hpaid).mp hw
      exact hnone k w.1 hexplains
  | @visit b moves below _ _ hmoves _ ih =>
    intro item hitem
    rcases List.mem_append.mp hitem with hplan | hbelow
    · rw [completion] at hplan
      split at hplan
      · next hdone =>
        obtain rfl := List.mem_singleton.mp hplan
        obtain ⟨harr, hd⟩ := Bool.and_eq_true_iff.mp hdone
        exact .plan (hgrows.toPlan hcut harr (beq_iff_eq.mp hd)).1
      · exact absurd hplan List.not_mem_nil
    · obtain ⟨mv, hmv, hitem⟩ := List.mem_flatMap.mp hbelow
      refine ih mv hmv ?_ item hitem
      cases (hmoves mv).mp hmv with
      | turn harr hd => exact hgrows.turn harr hd
      | step hexplains =>
        exact hgrows.step ((descends_iff hpaid).mpr ⟨_, hexplains, rfl⟩) cut.h

namespace Cut

theorem comesTo_of_mem_preorder (hpaid : view.Paid)
    (hlayers : ∀ d, (view.layers? d).isSome = true) (hcut : cut.Valid) :
    ∀ item ∈ cut.preorder view, cut.ComesTo view item := by
  intro item hitem
  obtain ⟨m, hm, hitem⟩ := List.mem_flatMap.mp hitem
  exact (Branch.tours_preorder _).comesTo hpaid hlayers hcut
    (.ofMeeting (StateSet.mem_toList.mp hm)) item hitem

/-- A branch from the meeting state `m` has grown to `v`, and what a tour of it comes across comes
up at the cut. -/
def Passes (view : LayerView) (cut : Cut) (d : Direction) (m : State) (v : State × Int) : Prop :=
  ∃ (b : Branch) (items : List (Except ReconstructionError Plan)), b.Tours view cut.h items ∧
    items ⊆ cut.preorder view ∧ b.Grows view cut ∧ b.direction = d ∧
    b.meeting = m ∧ b.tip = v

theorem passes_of_mem {m : State} (hm : m ∈ cut.states) :
    cut.Passes view .forward m (m, cut.g) :=
  ⟨.ofMeeting cut.g m, _, Branch.tours_preorder _,
    fun _ hitem ↦ List.mem_flatMap.mpr ⟨m, StateSet.mem_toList.mpr hm, hitem⟩,
    .ofMeeting hm, rfl, rfl, rfl⟩

namespace Passes

variable {d : Direction} {m : State} {v w : State × Int}

theorem exists_arrives (hpaid : view.Paid) (hclean : ∀ e, .error e ∉ cut.preorder view)
    (h : cut.Passes view d m v) :
    ∃ w, ReflTransGen (view.Descends d) v w ∧ view.Arrives d w := by
  obtain ⟨b, items, hb, hitems, -, rfl, -, rfl⟩ := h
  exact hb.exists_arrives hpaid fun e he ↦ hclean e (hitems he)

/-- Without an error, steps are followed from wherever the branches come. -/
theorem follow (hpaid : view.Paid) (hclean : ∀ e, .error e ∉ cut.preorder view)
    (h : cut.Passes view d m v) (hchain : ReflTransGen (view.Descends d) v w) :
    cut.Passes view d m w := by
  induction hchain with
  | refl => exact h
  | tail _ hstep ih =>
    obtain ⟨b, items, hb, hitems, hgrows, rfl, hm, rfl⟩ := ih
    obtain ⟨k, hexplains, hcost⟩ := (Branch.descends_iff hpaid).mp hstep
    obtain ⟨-, -, hall⟩ := hb.visit_of_clean fun e he ↦ hclean e (hitems he)
    obtain ⟨below, hbelow, hsub⟩ := hall _ (hexplains.allows hpaid)
    refine ⟨_, below, hbelow, List.Subset.trans hsub hitems, hgrows.step ?_ cut.h,
      Branch.direction_make_step _ _ _ _, (Branch.meeting_make_step _ _ _ _).trans hm, ?_⟩
    · rw [← hcost]
      exact hstep
    · rw [Branch.tip_make_step, ← hcost]

/-- Without an error, a branch on its way to the initial state gets there, and then starts at the
meeting state again. -/
theorem turn (hpaid : view.Paid) (hclean : ∀ e, .error e ∉ cut.preorder view)
    (h : cut.Passes view .forward m v) : cut.Passes view .backward m (m, cut.h) := by
  obtain ⟨w, hchain, harrives⟩ := h.exists_arrives hpaid hclean
  obtain ⟨b, items, hb, hitems, hgrows, hd, rfl, rfl⟩ := h.follow hpaid hclean hchain
  have harr : b.hasArrived view.task = true := Branch.hasArrived_iff.mpr (hd ▸ harrives)
  obtain ⟨-, -, hall⟩ := hb.visit_of_clean fun e he ↦ hclean e (hitems he)
  obtain ⟨below, hbelow, hsub⟩ := hall .turn (.turn harr hd)
  exact ⟨b.turn cut.h, below, hbelow, List.Subset.trans hsub hitems, hgrows.turn harr hd,
    rfl, rfl, rfl⟩

/-- Without an error, a branch on its way to a goal becomes a plan through the meeting state. -/
theorem exists_plan (hpaid : view.Paid) (hcut : cut.Valid)
    (hclean : ∀ e, .error e ∉ cut.preorder view) (h : cut.Passes view .backward m v) :
    ∃ plan, .ok plan ∈ cut.preorder view ∧ (m, cut.g) ∈ plan.visits := by
  obtain ⟨w, hchain, harrives⟩ := h.exists_arrives hpaid hclean
  obtain ⟨b, items, hb, hitems, hgrows, hd, rfl, rfl⟩ := h.follow hpaid hclean hchain
  have harr : b.hasArrived view.task = true := Branch.hasArrived_iff.mpr (hd ▸ harrives)
  obtain ⟨-, hcompletion, -⟩ := hb.visit_of_clean fun e he ↦ hclean e (hitems he)
  rw [Branch.completion, harr, hd] at hcompletion
  exact ⟨b.toPlan, hitems (hcompletion List.mem_cons_self), (hgrows.toPlan hcut harr hd).2⟩

end Passes

/-- Where no error comes up at a cut, steps lead on to the root wherever they have led before. -/
theorem exists_arrives_of_clean (hpaid : view.Paid) (hclean : ∀ e, .error e ∉ cut.preorder view)
    {d : Direction} {v : State × Int} (hv : cut.DescendsTo view d v) :
    ∃ w, ReflTransGen (view.Descends d) v w ∧ view.Arrives d w := by
  obtain ⟨m, hm, hchain⟩ := hv
  have hstart : cut.Passes view d m (m, cut.costIn d) := by
    cases d with
    | forward => exact passes_of_mem hm
    | backward => exact (passes_of_mem hm).turn hpaid hclean
  exact (hstart.follow hpaid hclean hchain).exists_arrives hpaid hclean

/-- Where no error comes up at a cut, each of its meeting states has a plan. -/
theorem exists_plan_of_clean (hpaid : view.Paid) (hcut : cut.Valid)
    (hclean : ∀ e, .error e ∉ cut.preorder view) {m : State} (hm : m ∈ cut.states) :
    ∃ plan, .ok plan ∈ cut.preorder view ∧ (m, cut.g) ∈ plan.visits :=
  ((passes_of_mem hm).turn hpaid hclean).exists_plan hpaid hcut hclean

end Cut

/-- A delivery that has offered all of its items has not come across an error. -/
theorem Walk.clean_of_offered {plans : List Plan} (hall : items = plans.map .ok) :
    ∀ e, .error e ∉ items := by
  rintro e he
  rw [hall] at he
  obtain ⟨plan, -, hplan⟩ := List.mem_map.mp he
  cases hplan

/-- The only fault at a cut is a dead end. -/
theorem Cut.ComesTo.exists_deadEnd {item : Except ReconstructionError Plan}
    {e : ReconstructionError} (hcomes : cut.ComesTo view item)
    (hfault : Walk.fault? cut item = some e) :
    ∃ d v, cut.DescendsTo view d v ∧ view.DeadEnd d v ∧
      e = .unjustifiedState d v.2 v.1.text := by
  cases hcomes with
  | plan hcost =>
    rw [Walk.fault?, if_pos hcost] at hfault
    cases hfault
  | deadEnd hv hdead => exact ⟨_, _, hv, hdead, (Option.some.inj hfault).symm⟩

/-- Where every action costs something, no dead end is passed over.  If a reconstruction accepts
fewer plans than it may and gives no error, then each meeting state is visited, at its cost, by a
plan that has been submitted, and from wherever steps through the layers lead they lead on to the
initial state, or to a goal, at cost zero.  If steps lead to a dead end, then the reconstruction
gives the error of a dead end, unless it has accepted all plans that it may before.  This holds of
any store, whatever it says; a store with a record has recorded what was submitted. -/
theorem reconstruct_notices_deadEnds {σ : Type} [PlanStore σ] (hpaid : view.Paid)
    (hlayers : ∀ d, (view.layers? d).isSome = true) (hcut : cut.Valid)
    (budget : Nat) (store : σ) :
    ∃ plans,
      reconstruct view cut budget (Recorder.ofStore store) =
        ((reconstruct view cut budget store).1,
          ⟨(reconstruct view cut budget store).2, plans⟩) ∧
      (∀ tally, (reconstruct view cut budget store).1 = .ok tally → tally.accepted < budget →
        (∀ m ∈ cut.states, ∃ plan ∈ plans, (m, cut.g) ∈ plan.visits) ∧
        ∀ d v, cut.DescendsTo view d v →
          ∃ w, ReflTransGen (view.Descends d) v w ∧ view.Arrives d w) ∧
      (∀ d v, cut.DescendsTo view d v → view.DeadEnd d v →
        (∃ tally, (reconstruct view cut budget store).1 = .ok tally ∧
          tally.accepted = budget) ∨
        ∃ d' w, cut.DescendsTo view d' w ∧ view.DeadEnd d' w ∧
          (reconstruct view cut budget store).1 = .error (.unjustifiedState d' w.2 w.1.text)) := by
  by_cases hbudget : budget = 0
  · -- Nothing is looked at, as there is nothing to be accepted.
    subst hbudget
    have hnone : ∀ {τ : Type} [PlanStore τ] (store : τ),
        reconstruct view cut 0 store = (.ok .zero, store) := fun store ↦ if_pos rfl
    rw [hnone store]
    exact ⟨[], hnone _, fun tally _ hlt ↦ absurd hlt (Nat.not_lt_zero _),
      fun d v _ _ ↦ .inl ⟨.zero, rfl, rfl⟩⟩
  · have hdeliver : Walk.Delivers cut budget .zero store _ _ _ :=
      Walk.delivers_deliver (Nat.pos_of_ne_zero hbudget) (cut.preorder view)
    rw [reconstruct_eq_deliver hbudget, reconstruct_eq_deliver hbudget]
    refine ⟨Walk.submissions cut budget .zero store (cut.preorder view), ?_, ?_, ?_⟩
    · rw [Recorder.ofStore, Recorder.deliver_recorder, List.nil_append]
    · intro tally hok hlt
      have hall := (Walk.deliver_fst hok).2 hlt
      have hclean := Walk.clean_of_offered hall
      refine ⟨fun m hm ↦ ?_, fun d v hv ↦ Cut.exists_arrives_of_clean hpaid hclean hv⟩
      obtain ⟨plan, hplan, hvisit⟩ := Cut.exists_plan_of_clean hpaid hcut hclean hm
      rw [hall] at hplan
      exact ⟨plan, (List.mem_map_of_injective fun _ _ ↦ Except.ok.inj).mp hplan, hvisit⟩
    · intro d v hv hdead
      rcases hdeliver.answer with ⟨hok, hfull | hall⟩ | ⟨-, e, item, herror, hnext, hfault⟩
      · exact .inl ⟨_, hok, Nat.le_antisymm
          (Walk.accepted_deliver_le (Nat.pos_of_ne_zero hbudget) hok) hfull⟩
      · obtain ⟨w, hchain, harrives⟩ :=
          Cut.exists_arrives_of_clean hpaid (Walk.clean_of_offered hall) hv
        exact absurd harrives (hdead.not_arrives hchain)
      · have hitem := hnext.subset (List.mem_append_right _ (List.mem_singleton_self item))
        obtain ⟨d', w, hw, hdead', rfl⟩ :=
          (Cut.comesTo_of_mem_preorder hpaid hlayers hcut item hitem).exists_deadEnd hfault
        exact .inr ⟨d', w, hw, hdead', herror⟩

end Cuts

/-! ## A forged layer -/

/-- One action leads to the goal, from the initial state and from a state that is never reached. -/
def junction : ExplicitTask :=
  (ExplicitTask.ofGoal "junction" (.single 0) (.single 1)).addEdges
    ⟨0, "go", 1, Int.one_nonneg⟩ [(.single 0, .single 1), (.single 5, .single 1)]

/-- The layers of the junction, if those are the states that are reached at cost zero. -/
def junctionView (reached : StateSet) : LayerView where
  task := junction.toTask
  forward? := some
    (((∅ : ClosedLayers).pushSublayer 0 reached).pushSublayer 1 (.singleton (.single 1)))
  backward? := some ((∅ : ClosedLayers).pushSublayer 0 (.singleton (.single 1)))

theorem junctionView_paid (reached : StateSet) : (junctionView reached).Paid := by
  show ∀ r ∈ junction.toTask.transitions.relations, 1 ≤ r.action.cost
  decide +kernel

theorem junctionView_layers (reached : StateSet) :
    ∀ d, ((junctionView reached).layers? d).isSome = true
  | .forward => rfl
  | .backward => rfl

/-- The state that is never reached has nothing before it. -/
theorem junctionView_deadEnd (reached : StateSet) :
    (junctionView reached).DeadEnd .forward (.single 5, 0) := by
  constructor
  · rintro ⟨-, hinitial⟩
    change State.single 5 = .single 0 at hinitial
    revert hinitial
    decide
  · rintro w ⟨r, hr, hp, -⟩
    have hnone : ∀ r ∈ junction.toTask.transitions.relations,
        (r.step .backward (.singleton (.single 5))).isEmpty = true := by decide +kernel
    exact StateSet.isEmpty_iff.mp (hnone r hr) _ hp

/-- With the layers as they should be, the one plan visits the meeting state.  If they say that both
states are reached at no cost, then there is an error, and it is that of a dead end. -/
theorem junction_notices_deadEnds :
    (∃ store plans,
      reconstruct (junctionView (.singleton (.single 0))) ⟨1, 0, .singleton (.single 1)⟩
          2 (Recorder.ofStore (ScriptedStore.ofScript 2 [] none)) =
        (.ok ⟨1, 0, 0, .ofList [.single 0, .single 1]⟩, ⟨store, plans⟩) ∧
      ∃ plan ∈ plans, (.single 1, 1) ∈ plan.visits) ∧
    ∃ d w, (junctionView (.ofList [.single 0, .single 5])).DeadEnd d w ∧
      (reconstruct (junctionView (.ofList [.single 0, .single 5]))
        ⟨1, 0, .singleton (.single 1)⟩ 2 (ScriptedStore.ofScript 2 [] none)).1 =
          .error (.unjustifiedState d w.2 w.1.text) := by
  have hcut : Cut.Valid ⟨1, 0, .singleton (.single 1)⟩ := ⟨by decide, by decide, by decide⟩
  constructor
  · obtain ⟨plans, hrecorded, hall, -⟩ :=
      reconstruct_notices_deadEnds (junctionView_paid (.singleton (.single 0)))
        (junctionView_layers _) hcut 2 (ScriptedStore.ofScript 2 [] none)
    have hok : (reconstruct (junctionView (.singleton (.single 0)))
        ⟨1, 0, .singleton (.single 1)⟩ 2 (ScriptedStore.ofScript 2 [] none)).1 =
          .ok ⟨1, 0, 0, .ofList [.single 0, .single 1]⟩ := by
      decide +kernel
    rw [hok] at hrecorded
    exact ⟨_, plans, hrecorded,
      (hall _ hok (by decide)).1 (.single 1) (StateSet.mem_singleton.mpr rfl)⟩
  · obtain ⟨plans, -, -, hnotices⟩ :=
      reconstruct_notices_deadEnds (junctionView_paid (.ofList [.single 0, .single 5]))
        (junctionView_layers _) hcut 2 (ScriptedStore.ofScript 2 [] none)
    have hstep : (junctionView (.ofList [.single 0, .single 5])).Descends .forward
        (.single 1, 1) (.single 5, 0) :=
      ⟨_, List.mem_of_getElem? (i := 0) rfl, by decide +kernel, by decide +kernel,
        by decide +kernel, by decide +kernel⟩
    rcases hnotices .forward (.single 5, 0)
        ⟨.single 1, StateSet.mem_singleton.mpr rfl, .single hstep⟩ (junctionView_deadEnd _) with
      ⟨tally, hok, -⟩ | ⟨d, w, -, hdead, herror⟩
    · have hgiven : (reconstruct (junctionView (.ofList [.single 0, .single 5]))
          ⟨1, 0, .singleton (.single 1)⟩ 2 (ScriptedStore.ofScript 2 [] none)).1.toOption =
            none := by
        decide +kernel
      rw [hok] at hgiven
      cases hgiven
    · exact ⟨d, w, hdead, herror⟩

end LayeredPlanning
