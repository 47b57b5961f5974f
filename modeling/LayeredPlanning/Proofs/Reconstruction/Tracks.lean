import LayeredPlanning.Proofs.Reconstruction.Courses
import LayeredPlanning.Proofs.Reconstruction.Witness
import Mathlib.Data.List.Induction

/-!
# Branches on the track of a witness

A branch of a reconstruction tracks a part of a witness.  First it tracks what comes before the
meeting state, from the back (`TracksBefore`); when it has turned round it tracks what comes after
(`TracksAfter`).  The invariant that carries the induction is that the trail of the branch is the
set of states that the path visits at the cost of its open end; in the layer of the meeting state
this takes in both halves.

Every move keeps a branch on such a track, and a branch on the track of a witness has the move that
the witness takes next.
-/

namespace LayeredPlanning

namespace Branch

variable {table : TransitionTable}

/-! ## Order of execution -/

/-- What a branch holds of a plan, in order of execution: on the way back its lists are read
backwards. -/
def part (b : Branch) : Plan :=
  match b.direction with
  | .forward => ⟨b.actions.reverse, b.states.reverse⟩
  | .backward => ⟨b.actions, b.states⟩

theorem part_of_forward {b : Branch} (hd : b.direction = .forward) : b.part = b.reverse.toPlan := by
  rw [part, hd]
  rfl

theorem part_of_backward {b : Branch} (hd : b.direction = .backward) : b.part = b.toPlan := by
  rw [part, hd]
  rfl

/-- Either way the actions and the states are those that the branch has. -/
theorem perm_part (b : Branch) :
    b.part.actions.Perm b.actions ∧ b.part.states.Perm b.states := by
  cases hd : b.direction with
  | forward =>
    rw [part_of_forward hd]
    exact ⟨List.reverse_perm b.actions, List.reverse_perm b.states⟩
  | backward =>
    rw [part_of_backward hd]
    exact ⟨List.Perm.refl b.actions, List.Perm.refl b.states⟩

/-! ## The states since the last paid action -/

/-- The states of a path since its last paid step are those visited at the cost at which it ends, in
order. -/
theorem drop_pathStates (s : State) (c : Int) (es : List (Step table)) :
    (pathStates s es).drop
        (es.length - ((es.map Step.action).reverse.takeWhile (·.isZeroCost)).length) =
      ((visits s c es).filter fun v ↦ decide (v.2 = c + pathCost es)).map Prod.fst := by
  -- Along the path from its end: a free step leaves the states that count, a paid one drops them.
  induction es using List.reverseRecOn with
  | nil => simp [pathStates, visits, arrivals]
  | append_singleton es e ih =>
    have hfree : ((es.map Step.action).reverse.takeWhile (·.isZeroCost)).length ≤ es.length := by
      apply (List.takeWhile_prefix _).length_le.trans
      simp
    have hvisits : (visits s c (es ++ [e])).filter
        (fun v ↦ decide (v.2 = c + pathCost (es ++ [e]))) =
          (visits s c es).filter (fun v ↦ decide (v.2 = c + pathCost es + e.cost)) ++
            [(e.target, c + pathCost es + e.cost)] := by
      rw [visits_concat, pathCost_concat, ← Int.add_assoc, List.filter_append]
      simp
    rw [pathStates_concat, hvisits, List.map_append, List.map_singleton, List.map_append,
      List.map_singleton, List.reverse_append, List.reverse_singleton, List.singleton_append,
      List.length_append, List.length_singleton]
    by_cases hzero : e.cost = 0
    · rw [List.takeWhile_cons_of_pos (Action.isZeroCost_iff.mpr hzero), List.length_cons, hzero,
        Int.add_zero, Nat.add_sub_add_right, List.drop_append_of_le_length, ih]
      rw [length_pathStates]
      omega
    · have hpos := e.cost_nonneg
      have hnone : (visits s c es).filter
          (fun v ↦ decide (v.2 = c + pathCost es + e.cost)) = [] := by
        refine List.filter_eq_nil_iff.mpr fun v hv ↦ ?_
        have hhigh := (cost_of_mem_visits hv).2
        rw [decide_eq_true_eq]
        omega
      have hlength : (pathStates s es).length = es.length + 1 := length_pathStates s es
      rw [List.takeWhile_cons_of_neg fun h ↦ hzero (Action.isZeroCost_iff.mp h), List.length_nil,
        Nat.sub_zero, hnone, List.drop_left' hlength]
      rfl

/-- In a branch that holds the plan of a path, the states since the last paid action are those
visited at the cost at which the path ends, in order. -/
theorem statesSincePaid_eq {b : Branch} {s : State} {es : List (Step table)}
    (hb : b.toPlan = pathPlan s es) (c : Int) :
    b.statesSincePaid =
      ((visits s c es).filter fun v ↦ decide (v.2 = c + pathCost es)).map Prod.fst := by
  have hactions : b.actions = es.map Step.action := congrArg Plan.actions hb
  have hstates : b.states = pathStates s es := congrArg Plan.states hb
  rw [statesSincePaid, hactions, hstates, List.length_map]
  exact drop_pathStates s c es

theorem mem_statesSincePaid {b : Branch} {s p : State} {c : Int} {es : List (Step table)}
    (hb : b.toPlan = pathPlan s es) :
    p ∈ b.statesSincePaid ↔ (p, c + pathCost es) ∈ visits s c es := by
  rw [statesSincePaid_eq hb c]
  simp

/-- A path that comes to no state of a layer twice leaves no repetition in the layer of its end. -/
theorem nodup_statesSincePaid {b : Branch} {s : State} {c : Int} {es : List (Step table)}
    (hb : b.toPlan = pathPlan s es) (hnodup : (visits s c es).Nodup) :
    b.statesSincePaid.Nodup := by
  rw [statesSincePaid_eq hb c]
  refine (hnodup.filter _).map_on fun v hv w hw heq ↦ ?_
  have hv := of_decide_eq_true (List.mem_filter.mp hv).2
  have hw := of_decide_eq_true (List.mem_filter.mp hw).2
  exact Prod.ext heq (hv.trans hw.symm)

/-! ## Single moves -/

theorem mem_neighbours_of_forward {r : Transition} (hr : r.Consistent) {b : Branch} {p : State}
    (hd : b.direction = .forward) : p ∈ b.neighbours r ↔ r.HasEdge p b.state := by
  rw [neighbours, hd]
  show p ∈ r.preimage (.singleton b.state) ↔ _
  simp [hr.mem_preimage]

theorem mem_neighbours_of_backward {r : Transition} {b : Branch} {p : State}
    (hd : b.direction = .backward) : p ∈ b.neighbours r ↔ r.HasEdge b.state p := by
  rw [neighbours, hd]
  show p ∈ r.image (.singleton b.state) ↔ _
  simp

/-- A step moves the end, pays for the action, and starts a new trail if that costs something. -/
theorem make_step (h : Int) (b : Branch) (k : Fin table.relations.length) (p : State) :
    b.make h (.step k p) =
      { b.extend (table.relationAt k).action p with
        cost := b.cost - (table.relationAt k).action.cost
        trail := if (table.relationAt k).action.cost = 0 then b.trail ++ [p] else [p] } := by
  rw [make]
  by_cases hfree : (table.relationAt k).action.cost = 0
  · rw [if_pos (Action.isZeroCost_iff.mpr hfree), if_pos hfree, freeStep, hfree, Int.sub_zero]
    rfl
  · rw [if_neg fun hz ↦ hfree (Action.isZeroCost_iff.mp hz), if_neg hfree, paidStep]

theorem direction_make_step (h : Int) (b : Branch) (k : Fin table.relations.length) (p : State) :
    (b.make h (.step k p)).direction = b.direction := by
  rw [make_step]
  rfl

theorem meeting_make_step (h : Int) (b : Branch) (k : Fin table.relations.length) (p : State) :
    (b.make h (.step k p)).meeting = b.meeting := by
  rw [make_step]
  rfl

theorem state_make_step (h : Int) (b : Branch) (k : Fin table.relations.length) (p : State) :
    (b.make h (.step k p)).state = p := by
  rw [make_step]
  rfl

/-- A step on the way back goes in front of the part. -/
theorem part_make_of_forward {b : Branch} (hd : b.direction = .forward) (h : Int)
    (k : Fin table.relations.length) (p : State) :
    (b.make h (.step k p)).part =
      ⟨(table.relationAt k).action :: b.part.actions, p :: b.part.states⟩ := by
  have hmake := (direction_make_step h b k p).trans hd
  rw [part_of_forward hmake, part_of_forward hd, make_step]
  exact Plan.ext List.reverse_concat List.reverse_concat

/-- A step on the way on goes behind the part. -/
theorem part_make_of_backward {b : Branch} (hd : b.direction = .backward) (h : Int)
    (k : Fin table.relations.length) (p : State) :
    (b.make h (.step k p)).part =
      ⟨b.part.actions ++ [(table.relationAt k).action], b.part.states ++ [p]⟩ := by
  have hmake := (direction_make_step h b k p).trans hd
  rw [part_of_backward hmake, part_of_backward hd, make_step]
  rfl

/-- The turn keeps the part. -/
theorem part_turn {b : Branch} (hd : b.direction = .forward) (h : Int) :
    (b.turn h).part = b.part :=
  (part_of_backward rfl).trans (part_of_forward hd).symm

/-! ## Before the meeting state -/

/-- A branch on its way back to the initial state has grown along `before`, which leads from its
state through the forward layers to the meeting state. -/
structure TracksBefore (view : LayerView) (g : Int) (m : State) (b : Branch)
    (before : List (Step view.task.transitions)) : Prop where
  direction : b.direction = .forward
  meeting : b.meeting = m
  cost : b.cost + pathCost before = g
  leads : Leads b.state before m
  part : b.part = pathPlan b.state before
  trail : ∀ p, p ∈ b.trail ↔ (p, b.cost) ∈ visits b.state b.cost before
  nodup : (visits b.state b.cost before).Nodup
  closed : ∀ v ∈ departures b.state b.cost before, v.1 ∈ view.closedAt .forward v.2

variable {view : LayerView} {g h : Int} {m : State} {b : Branch}
  {before : List (Step view.task.transitions)}

theorem tracksBefore_ofMeeting (view : LayerView) (g : Int) (m : State) :
    (ofMeeting g m).TracksBefore view g m [] where
  direction := rfl
  meeting := rfl
  cost := Int.add_zero g
  leads := .nil m
  part := rfl
  trail p := by simp [ofMeeting, visits, arrivals]
  nodup := List.nodup_singleton _
  closed v hv := absurd hv List.not_mem_nil

/-- In order of execution the branch holds the plan of the path behind it. -/
theorem TracksBefore.toPlan_reverse (hb : b.TracksBefore view g m before) :
    b.reverse.toPlan = pathPlan b.state before :=
  (part_of_forward hb.direction).symm.trans hb.part

/-- A free move to a new state of the layer, or a paid move, comes to a state that the path does not
visit at its cost. -/
theorem TracksBefore.notMem_visits (hb : b.TracksBefore view g m before) {p : State} {c : Int}
    (hstep : c = 0 ∧ p ∉ b.trail ∨ 0 < c) :
    (p, b.cost - c) ∉ visits b.state b.cost before := by
  intro hmem
  rcases hstep with ⟨rfl, hnew⟩ | hpos
  · rw [Int.sub_zero] at hmem
    exact hnew ((hb.trail p).mpr hmem)
  · have hlow := (cost_of_mem_visits hmem).1
    dsimp only at hlow
    omega

/-- A step on the way back puts one step in front of the path. -/
theorem TracksBefore.step (hcons : ∀ r ∈ view.task.transitions.relations, r.Consistent)
    (hb : b.TracksBefore view g m before)
    {k : Fin view.task.transitions.relations.length} {p : State}
    (hmv : .step k p ∈ b.moves view) :
    (b.make h (.step k p)).TracksBefore view g m (⟨k, b.state⟩ :: before) := by
  rcases mem_moves.mp hmv with ⟨hturn, _⟩ | ⟨_, _, heq, hp, hclosed, hstep⟩
  · cases hturn
  obtain ⟨rfl, rfl⟩ := Move.step.inj heq
  have hedge :=
    (mem_neighbours_of_forward (hcons _ (TransitionTable.relationAt_mem _ k)) hb.direction).mp hp
  have hcost : (⟨k, b.state⟩ : Step view.task.transitions).cost =
    (view.task.transitions.relationAt k).action.cost := rfl
  have hback : b.cost - (view.task.transitions.relationAt k).action.cost +
    (view.task.transitions.relationAt k).action.cost = b.cost := by omega
  have hvisits : visits p (b.cost - (view.task.transitions.relationAt k).action.cost)
      (⟨k, b.state⟩ :: before) =
        (p, b.cost - (view.task.transitions.relationAt k).action.cost) ::
          visits b.state b.cost before := by
    rw [visits_cons, hcost, hback]
  have hpart := part_make_of_forward hb.direction h k p
  rw [hb.part] at hpart
  rw [make_step] at hpart ⊢
  constructor
  case direction => exact hb.direction
  case meeting => exact hb.meeting
  case cost =>
    have := hb.cost
    rw [pathCost_cons, hcost]
    dsimp only
    omega
  case leads =>
    dsimp only
    rw [state_extend]
    exact .cons hedge hb.leads
  case part => exact hpart
  case trail =>
    intro q
    dsimp only
    rw [state_extend, hvisits]
    rcases hstep with ⟨hfree, _⟩ | ⟨hpos, _⟩
    · rw [if_pos hfree, hfree, Int.sub_zero]
      simp [hb.trail, or_comm]
    · have hnew := hb.notMem_visits (p := q) (.inr hpos)
      rw [if_neg (by omega)]
      simp [hnew]
  case nodup =>
    dsimp only
    rw [state_extend, hvisits]
    exact List.nodup_cons.mpr ⟨hb.notMem_visits (hstep.imp_right And.left), hb.nodup⟩
  case closed =>
    intro v hv
    dsimp only at hv
    rw [state_extend, departures, hcost, hback] at hv
    rcases List.mem_cons.mp hv with rfl | hv
    · rw [hb.direction] at hclosed
      exact hclosed
    · exact hb.closed v hv

/-- The step before the path is a move on the way back, if it keeps the path in the layers and
level-simple. -/
theorem TracksBefore.mem_moves_of_cons
    (hcons : ∀ r ∈ view.task.transitions.relations, r.Consistent)
    (hb : b.TracksBefore view g m before) {e : Step view.task.transitions} {s : State}
    (hedge : e.transition.HasEdge s b.state) (hnonneg : 0 ≤ b.cost - e.cost)
    (hnew : (s, b.cost - e.cost) ∉ visits b.state b.cost before)
    (hclosed : s ∈ view.closedAt .forward (b.cost - e.cost)) :
    .step e.place s ∈ b.moves view := by
  refine mem_moves.mpr (.inr ⟨e.place, s, rfl, ?_, ?_, ?_⟩)
  · exact (mem_neighbours_of_forward (hcons _ e.transition_mem) hb.direction).mpr hedge
  · rw [hb.direction]
    exact hclosed
  · have hpos := e.cost_nonneg
    by_cases hfree : e.cost = 0
    · rw [hfree, Int.sub_zero, ← hb.trail] at hnew
      exact .inl ⟨hfree, hnew⟩
    · refine .inr ⟨?_, ?_⟩
      · show 0 < e.cost
        omega
      · show e.cost ≤ b.cost
        omega

/-! ## After the meeting state -/

/-- A branch on its way to a goal has grown along a path that starts in the initial state, comes
through its meeting state, and leads on through the backward layers to its state. -/
structure TracksAfter (view : LayerView) (cut : Cut) (b : Branch)
    (w : Witness view.task.transitions) : Prop where
  direction : b.direction = .backward
  leads_before : Leads view.task.initial w.before b.meeting
  leads_after : Leads b.meeting w.after b.state
  cost_before : pathCost w.before = cut.g
  cost : b.cost + pathCost w.after = cut.h
  part : b.part = pathPlan view.task.initial w.path
  trail : ∀ p, p ∈ b.trail ↔
    (p, cut.g + pathCost w.after) ∈ visits view.task.initial 0 w.path
  levelSimple : LevelSimple view.task.initial w.path
  closed_before : ∀ v ∈ departures view.task.initial 0 w.before,
    v.1 ∈ view.closedAt .forward v.2
  closed_after : ∀ v ∈ arrivals cut.g w.after,
    v.1 ∈ view.closedAt .backward (cut.g + cut.h - v.2)

variable {cut : Cut} {w : Witness view.task.transitions}

/-- A branch that turns round goes on with the path it has. -/
theorem TracksBefore.turn (hb : b.TracksBefore view cut.g m before)
    (harr : b.hasArrived view.task = true) :
    (b.turn cut.h).TracksAfter view cut ⟨before, []⟩ := by
  rw [hasArrived, hb.direction, Bool.and_eq_true, beq_iff_eq] at harr
  obtain ⟨hzero, hinit⟩ := harr
  replace hinit : b.state = view.task.initial := beq_iff_eq.mp hinit
  have hcost : pathCost before = cut.g := by
    have := hb.cost
    omega
  have hpath : (⟨before, []⟩ : Witness view.task.transitions).path = before :=
    List.append_nil before
  constructor
  case direction => rfl
  case leads_before =>
    have := hb.leads
    rw [hinit, ← hb.meeting] at this
    exact this
  case leads_after => exact .nil _
  case cost_before => exact hcost
  case cost => exact Int.add_zero cut.h
  case part => rw [part_turn hb.direction, hb.part, hinit, hpath]
  case trail =>
    intro p
    rw [hpath, pathCost_nil, Int.add_zero, ← hcost, ← Int.zero_add (pathCost before)]
    exact mem_statesSincePaid (hinit ▸ hb.toPlan_reverse)
  case levelSimple =>
    rw [hpath]
    have := hb.nodup
    rwa [hinit, nodup_visits_iff] at this
  case closed_before =>
    have := hb.closed
    rwa [hinit, hzero] at this
  case closed_after => exact fun v hv ↦ absurd hv List.not_mem_nil

theorem pathCost_path (hw : pathCost w.before = g) : pathCost w.path = g + pathCost w.after := by
  rw [Witness.path, pathCost_append, hw]

theorem TracksAfter.notMem_visits (hb : b.TracksAfter view cut w) {p : State} {c : Int}
    (hstep : c = 0 ∧ p ∉ b.trail ∨ 0 < c) :
    (p, cut.g + pathCost w.after + c) ∉ visits view.task.initial 0 w.path := by
  intro hmem
  rcases hstep with ⟨rfl, hnew⟩ | hpos
  · rw [Int.add_zero] at hmem
    exact hnew ((hb.trail p).mpr hmem)
  · have hhigh := (cost_of_mem_visits hmem).2
    rw [Int.zero_add, pathCost_path hb.cost_before] at hhigh
    dsimp only at hhigh
    omega

/-- A step on the way on puts one step behind the path. -/
theorem TracksAfter.step (hb : b.TracksAfter view cut w) {e : Step view.task.transitions}
    (hmv : .step e.place e.target ∈ b.moves view) :
    (b.make cut.h (.step e.place e.target)).TracksAfter view cut (w.concat e) := by
  rcases mem_moves.mp hmv with ⟨hturn, _⟩ | ⟨_, _, heq, hp, hclosed, hstep⟩
  · cases hturn
  obtain ⟨rfl, rfl⟩ := Move.step.inj heq
  have hedge : e.transition.HasEdge b.state e.target :=
    (mem_neighbours_of_backward hb.direction).mp hp
  have hvisits : visits view.task.initial 0 (w.path ++ [e]) =
      visits view.task.initial 0 w.path ++ [(e.target, cut.g + pathCost w.after + e.cost)] := by
    rw [visits_concat, Int.zero_add, pathCost_path hb.cost_before]
  have hcost : pathCost (w.concat e).after = pathCost w.after + e.cost := pathCost_concat w.after e
  have hpart := part_make_of_backward hb.direction cut.h e.place e.target
  rw [make_step] at hpart ⊢
  constructor
  case direction => exact hb.direction
  case leads_before =>
    dsimp only
    rw [meeting_extend]
    exact hb.leads_before
  case leads_after =>
    dsimp only
    rw [meeting_extend, state_extend]
    exact hb.leads_after.append (.cons hedge (.nil _))
  case cost_before => exact hb.cost_before
  case cost =>
    have := hb.cost
    show b.cost - e.cost + pathCost (w.concat e).after = cut.h
    omega
  case part =>
    rw [Witness.path_concat, pathPlan_concat, ← hb.part]
    exact hpart
  case trail =>
    intro q
    dsimp only
    rw [Witness.path_concat, hvisits, hcost, ← Int.add_assoc, List.mem_append, List.mem_singleton]
    rcases hstep with ⟨hfree, _⟩ | ⟨hpos, _⟩
    · rw [if_pos hfree, show e.cost = 0 from hfree, Int.add_zero, ← hb.trail]
      simp [or_comm]
    · have hnew : (q, cut.g + pathCost w.after + e.cost) ∉ visits view.task.initial 0 w.path :=
        hb.notMem_visits (.inr hpos)
      rw [if_neg (by omega)]
      simp [hnew]
  case levelSimple =>
    rw [Witness.path_concat, LevelSimple, hvisits]
    refine List.nodup_append.mpr ⟨hb.levelSimple, List.nodup_singleton _, ?_⟩
    rintro v hv _ hlast rfl
    obtain rfl := List.mem_singleton.mp hlast
    exact hb.notMem_visits (hstep.imp_right And.left) hv
  case closed_before => exact hb.closed_before
  case closed_after =>
    intro v hv
    rw [Witness.concat, arrivals_append] at hv
    rcases List.mem_append.mp hv with hv | hv
    · exact hb.closed_after v hv
    · obtain rfl := List.mem_singleton.mp hv
      have hrest : cut.g + cut.h - (cut.g + pathCost w.after + e.cost) = b.cost - e.cost := by
        have := hb.cost
        omega
      rw [hb.direction] at hclosed
      dsimp only
      rw [hrest]
      exact hclosed

/-- The step behind the path is a move on the way on, if it keeps the path in the layers and
level-simple. -/
theorem TracksAfter.mem_moves_of_concat (hb : b.TracksAfter view cut w)
    {e : Step view.task.transitions} (hedge : e.transition.HasEdge b.state e.target)
    (hnonneg : 0 ≤ b.cost - e.cost)
    (hnew : (e.target, cut.g + pathCost w.after + e.cost) ∉ visits view.task.initial 0 w.path)
    (hclosed : e.target ∈ view.closedAt .backward (b.cost - e.cost)) :
    .step e.place e.target ∈ b.moves view := by
  refine mem_moves.mpr (.inr ⟨e.place, e.target, rfl, ?_, ?_, ?_⟩)
  · exact (mem_neighbours_of_backward hb.direction).mpr hedge
  · rw [hb.direction]
    exact hclosed
  · have hpos := e.cost_nonneg
    by_cases hfree : e.cost = 0
    · rw [hfree, Int.add_zero, ← hb.trail] at hnew
      exact .inl ⟨hfree, hnew⟩
    · refine .inr ⟨?_, ?_⟩
      · show 0 < e.cost
        omega
      · show e.cost ≤ b.cost
        omega

end Branch

end LayeredPlanning
