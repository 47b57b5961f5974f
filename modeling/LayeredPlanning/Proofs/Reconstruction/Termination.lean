import LayeredPlanning.Proofs.Reconstruction.Exactness

/-!
# Reconstructions end

A walk ends after finitely many turns, whatever the layers are: they may have free cycles, and
states that no relation leads to.  Besides, no branch that a walk comes to has been long in any one
layer.  Both are in `reconstruct_terminates`.

The argument follows a branch along its moves.  `Branch.visitsIn` lists where its end has been in a
layer.  The invariant is `Branch.HasVisited`: the end has never been twice at a state of a layer,
because the trail has all the states of the layer in which it is now, and it has not been in any
layer below.  What it has visited in a layer is closed there, except for the meeting state, so a
layer takes one more visit at most than it has states.

No cost on the way leaves the range of costs in which the costs of the cut are.
-/

namespace LayeredPlanning

namespace Branch

variable {table : TransitionTable} {view : LayerView} {g h : Int} {m : State} {b : Branch}

/-! ## Costs -/

/-- A paid step stays in its direction and goes to a layer that costs less, but not less than
nothing. -/
theorem cost_make_step {k : Fin view.task.transitions.relations.length} {p : State}
    (hmv : .step k p ∈ b.moves view)
    (hpos : 0 < (view.task.transitions.relationAt k).action.cost) :
    (b.make h (.step k p)).direction = b.direction ∧ 0 ≤ (b.make h (.step k p)).cost ∧
      (b.make h (.step k p)).cost < b.cost := by
  rcases mem_moves.mp hmv with ⟨hturn, _⟩ | ⟨_, _, heq, _, _, ⟨hfree, _⟩ | ⟨_, hle⟩⟩
  · cases hturn
  · obtain ⟨rfl, rfl⟩ := Move.step.inj heq
    omega
  · obtain ⟨rfl, rfl⟩ := Move.step.inj heq
    rw [make_step]
    refine ⟨rfl, ?_, ?_⟩ <;> dsimp only <;> omega

/-- What a paid step leaves of a representable cost is representable. -/
theorem inRange_sub_cost {r : Transition} (hr : r ∈ table.paid) (hb : Cost.InRange b.cost)
    (hle : r.action.cost ≤ b.cost) : Cost.InRange (b.cost - r.action.cost) := by
  have hpos := (TransitionTable.mem_paid.mp hr).2
  have hmin : Cost.min ≤ 0 := by decide
  obtain ⟨_, hmax⟩ := hb
  exact ⟨by omega, by omega⟩

theorem inRange_make {mv : Move view.task.transitions} (hmv : mv ∈ b.moves view)
    (hh : Cost.InRange h) (hb : Cost.InRange b.cost) : Cost.InRange (b.make h mv).cost := by
  rcases mem_moves.mp hmv with ⟨rfl, _⟩ |
    ⟨k, p, rfl, _, _, ⟨hfree, _⟩ | ⟨hpos, hle⟩⟩
  · exact hh
  · rw [make_step]
    dsimp only
    rwa [hfree, Int.sub_zero]
  · rw [make_step]
    exact inRange_sub_cost
      (TransitionTable.mem_paid.mpr ⟨TransitionTable.relationAt_mem _ k, hpos⟩) hb hle

theorem inRange_follow {ms : List (Move view.task.transitions)} (hms : b.Follows view h ms)
    (hh : Cost.InRange h) (hb : Cost.InRange b.cost) : Cost.InRange (b.follow h ms).cost := by
  induction ms generalizing b with
  | nil => exact hb
  | cons mv ms ih => exact ih hms.2 (inRange_make hms.1 hh hb)

/-- Moves that a branch follows, it follows up to any point. -/
theorem Follows.of_prefix {front ms : List (Move view.task.transitions)} (hms : b.Follows view h ms)
    (hfront : front <+: ms) : b.Follows view h front := by
  induction front generalizing b ms with
  | nil => trivial
  | cons mv front ih =>
    obtain ⟨back, rfl⟩ := hfront
    exact ⟨hms.1, ih hms.2 (List.prefix_append front back)⟩

/-! ## Visits to a layer -/

/-- The branches that come about along a sequence of moves, the first one included. -/
def stages (h : Int) (b : Branch) : List (Move table) → List Branch
  | [] => [b]
  | mv :: ms => b :: (b.make h mv).stages h ms

/-- Where the end of the branch has been, along a sequence of moves, in the layer of direction `d`
and cost `k`. -/
def visitsIn (h : Int) (b : Branch) (ms : List (Move table)) (d : Direction)
    (k : Int) : List State :=
  ((b.stages h ms).filter fun c ↦ decide (c.direction = d ∧ c.cost = k)).map Branch.state

theorem stages_concat (b : Branch) (ms : List (Move table)) (mv : Move table) :
    b.stages h (ms ++ [mv]) = b.stages h ms ++ [(b.follow h ms).make h mv] := by
  induction ms generalizing b with
  | nil => rfl
  | cons mv' ms ih => rw [List.cons_append, stages, ih, stages, List.cons_append, follow_cons]

/-- `visited`, and besides the state of the end in its layer. -/
def visit (visited : Direction → Int → List State) (b : Branch) (d : Direction) (k : Int) :
    List State :=
  visited d k ++ if b.direction = d ∧ b.cost = k then [b.state] else []

theorem visitsIn_concat (b : Branch) (ms : List (Move table)) (mv : Move table) :
    b.visitsIn h (ms ++ [mv]) = ((b.follow h ms).make h mv).visit (b.visitsIn h ms) := by
  funext d k
  rw [visitsIn, stages_concat, List.filter_append, List.map_append, visit, List.filter_cons,
    List.filter_nil]
  simp only [decide_eq_true_eq]
  split <;> rfl

theorem visit_of_ne {visited : Direction → Int → List State} {d : Direction} {k : Int}
    (hne : ¬ (b.direction = d ∧ b.cost = k)) : b.visit visited d k = visited d k := by
  rw [visit, if_neg hne, List.append_nil]

/-- What holds of a branch that has grown around `m` and has been at the states `visited d k` of
each layer. -/
structure HasVisited (view : LayerView) (m : State) (visited : Direction → Int → List State)
    (b : Branch) : Prop where
  meeting : b.meeting = m
  states : b.direction = .forward →
    b.states.length = b.actions.length + 1 ∧ b.states.head? = some m
  trail : ∀ s ∈ visited b.direction b.cost, s ∈ b.trail
  ahead : ∀ d k, d = b.direction ∧ k < b.cost ∨ b.direction = .forward ∧ d = .backward →
    visited d k = []
  nodup : ∀ d k, (visited d k).Nodup
  closed : ∀ d k, ∀ s ∈ visited d k, s = m ∨ s ∈ view.closedAt d k

namespace HasVisited

variable {visited : Direction → Int → List State}

/-- The next branch `c` keeps the invariant if its end is new to its layer and belongs there, and if
no layer is ahead of `c` that was not ahead of `b`. -/
theorem visit (hb : b.HasVisited view m visited) {c : Branch} (hmeeting : c.meeting = m)
    (hstates : c.direction = .forward →
      c.states.length = c.actions.length + 1 ∧ c.states.head? = some m)
    (hstate : c.state ∈ c.trail) (htrail : ∀ s ∈ visited c.direction c.cost, s ∈ c.trail)
    (hahead : ∀ d k,
      d = c.direction ∧ k < c.cost ∨ c.direction = .forward ∧ d = .backward →
      d = b.direction ∧ k < b.cost ∨ b.direction = .forward ∧ d = .backward)
    (hnew : c.state ∉ visited c.direction c.cost)
    (hclosed : c.state = m ∨ c.state ∈ view.closedAt c.direction c.cost) :
    c.HasVisited view m (c.visit visited) where
  meeting := hmeeting
  states := hstates
  trail s hs := by
    rcases List.mem_append.mp hs with hbefore | hnow
    · exact htrail s hbefore
    · rw [if_pos ⟨rfl, rfl⟩, List.mem_singleton] at hnow
      rwa [hnow]
  ahead d k hdk := by
    rw [visit_of_ne]
    · exact hb.ahead d k (hahead d k hdk)
    · rintro ⟨rfl, rfl⟩
      rcases hdk with ⟨_, hlt⟩ | ⟨hforward, hbackward⟩
      · exact Int.lt_irrefl _ hlt
      · rw [hforward] at hbackward
        cases hbackward
  nodup d k := by
    by_cases hdk : c.direction = d ∧ c.cost = k
    · obtain ⟨rfl, rfl⟩ := hdk
      rw [Branch.visit, if_pos ⟨rfl, rfl⟩]
      refine List.nodup_append.mpr ⟨hb.nodup _ _, List.nodup_singleton _, ?_⟩
      rintro s hs _ hlast rfl
      rw [List.mem_singleton.mp hlast] at hs
      exact hnew hs
    · rw [visit_of_ne hdk]
      exact hb.nodup d k
  closed d k s hs := by
    rcases List.mem_append.mp hs with hbefore | hnow
    · exact hb.closed d k s hbefore
    · split at hnow
      · next hdk =>
        obtain ⟨rfl, rfl⟩ := hdk
        obtain rfl := List.mem_singleton.mp hnow
        exact hclosed
      · exact absurd hnow List.not_mem_nil

/-- In order of execution the meeting state is the last state of a branch on its way back, so no
paid action comes after it. -/
theorem meeting_mem_statesSincePaid (hb : b.HasVisited view m visited)
    (hd : b.direction = .forward) : m ∈ b.reverse.statesSincePaid := by
  obtain ⟨hlen, hfirst⟩ := hb.states hd
  have hlen' : b.reverse.states.length = b.reverse.actions.length + 1 := by
    rw [reverse, List.length_reverse, List.length_reverse, hlen]
  have hlast : b.reverse.states.getLast? = some m := by
    rw [reverse, List.getLast?_reverse, hfirst]
  refine List.mem_of_getLast? ?_
  rw [statesSincePaid, List.getLast?_drop, if_neg (by omega), hlast]

theorem turn (hb : b.HasVisited view m visited) (hd : b.direction = .forward) :
    (b.turn h).HasVisited view m ((b.turn h).visit visited) := by
  have hnone : visited .backward h = [] := hb.ahead _ _ (.inr ⟨hd, rfl⟩)
  have hstate : (b.turn h).state = m := hb.meeting
  refine hb.visit hb.meeting nofun ?_ ?_ ?_ ?_ (.inl hstate)
  · rw [hstate]
    exact hb.meeting_mem_statesSincePaid hd
  · intro s hs
    exact absurd (hnone ▸ hs) List.not_mem_nil
  · rintro d k (⟨rfl, _⟩ | ⟨hforward, _⟩)
    · exact .inr ⟨hd, rfl⟩
    · cases hforward
  · intro hs
    exact absurd (hnone ▸ hs) List.not_mem_nil

theorem step (hb : b.HasVisited view m visited) {k : Fin view.task.transitions.relations.length}
    {p : State} (hmv : .step k p ∈ b.moves view) :
    (b.make h (.step k p)).HasVisited view m ((b.make h (.step k p)).visit visited) := by
  rcases mem_moves.mp hmv with ⟨hturn, _⟩ | ⟨_, _, heq, _, hclosed, hstep⟩
  · cases hturn
  obtain ⟨rfl, rfl⟩ := Move.step.inj heq
  have hnonneg := (view.task.transitions.relationAt k).action.cost_nonneg
  have hd := direction_make_step h b k p
  have hstate := state_make_step h b k p
  have hcost : (b.make h (.step k p)).cost =
      b.cost - (view.task.transitions.relationAt k).action.cost := by rw [make_step]
  have htrail : (b.make h (.step k p)).trail =
      if (view.task.transitions.relationAt k).action.cost = 0 then b.trail ++ [p] else [p] := by
    rw [make_step]
  -- A free step has a trail behind it; a paid step comes to a layer without visits.
  have hlayer : (view.task.transitions.relationAt k).action.cost = 0 ∧ p ∉ b.trail ∨
      visited b.direction (b.cost - (view.task.transitions.relationAt k).action.cost) = [] :=
    hstep.imp_right fun ⟨hpos, _⟩ ↦ hb.ahead _ _ (.inl ⟨rfl, by omega⟩)
  refine hb.visit ?_ ?_ ?_ ?_ ?_ ?_ (.inr ?_)
  · rw [meeting_make_step, hb.meeting]
  · intro hforward
    rw [hd] at hforward
    obtain ⟨hlen, hfirst⟩ := hb.states hforward
    rw [make_step]
    dsimp only [extend]
    rw [List.length_append, List.length_append, hlen, List.head?_append, hfirst]
    exact ⟨rfl, rfl⟩
  · rw [hstate, htrail]
    split
    · exact List.mem_append_right _ (List.mem_singleton_self p)
    · exact List.mem_singleton_self p
  · rw [hd, hcost, htrail]
    intro s hs
    rcases hlayer with ⟨hfree, _⟩ | hnone
    · rw [hfree, Int.sub_zero] at hs
      rw [if_pos hfree]
      exact List.mem_append_left _ (hb.trail s hs)
    · exact absurd (hnone ▸ hs) List.not_mem_nil
  · rw [hd, hcost]
    rintro d c (⟨rfl, hlt⟩ | hturn)
    · exact .inl ⟨rfl, by omega⟩
    · exact .inr hturn
  · rw [hd, hcost, hstate]
    intro hs
    rcases hlayer with ⟨hfree, hnew⟩ | hnone
    · rw [hfree, Int.sub_zero] at hs
      exact hnew (hb.trail p hs)
    · exact absurd (hnone ▸ hs) List.not_mem_nil
  · rwa [hd, hcost, hstate]

end HasVisited

/-- The invariant holds along all moves from a meeting state. -/
theorem hasVisited_follow {ms : List (Move view.task.transitions)}
    (hms : (ofMeeting g m).Follows view h ms) :
    ((ofMeeting g m).follow h ms).HasVisited view m ((ofMeeting g m).visitsIn h ms) := by
  induction ms using List.reverseRecOn with
  | nil =>
    have hvisits : (ofMeeting g m).visitsIn h ([] : List (Move view.task.transitions)) =
        (ofMeeting g m).visit fun _ _ ↦ [] := by
      funext d k
      rw [visitsIn, stages, visit, List.nil_append, List.filter_cons, List.filter_nil]
      simp only [decide_eq_true_eq]
      split <;> rfl
    rw [hvisits]
    refine HasVisited.visit (b := ofMeeting g m) ⟨rfl, fun _ ↦ ⟨rfl, rfl⟩, ?_, ?_, ?_, ?_⟩
      rfl (fun _ ↦ ⟨rfl, rfl⟩) (List.mem_singleton_self m) ?_ (fun _ _ ↦ id)
      List.not_mem_nil (.inl rfl)
    · exact List.forall_mem_nil _
    · exact fun _ _ _ ↦ rfl
    · exact fun _ _ ↦ .nil
    · exact fun _ _ ↦ List.forall_mem_nil _
    · exact List.forall_mem_nil _
  | append_singleton ms mv ih =>
    obtain ⟨hfront, hmv⟩ := follows_concat.mp hms
    rw [follow_concat, visitsIn_concat]
    cases mv with
    | turn =>
      rcases mem_moves.mp hmv with ⟨_, _, hd⟩ | ⟨_, _, hstep, _⟩
      · exact (ih hfront).turn hd
      · cases hstep
    | step k p => exact (ih hfront).step hmv

/-- A branch is in no layer more often than the layer has states, and once. -/
theorem length_visitsIn_le {ms : List (Move view.task.transitions)}
    (hms : (ofMeeting g m).Follows view h ms) (d : Direction) (k : Int) :
    ((ofMeeting g m).visitsIn h ms d k).length ≤ (view.closedAt d k).size + 1 := by
  have hvisited := hasVisited_follow hms
  have hsub : (ofMeeting g m).visitsIn h ms d k ⊆ m :: (view.closedAt d k).toList :=
    fun s hs ↦ List.mem_cons.mpr (hvisited.closed d k s hs)
  exact (List.subperm_of_subset (hvisited.nodup d k) hsub).length_le

/-- The branch `b` has come from the meeting state `m` by the moves `ms`, and the way was bounded:
its costs can be represented, it was in no layer more often than the layer has states, and once, and
every paid action has led to a layer that costs less. -/
structure IsBounded (view : LayerView) (cut : Cut) (m : State)
    (ms : List (Move view.task.transitions)) (b : Branch) : Prop where
  follows : (ofMeeting cut.g m).Follows view cut.h ms
  follow : b = (ofMeeting cut.g m).follow cut.h ms
  cost : Cost.InRange b.cost
  left : ∀ r ∈ view.task.transitions.paid, r.action.cost ≤ b.cost →
    Cost.InRange (b.cost - r.action.cost)
  visits : ∀ d k, ((ofMeeting cut.g m).visitsIn cut.h ms d k).length ≤
    (view.closedAt d k).size + 1
  descends : ∀ front k p, front ++ [.step k p] <+: ms →
    0 < (view.task.transitions.relationAt k).action.cost →
      ((ofMeeting cut.g m).follow cut.h (front ++ [.step k p])).direction =
          ((ofMeeting cut.g m).follow cut.h front).direction ∧
        0 ≤ ((ofMeeting cut.g m).follow cut.h (front ++ [.step k p])).cost ∧
        ((ofMeeting cut.g m).follow cut.h (front ++ [.step k p])).cost <
          ((ofMeeting cut.g m).follow cut.h front).cost

theorem isBounded_follow {cut : Cut} {ms : List (Move view.task.transitions)}
    (hg : Cost.InRange cut.g) (hh : Cost.InRange cut.h)
    (hms : (ofMeeting cut.g m).Follows view cut.h ms) :
    ((ofMeeting cut.g m).follow cut.h ms).IsBounded view cut m ms where
  follows := hms
  follow := rfl
  cost := inRange_follow hms hh hg
  left _ hr hle := inRange_sub_cost hr (inRange_follow hms hh hg) hle
  visits := length_visitsIn_le hms
  descends front k p hfront hpos := by
    rw [follow_concat]
    exact cost_make_step (follows_concat.mp (hms.of_prefix hfront)).2 hpos

end Branch

/-! ## Walks -/

namespace Walk

variable {σ : Type} [PlanStore σ] {view : LayerView} {cut : Cut} {budget : Nat}

/-- A number of turns of the walk, as long as it has not ended. -/
def advances (view : LayerView) (cut : Cut) (budget : Nat) :
    Nat → Walk σ → Walk.End σ ⊕ Walk σ
  | 0, walk => .inr walk
  | turns + 1, walk =>
    match walk.advance view cut budget with
    | .inl last => .inl last
    | .inr next => advances view cut budget turns next

/-- A walk takes no more turns to its end than its weight, and one. -/
theorem exists_advances_eq_run (view : LayerView) (cut : Cut) (budget : Nat) (walk : Walk σ) :
    ∃ turns, turns ≤ walk.weight view cut + 1 ∧
      advances view cut budget turns walk = .inl (walk.run view cut budget) := by
  fun_induction run view cut budget walk with
  | case1 walk last hadv =>
    refine ⟨1, Nat.le_add_left 1 _, ?_⟩
    rw [advances, hadv]
  | case2 walk next hadv ih =>
    obtain ⟨turns, hle, hturns⟩ := ih
    have hlt := weight_lt_of_advance hadv
    refine ⟨turns + 1, by omega, ?_⟩
    rw [advances, hadv]
    exact hturns

/-- What the ways to go on take over from a branch holds of all branches to which the walk comes. -/
theorem forall_stack_of_advances {P : Branch → Prop}
    (hchild : ∀ b, P b → ∀ c ∈ b.children view cut.h, P c) {turns : Nat}
    {walk next : Walk σ} (hwalk : ∀ b ∈ walk.stack, P b)
    (hnext : advances view cut budget turns walk = .inr next) : ∀ b ∈ next.stack, P b := by
  induction turns generalizing walk with
  | zero =>
    obtain rfl := Sum.inr.inj hnext
    exact hwalk
  | succ turns ih =>
    rw [advances] at hnext
    cases hadv : walk.advance view cut budget with
    | inl last =>
      rw [hadv] at hnext
      cases hnext
    | inr walk' =>
      rw [hadv] at hnext
      refine ih ?_ hnext
      obtain ⟨b, rest, hstack, hstack'⟩ := stack_of_advance hadv
      rw [hstack, List.forall_mem_cons] at hwalk
      rw [hstack']
      exact List.forall_mem_append.mpr ⟨hchild b hwalk.1, hwalk.2⟩

/-- The branches to which a walk through a cut comes are led from its meeting states by moves. -/
theorem exists_follows_of_advances {turns : Nat} {store : σ} {walk : Walk σ}
    (hwalk : advances view cut budget turns (start cut store) = .inr walk) :
    ∀ b ∈ walk.stack, ∃ m ∈ cut.states, ∃ ms : List (Move view.task.transitions),
      (Branch.ofMeeting cut.g m).Follows view cut.h ms ∧
        b = (Branch.ofMeeting cut.g m).follow cut.h ms := by
  refine forall_stack_of_advances ?_ ?_ hwalk
  · rintro _ ⟨m, hm, ms, hms, rfl⟩ c hc
    exact ⟨m, hm, Branch.exists_follow_of_mem_children hms hc⟩
  · intro b hb
    obtain ⟨m, hm, rfl⟩ := List.mem_map.mp hb
    exact ⟨m, hm, [], trivial, rfl⟩

end Walk

/-- The walk of a reconstruction ends, whatever the layers, the cut and the store are, and every
branch to which it comes is bounded. -/
theorem reconstruct_terminates {σ : Type} [PlanStore σ] (view : LayerView) (cut : Cut)
    (hg : Cost.InRange cut.g) (hh : Cost.InRange cut.h) (budget : Nat) (store : σ) :
    (∃ turns last, Walk.advances view cut budget turns (Walk.start cut store) = .inl last ∧
      reconstruct view cut budget store = if budget = 0 then (.ok .zero, store) else last) ∧
    ∀ turns walk, Walk.advances view cut budget turns (Walk.start cut store) = .inr walk →
      ∀ b ∈ walk.stack, ∃ m ∈ cut.states, ∃ ms, b.IsBounded view cut m ms := by
  constructor
  · obtain ⟨turns, -, hturns⟩ :=
      Walk.exists_advances_eq_run view cut budget (Walk.start cut store)
    exact ⟨turns, _, hturns, rfl⟩
  · intro turns walk hwalk b hb
    obtain ⟨m, hm, ms, hms, rfl⟩ := Walk.exists_follows_of_advances hwalk b hb
    exact ⟨m, hm, ms, Branch.isBounded_follow hg hh hms⟩

/-- The free cycle ends. -/
theorem cycle_terminates :
    (∃ turns last,
      Walk.advances cycleView ⟨1, 0, .ofList [.single 1, .single 2]⟩ 3 turns
          (Walk.start ⟨1, 0, .ofList [.single 1, .single 2]⟩
            (ScriptedStore.ofScript 3 [] none)) =
        .inl last ∧
      reconstruct cycleView ⟨1, 0, .ofList [.single 1, .single 2]⟩ 3
          (ScriptedStore.ofScript 3 [] none) =
        if 3 = 0 then (.ok .zero, ScriptedStore.ofScript 3 [] none) else last) ∧
    ∀ turns walk,
      Walk.advances cycleView ⟨1, 0, .ofList [.single 1, .single 2]⟩ 3 turns
          (Walk.start ⟨1, 0, .ofList [.single 1, .single 2]⟩
            (ScriptedStore.ofScript 3 [] none)) =
        .inr walk →
      ∀ b ∈ walk.stack, ∃ m ∈ StateSet.ofList [.single 1, .single 2], ∃ ms,
        b.IsBounded cycleView ⟨1, 0, .ofList [.single 1, .single 2]⟩ m ms :=
  reconstruct_terminates cycleView ⟨1, 0, .ofList [.single 1, .single 2]⟩
    (by decide) (by decide) 3 (ScriptedStore.ofScript 3 [] none)

end LayeredPlanning
