import LayeredPlanning.Layers.LayerView
import LayeredPlanning.Plans.Plan
import LayeredPlanning.Reconstruction.Error

/-!
# Branches of a reconstruction

A branch is a part of a plan around a meeting state, with one open end.  First the end is the start
of the part and is led back, layer by layer, to the initial state; then the part turns round, and
its end is led on to a goal.  `expand` finds the ways to go on from a branch.

Either way the branch grows at the back of its lists.  So on the way back they start at the meeting
state and run against the order of execution; the turn reverses them.

Steps that cost something lead to a cheaper layer.  Free steps stay in the layer, but never go to a
state that the branch has visited there; the layer of the meeting state is one layer for both
halves.  So every way to go on leaves less to explore: `rank_lt_of_mem_children`.
-/

namespace LayeredPlanning

/-- A part of a plan with one open end. -/
structure Branch where
  /-- The direction whose layers the end goes through: `forward` on the way back to the initial
  state, `backward` on the way on to a goal. -/
  direction : Direction
  /-- The cost of the layer of the end. -/
  cost : Int
  /-- The state at the end. -/
  state : State
  /-- The states visited in the layer of the end, that of the end last. -/
  trail : List State
  /-- The meeting state around which the part grows. -/
  meeting : State
  /-- The actions: in order of execution on the way on, against it on the way back. -/
  actions : List Action
  /-- The visited states, one more than actions, in the same order. -/
  states : List State
deriving DecidableEq

namespace Branch

/-- The branch that holds nothing but a meeting state. -/
def ofMeeting (g : Int) (m : State) : Branch := ⟨.forward, g, m, [m], m, [], [m]⟩

/-- The branch with one more action at its open end, which moves to `p`. -/
def extend (b : Branch) (a : Action) (p : State) : Branch :=
  { b with state := p, actions := b.actions ++ [a], states := b.states ++ [p] }

/-- The end moves to `p` by a free action, within the layer. -/
def freeStep (b : Branch) (a : Action) (p : State) : Branch :=
  { b.extend a p with trail := b.trail ++ [p] }

/-- The end moves to `p` by a paid action, to a cheaper layer. -/
def paidStep (b : Branch) (a : Action) (p : State) : Branch :=
  { b.extend a p with cost := b.cost - a.cost, trail := [p] }

/-- The branch with its actions and states in reverse. -/
def reverse (b : Branch) : Branch :=
  { b with actions := b.actions.reverse, states := b.states.reverse }

/-- The states visited since the last paid action, of a branch in order of execution. -/
def statesSincePaid (b : Branch) : List State :=
  b.states.drop (b.actions.length - (b.actions.reverse.takeWhile (·.isZeroCost)).length)

/-- The branch whose start has reached the initial state is put in order of execution, and continues
at the meeting state, towards a goal at cost `h`.  It stays in the layer of the meeting state, whose
visited states are those since the last paid action. -/
def turn (b : Branch) (h : Int) : Branch :=
  { b.reverse with
    direction := .backward
    cost := h
    state := b.meeting
    trail := b.reverse.statesSincePaid }

/-- The plan that a branch in order of execution has grown to. -/
def toPlan (b : Branch) : Plan := ⟨b.actions, b.states⟩

/-- Whether the end has arrived: at the initial state, or at a goal, with no cost left. -/
def hasArrived (task : Task) (b : Branch) : Bool :=
  b.cost == 0 &&
    match b.direction with
    | .forward => b.state == task.initial
    | .backward => task.isGoal b.state

/-- The states from which, or to which, a relation justifies the end. -/
def neighbours (b : Branch) (r : Transition) : StateSet :=
  r.step b.direction.opposite (.singleton b.state)

/-- Whether a free action justifies the end within its layer. -/
def isFreelyJustified (table : TransitionTable) (closed : ClosedLayers) (b : Branch) : Bool :=
  table.zeroCost.any fun r ↦ !(b.neighbours r ∩ closed.closedAt b.cost).isEmpty

/-- The ways to go on by a free action: to a state of the layer that the branch has not visited
there, by first sub-layer, then state, then order of the table. -/
def freeSteps (table : TransitionTable) (closed : ClosedLayers) (b : Branch) : List Branch :=
  ((closed.rankedAt b.cost).filter fun p ↦ decide (p ∉ b.trail)).flatMap fun p ↦
    (table.zeroCost.filter fun r ↦ (b.neighbours r).contains p).map fun r ↦
      b.freeStep r.action p

/-- The ways to go on by a paid action: by cost, then order of the table, then state. -/
def paidSteps (table : TransitionTable) (closed : ClosedLayers) (b : Branch) : List Branch :=
  (table.paid.filter fun r ↦ r.action.cost ≤ b.cost).flatMap fun r ↦
    (b.neighbours r ∩ closed.closedAt (b.cost - r.action.cost)).toList.map (b.paidStep r.action)

/-- What a branch leads to. -/
structure Expansion where
  /-- The plan that the branch completes, if it does. -/
  completed? : Option Plan
  /-- The ways to go on, in the order in which they are explored. -/
  children : List Branch

/-- What a branch leads to.  A branch that has arrived turns round, or completes a plan, and goes on
besides.  A branch that has not arrived has to be justified by the layers of its direction. -/
def expand (view : LayerView) (h : Int) (b : Branch) : Except ReconstructionError Expansion :=
  let arrived := b.hasArrived view.task
  let turned := if arrived && b.direction == .forward then [b.turn h] else []
  let completed? := if arrived && b.direction == .backward then some b.toPlan else none
  match view.layers? b.direction with
  | none =>
    if arrived then .ok ⟨completed?, turned⟩
    else .error (.missingLayers b.direction b.cost)
  | some closed =>
    let table := view.task.transitions
    let free := b.freeSteps table closed
    let paid := b.paidSteps table closed
    if arrived || b.isFreelyJustified table closed || !paid.isEmpty then
      .ok ⟨completed?, turned ++ free ++ paid⟩
    else .error (.unjustifiedState b.direction b.cost b.state.text)

/-- The ways to go on from a branch; none if it cannot be justified. -/
def children (view : LayerView) (h : Int) (b : Branch) : List Branch :=
  match b.expand view h with
  | .ok x => x.children
  | .error _ => []

/-! ## Why branches end -/

/-- The paid steps that a branch can still take, and one for the turn. -/
def reach (h : Int) (b : Branch) : Nat :=
  match b.direction with
  | .forward => b.cost.toNat + h.toNat + 1
  | .backward => b.cost.toNat

/-- The closed states that a branch has not visited in its layer. -/
def unvisited (view : LayerView) (b : Branch) : StateSet :=
  view.closedStates.filter fun p ↦ decide (p ∉ b.trail)

/-- How much a branch can still move: what counts first is how far it reaches, then how many states
it has not visited in its layer. -/
def rank (view : LayerView) (h : Int) (b : Branch) : Nat :=
  b.reach h * (view.closedStates.size + 1) + (b.unvisited view).size

/-- A branch that reaches less far ranks lower, whatever it has visited. -/
theorem rank_lt_of_reach_lt {view : LayerView} {h : Int} {b c : Branch}
    (hreach : c.reach h < b.reach h) : c.rank view h < b.rank view h := by
  have hvisited : (c.unvisited view).size ≤ view.closedStates.size := List.length_filter_le _ _
  have hmul := Nat.mul_le_mul_right (view.closedStates.size + 1) hreach
  rw [Nat.succ_mul] at hmul
  rw [rank, rank]
  omega

/-- An extension stays in its half of the plan. -/
@[simp] theorem direction_extend (b : Branch) (a : Action) (p : State) :
    (b.extend a p).direction = b.direction := rfl

/-- An extension by itself does not change the cost of the layer. -/
@[simp] theorem cost_extend (b : Branch) (a : Action) (p : State) :
    (b.extend a p).cost = b.cost := rfl

/-- An extension moves the end. -/
@[simp] theorem state_extend (b : Branch) (a : Action) (p : State) :
    (b.extend a p).state = p := rfl

/-- An extension keeps the meeting state. -/
@[simp] theorem meeting_extend (b : Branch) (a : Action) (p : State) :
    (b.extend a p).meeting = b.meeting := rfl

/-- Free steps go to unvisited states of the layer. -/
theorem mem_freeSteps {table : TransitionTable} {closed : ClosedLayers} {b c : Branch} :
    c ∈ b.freeSteps table closed ↔
      ∃ p ∈ closed.closedAt b.cost, p ∉ b.trail ∧
        ∃ r ∈ table.zeroCost, p ∈ b.neighbours r ∧ c = b.freeStep r.action p := by
  simp only [freeSteps, List.mem_flatMap, List.mem_filter, ClosedLayers.mem_rankedAt,
    decide_eq_true_eq, List.mem_map, StateSet.contains_eq_true]
  constructor
  · rintro ⟨p, ⟨hp, hpt⟩, r, ⟨hr, hpr⟩, rfl⟩
    exact ⟨p, hp, hpt, r, hr, hpr, rfl⟩
  · rintro ⟨p, hp, hpt, r, hr, hpr, rfl⟩
    exact ⟨p, ⟨hp, hpt⟩, r, ⟨hr, hpr⟩, rfl⟩

/-- Paid steps go to states of a cheaper layer. -/
theorem mem_paidSteps {table : TransitionTable} {closed : ClosedLayers} {b c : Branch} :
    c ∈ b.paidSteps table closed ↔
      ∃ r ∈ table.paid, r.action.cost ≤ b.cost ∧
        ∃ p ∈ closed.closedAt (b.cost - r.action.cost), p ∈ b.neighbours r ∧
          c = b.paidStep r.action p := by
  simp only [paidSteps, List.mem_flatMap, List.mem_filter, decide_eq_true_eq, List.mem_map,
    StateSet.mem_toList, StateSet.mem_inter]
  constructor
  · rintro ⟨r, ⟨hr, hc⟩, p, ⟨hpr, hp⟩, rfl⟩
    exact ⟨r, hr, hc, p, hp, hpr, rfl⟩
  · rintro ⟨r, hr, hc, p, hp, hpr, rfl⟩
    exact ⟨r, ⟨hr, hc⟩, p, ⟨hpr, hp⟩, rfl⟩

/-- The ways to go on are a turn, free steps and paid steps. -/
theorem mem_children {view : LayerView} {h : Int} {b c : Branch} (hc : c ∈ b.children view h) :
    b.direction = .forward ∧ c = b.turn h ∨
      ∃ closed, view.layers? b.direction = some closed ∧
        (c ∈ b.freeSteps view.task.transitions closed ∨
          c ∈ b.paidSteps view.task.transitions closed) := by
  have turned : ∀ {x : Bool}, c ∈ (if x && b.direction == .forward then [b.turn h] else []) →
      b.direction = .forward ∧ c = b.turn h := by
    intro x hx
    split at hx
    · next hd =>
      simp only [Bool.and_eq_true, beq_iff_eq] at hd
      exact ⟨hd.2, List.mem_singleton.mp hx⟩
    · exact nomatch hx
  unfold children expand at hc
  cases hl : view.layers? b.direction with
  | none =>
    simp only [hl] at hc
    split at hc
    · next x hx =>
      split at hx
      · cases hx
        exact .inl (turned hc)
      · cases hx
    · exact nomatch hc
  | some closed =>
    simp only [hl] at hc
    split at hc
    · next x hx =>
      split at hx
      · cases hx
        rcases List.mem_append.mp hc with hc | hc
        · rcases List.mem_append.mp hc with hc | hc
          · exact .inl (turned hc)
          · exact .inr ⟨closed, rfl, .inl hc⟩
        · exact .inr ⟨closed, rfl, .inr hc⟩
      · cases hx
    · exact nomatch hc

/-- Every way to go on leaves less to explore. -/
theorem rank_lt_of_mem_children {view : LayerView} {h : Int} {b c : Branch}
    (hc : c ∈ b.children view h) : c.rank view h < b.rank view h := by
  rcases mem_children hc with ⟨hd, rfl⟩ | ⟨closed, hl, hc | hc⟩
  · refine rank_lt_of_reach_lt ?_
    simp only [reach, turn, hd]
    omega
  · obtain ⟨p, hp, hpt, r, _, _, rfl⟩ := mem_freeSteps.mp hc
    simp only [rank, reach, freeStep, direction_extend, cost_extend]
    refine Nat.add_lt_add_left ?_ _
    refine StateSet.size_filter_lt (fun s _ hs ↦ ?_) (LayerView.mem_closedStates hl hp)
      (by simpa using hpt) (by simp)
    simp only [List.mem_append, not_or, decide_eq_true_eq] at hs ⊢
    exact hs.1
  · obtain ⟨r, hr, hrc, p, _, _, rfl⟩ := mem_paidSteps.mp hc
    have hpos := (TransitionTable.mem_paid.mp hr).2
    refine rank_lt_of_reach_lt ?_
    simp only [reach, paidStep, direction_extend]
    split <;> omega

/-- The number of branches that exploring a branch goes through, itself included. -/
def weight (view : LayerView) (h : Int) (b : Branch) : Nat :=
  (b.children view h).attach.foldr (fun ⟨c, _⟩ n ↦ c.weight view h + n) 1
termination_by b.rank view h
decreasing_by
  next hc => exact rank_lt_of_mem_children hc

/-- The number of branches that exploring each of a list of branches goes through. -/
def totalWeight (view : LayerView) (h : Int) : List Branch → Nat
  | [] => 0
  | b :: bs => b.weight view h + totalWeight view h bs

/-- The total weight of two lists is the sum of theirs. -/
theorem totalWeight_append (view : LayerView) (h : Int) (bs cs : List Branch) :
    totalWeight view h (bs ++ cs) = totalWeight view h bs + totalWeight view h cs := by
  induction bs with
  | nil => simp [totalWeight]
  | cons b bs ih => simp [totalWeight, ih, Nat.add_assoc]

/-- A branch weighs one more than the ways to go on from it. -/
theorem weight_eq (view : LayerView) (h : Int) (b : Branch) :
    b.weight view h = totalWeight view h (b.children view h) + 1 := by
  have foldr_eq : ∀ cs : List Branch,
      cs.foldr (fun c n ↦ c.weight view h + n) 1 = totalWeight view h cs + 1 := fun cs ↦ by
    induction cs with
    | nil => rfl
    | cons c cs ih => rw [List.foldr_cons, ih, totalWeight, Nat.add_assoc]
  rw [weight, ← foldr_eq]
  exact List.foldr_attach (f := fun (c : Branch) n ↦ c.weight view h + n)

end Branch

end LayeredPlanning
