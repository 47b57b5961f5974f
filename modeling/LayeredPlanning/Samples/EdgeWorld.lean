import LayeredPlanning.Plans.Plan
import LayeredPlanning.Samples.Worlds

/-!
# Edge worlds

A world of one variable, given by the edges of its actions, with a brute-force enumeration of its
plans to compare searches with.  The enumeration is only meant for worlds all of whose actions cost
something: free cycles have infinitely many plans.
-/

namespace LayeredPlanning

/-- An action of an edge world. -/
structure EdgeAction where
  /-- The cost. -/
  cost : Int
  /-- The edges, from state to state. -/
  edges : List (UInt32 × UInt32)
deriving DecidableEq

/-- A world of one variable that starts at zero. -/
structure EdgeWorld where
  /-- The number of states. -/
  stateCount : UInt32
  /-- The goals. -/
  goals : List UInt32
  /-- The actions, identified by their positions. -/
  actions : List EdgeAction
deriving DecidableEq

/-- Why a world does not enumerate its plans or replay one. -/
inductive EdgeWorldError where
  /-- A list of some length has no entry at an index. -/
  | entryMissing (length index : Nat)
  /-- An action costs less than one. -/
  | freeAction
  /-- A sum of costs is not representable. -/
  | costOverflow
deriving DecidableEq

/-- The text of the error. -/
def EdgeWorldError.message : EdgeWorldError → String
  | .entryMissing length index =>
    "index out of bounds: the len is " ++ toString length ++ " but the index is " ++ toString index
  | .freeAction => "oracle requires positive action costs"
  | .costOverflow => "attempt to add with overflow"

namespace EdgeWorld

/-- The identifier of the action at a position. -/
def actionId (i : Nat) : UInt32 := UInt32.ofNat (Nat.min i 4294967295)

/-- The name of the action at a position. -/
def actionName (i : Nat) : String := "a" ++ toString i

/-- Whether a state is a goal. -/
def isGoal (world : EdgeWorld) (s : UInt32) : Bool := decide (s ∈ world.goals)

/-- The largest action cost, if there is an action. -/
def maxActionCost? (world : EdgeWorld) : Option Int :=
  world.actions.foldl (fun most? a ↦
    match most? with
    | some most => if most ≤ a.cost then some a.cost else some most
    | none => some a.cost) none

/-- The planning task of the world. -/
def toTask? (world : EdgeWorld) : Except TaskError ExplicitTask :=
  Samples.world "edge_world" world.goals (world.actions.zipIdx.map fun (a, i) ↦
    ⟨actionId i, actionName i, a.cost, a.edges.map Samples.edge⟩)

/-! ## Brute-force enumeration -/

/-- Whether every action costs at least one. -/
def isPositive (world : EdgeWorld) : Bool := world.actions.all fun a ↦ decide (1 ≤ a.cost)

theorem one_le_cost {world : EdgeWorld} {i : Nat} {a : EdgeAction}
    (hpositive : world.isPositive = true) (ha : world.actions[i]? = some a) : 1 ≤ a.cost :=
  of_decide_eq_true (List.all_eq_true.mp hpositive a (List.mem_of_getElem? ha))

/-- Where an enumeration has come to. -/
structure Trail where
  /-- The state. -/
  state : UInt32
  /-- What the actions so far have cost. -/
  cost : Int
  /-- The identifiers of the actions so far, in order. -/
  ids : List UInt32

namespace Trail

/-- The ways to go on that cost at most `maxCost`, in the order of the actions and of their
edges. -/
def extensions (world : EdgeWorld) (maxCost : Int) (trail : Trail) : List Trail :=
  world.actions.zipIdx.flatMap fun (a, i) ↦
    if maxCost < trail.cost + a.cost then []
    else (a.edges.filter (·.1 == trail.state)).map fun e ↦
      ⟨e.2, trail.cost + a.cost, trail.ids ++ [actionId i]⟩

/-- Whether the cost of some action cannot be added to what has been paid. -/
def overflows (world : EdgeWorld) (trail : Trail) : Bool :=
  world.actions.any fun a ↦ decide (Cost.max < trail.cost + a.cost)

/-- Adds the actions of the trail to those found, if it ends at a goal. -/
def record (world : EdgeWorld) (trail : Trail) (found : List (List UInt32)) : List (List UInt32) :=
  if world.isGoal trail.state then trail.ids :: found else found

variable {world : EdgeWorld} {maxCost : Int} {trail next : Trail}

/-- A trail goes on by an action along one of its edges, if that is within the cost. -/
theorem mem_extensions_iff :
    next ∈ trail.extensions world maxCost ↔ ∃ i a t, world.actions[i]? = some a ∧
      trail.cost + a.cost ≤ maxCost ∧ (trail.state, t) ∈ a.edges ∧
        next = ⟨t, trail.cost + a.cost, trail.ids ++ [actionId i]⟩ := by
  rw [extensions, List.mem_flatMap]
  constructor
  · rintro ⟨⟨a, i⟩, ha, hnext⟩
    dsimp only at hnext
    split at hnext
    · exact absurd hnext List.not_mem_nil
    · next hle =>
      obtain ⟨⟨s, t⟩, hedge, rfl⟩ := List.mem_map.mp hnext
      obtain ⟨hedge, hstart⟩ := List.mem_filter.mp hedge
      obtain rfl : s = trail.state := beq_iff_eq.mp hstart
      exact ⟨i, a, t, List.mem_zipIdx_iff_getElem?.mp ha, Int.not_lt.mp hle, hedge, rfl⟩
  · rintro ⟨i, a, t, ha, hle, hedge, rfl⟩
    refine ⟨(a, i), List.mem_zipIdx_iff_getElem?.mpr ha, ?_⟩
    dsimp only
    rw [if_neg (Int.not_lt.mpr hle)]
    exact List.mem_map.mpr ⟨(trail.state, t),
      List.mem_filter.mpr ⟨hedge, beq_self_eq_true trail.state⟩, rfl⟩

/-- What is left to pay. -/
def rank (maxCost : Int) (trail : Trail) : Nat := (maxCost - trail.cost).toNat

/-- Where every action costs something, every way to go on leaves less to pay. -/
theorem rank_lt_of_mem_extensions (hpositive : world.isPositive = true)
    (hnext : next ∈ trail.extensions world maxCost) : next.rank maxCost < trail.rank maxCost := by
  obtain ⟨i, a, t, ha, hle, -, rfl⟩ := mem_extensions_iff.mp hnext
  have hcost := one_le_cost hpositive ha
  simp only [rank]
  omega

/-- The number of trails that following a trail goes through, itself included. -/
def weight (world : EdgeWorld) (hpositive : world.isPositive = true) (maxCost : Int)
    (trail : Trail) : Nat :=
  (trail.extensions world maxCost).attach.foldr
    (fun ⟨next, _⟩ n ↦ next.weight world hpositive maxCost + n) 1
termination_by trail.rank maxCost
decreasing_by
  next hnext => exact rank_lt_of_mem_extensions hpositive hnext

/-- The number of trails that following each of a list of trails goes through. -/
def totalWeight (world : EdgeWorld) (hpositive : world.isPositive = true) (maxCost : Int) :
    List Trail → Nat
  | [] => 0
  | trail :: rest => trail.weight world hpositive maxCost + totalWeight world hpositive maxCost rest

variable {hpositive : world.isPositive = true}

/-- The order of the trails does not matter. -/
theorem totalWeight_reverse_append (trails rest : List Trail) :
    totalWeight world hpositive maxCost (trails.reverse ++ rest) =
      totalWeight world hpositive maxCost trails + totalWeight world hpositive maxCost rest := by
  induction trails generalizing rest with
  | nil => simp [totalWeight]
  | cons trail trails ih =>
    rw [List.reverse_cons, List.append_assoc, ih, List.singleton_append, totalWeight, totalWeight]
    omega

/-- A trail weighs one more than the ways to go on from it. -/
theorem weight_eq (trail : Trail) :
    trail.weight world hpositive maxCost =
      totalWeight world hpositive maxCost (trail.extensions world maxCost) + 1 := by
  have foldr_eq : ∀ trails : List Trail,
      trails.foldr (fun trail n ↦ trail.weight world hpositive maxCost + n) 1 =
        totalWeight world hpositive maxCost trails + 1 := fun trails ↦ by
    induction trails with
    | nil => rfl
    | cons trail trails ih => rw [List.foldr_cons, ih, totalWeight, Nat.add_assoc]
  rw [weight, ← foldr_eq]
  exact List.foldr_attach (f := fun (trail : Trail) n ↦ trail.weight world hpositive maxCost + n)

end Trail

/-- Follows the trails on a stack, and finds the action sequences of those that end at a goal.  The
ways to go on are pushed in their order, so the last one is followed first. -/
def enumerate (world : EdgeWorld) (hpositive : world.isPositive = true) (maxCost : Int)
    (stack : List Trail) (found : List (List UInt32)) :
    Except EdgeWorldError (List (List UInt32)) :=
  match stack with
  | [] => .ok found
  | trail :: rest =>
    if trail.overflows world then .error .costOverflow
    else
      world.enumerate hpositive maxCost ((trail.extensions world maxCost).reverse ++ rest)
        (trail.record world found)
termination_by Trail.totalWeight world hpositive maxCost stack
decreasing_by
  rw [Trail.totalWeight_reverse_append, Trail.totalWeight, Trail.weight_eq]
  omega

/-- The different action sequences of the plans that cost at most `maxCost`, in ascending order.
Every action has to cost at least one, and the sums of costs on the way have to be representable.
-/
def plansUpTo (world : EdgeWorld) (maxCost : Int) : Except EdgeWorldError (List (List UInt32)) := do
  if hpositive : world.isPositive = true then
    let found ← world.enumerate hpositive maxCost [⟨0, 0, []⟩] []
    return sortAscending found.eraseDups
  else throw .freeAction

/-! ## Replaying -/

/-- The variable of a state, its first entry. -/
def variableOf (s : State) : Except EdgeWorldError UInt32 :=
  match s.values with
  | v :: _ => .ok v
  | [] => .error (.entryMissing 0 0)

/-- Whether actions lead from state to state along edges of the world at its costs, where the
states are the last ones of a list of `length`.  Edges are looked up only at a matching cost, and
then both states have to be there. -/
def follows (world : EdgeWorld) (length : Nat) :
    List Action → List UInt32 → Except EdgeWorldError Bool
  | [], _ => .ok true
  | a :: actions, states =>
    match world.actions[a.id.toNat]? with
    | none => .ok false
    | some known =>
      if known.cost == a.cost then
        match states with
        | s :: t :: rest =>
          if known.edges.contains (s, t) then world.follows length actions (t :: rest)
          else .ok false
        | _ => .error (.entryMissing length length)
      else .ok false

/-- Whether a plan leads from zero to a goal along edges of the world.  Every state of the plan has
to have a variable. -/
def replays (world : EdgeWorld) (plan : Plan) : Except EdgeWorldError Bool := do
  let states ← plan.states.mapM variableOf
  if states.head? == some 0 && (states.getLast?.map world.isGoal).getD false then
    world.follows states.length plan.actions states
  else pure false

end EdgeWorld

/-- The identifiers of the actions of a plan. -/
def Plan.actionIds (plan : Plan) : List UInt32 := plan.actions.map (·.id)

/-- The names of the actions of a plan. -/
def Plan.actionNames (plan : Plan) : List String := plan.actions.map (·.name)

end LayeredPlanning
