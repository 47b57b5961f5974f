import LayeredPlanning.Domain.Action
import LayeredPlanning.Domain.Direction
import LayeredPlanning.Domain.StateSet
import LayeredPlanning.Order.SortedMap

/-!
# Transition relations

A `Transition` holds the edges that one action induces, indexed from both ends: a forward search
reads the successors, a backward search the predecessors.  `Consistent` says that the two indexes
hold the same edges; `addEdge` keeps that so.
-/

namespace LayeredPlanning

/-- For each state the states at the other end of its edges. -/
abbrev Neighbours : Type := SortedMap State StateSet

namespace Neighbours

/-- The neighbours of `s`. -/
def of (index : Neighbours) (s : State) : StateSet := (index.get? s).getD ∅

/-- Records `t` as a neighbour of `s`. -/
def link (index : Neighbours) (s t : State) : Neighbours :=
  index.alter s fun known ↦ some ((known.getD ∅).insert t)

/-- The neighbours of all members of a set. -/
def follow (index : Neighbours) (S : StateSet) : StateSet :=
  .unions (S.toList.map index.of)

/-- Every state that is a neighbour of some state. -/
def range (index : Neighbours) : StateSet := .unions index.values

/-- The number of pairs of a state and a neighbour. -/
def pairCount (index : Neighbours) : Nat := index.values.foldr (fun S n ↦ S.size + n) 0

/-- Without edges there are no neighbours. -/
@[simp] theorem of_empty (s : State) : of ∅ s = ∅ := rfl

/-- A link adds one neighbour to one state. -/
theorem mem_of_link {index : Neighbours} {s t u v : State} :
    v ∈ (index.link s t).of u ↔ u = s ∧ v = t ∨ v ∈ index.of u := by
  rw [link, of, SortedMap.get?_alter]
  by_cases h : u = s
  · subst h
    simp [of]
  · simp [h, of]

/-- Following an index leads from members to their neighbours. -/
@[simp] theorem mem_follow {index : Neighbours} {S : StateSet} {t : State} :
    t ∈ index.follow S ↔ ∃ s ∈ S, t ∈ index.of s := by
  simp only [follow, StateSet.mem_unions, List.mem_map, StateSet.mem_toList]
  constructor
  · rintro ⟨_, ⟨s, hs, rfl⟩, ht⟩
    exact ⟨s, hs, ht⟩
  · rintro ⟨s, hs, ht⟩
    exact ⟨_, ⟨s, hs, rfl⟩, ht⟩

/-- Neighbours lie in the range. -/
theorem mem_range_of_mem {index : Neighbours} {s t : State} (h : t ∈ index.of s) :
    t ∈ index.range := by
  rw [of] at h
  cases hs : index.get? s with
  | none => simp [hs] at h
  | some T =>
    rw [hs] at h
    refine StateSet.mem_unions.mpr ⟨T, ?_, h⟩
    exact List.mem_map.mpr ⟨(s, T), SortedMap.get?_eq_some_iff.mp hs, rfl⟩

end Neighbours

/-- The edges that one action induces. -/
structure Transition where
  /-- The action. -/
  action : Action
  /-- Where the action leads from a state. -/
  successors : Neighbours
  /-- From where the action leads to a state. -/
  predecessors : Neighbours
deriving DecidableEq

namespace Transition

/-- The relation of an action without edges. -/
def ofAction (action : Action) : Transition := ⟨action, ∅, ∅⟩

/-- Records that the action leads from `s` to `t`. -/
def addEdge (r : Transition) (s t : State) : Transition :=
  { r with successors := r.successors.link s t, predecessors := r.predecessors.link t s }

/-- The relation of an action with the listed edges. -/
def ofEdges (action : Action) (edges : List (State × State)) : Transition :=
  edges.foldl (fun r e ↦ r.addEdge e.1 e.2) (ofAction action)

/-- The number of different edges. -/
def edgeCount (r : Transition) : Nat := r.successors.pairCount

/-- The states that the action reaches from a member of `S`. -/
def image (r : Transition) (S : StateSet) : StateSet := r.successors.follow S

/-- The states from which the action reaches a member of `S`. -/
def preimage (r : Transition) (S : StateSet) : StateSet := r.predecessors.follow S

/-- The states one step further on in direction `d`. -/
def step (r : Transition) : Direction → StateSet → StateSet
  | .forward => r.image
  | .backward => r.preimage

/-- Every state to which a step in direction `d` can lead. -/
def range (r : Transition) : Direction → StateSet
  | .forward => r.successors.range
  | .backward => r.predecessors.range

/-- The action leads from `s` to `t`. -/
def HasEdge (r : Transition) (s t : State) : Prop := t ∈ r.successors.of s

instance instDecidableHasEdge (r : Transition) (s t : State) : Decidable (r.HasEdge s t) :=
  inferInstanceAs (Decidable (t ∈ r.successors.of s))

/-- Both indexes hold the same edges. -/
def Consistent (r : Transition) : Prop := ∀ s t, r.HasEdge s t ↔ s ∈ r.predecessors.of t

/-- The image follows edges. -/
@[simp] theorem mem_image {r : Transition} {S : StateSet} {t : State} :
    t ∈ r.image S ↔ ∃ s ∈ S, r.HasEdge s t :=
  Neighbours.mem_follow

/-- The preimage follows edges backwards where the indexes agree. -/
theorem Consistent.mem_preimage {r : Transition} (h : r.Consistent) {S : StateSet} {s : State} :
    s ∈ r.preimage S ↔ ∃ t ∈ S, r.HasEdge s t := by
  rw [preimage, Neighbours.mem_follow]
  exact exists_congr fun t ↦ and_congr_right fun _ ↦ (h s t).symm

/-- A step ends in the range. -/
theorem mem_range_of_mem_step {r : Transition} {d : Direction} {S : StateSet} {t : State}
    (h : t ∈ r.step d S) : t ∈ r.range d := by
  cases d with
  | forward =>
    obtain ⟨s, _, hs⟩ := Neighbours.mem_follow.mp h
    exact Neighbours.mem_range_of_mem hs
  | backward =>
    obtain ⟨s, _, hs⟩ := Neighbours.mem_follow.mp h
    exact Neighbours.mem_range_of_mem hs

/-- Without edges there is nothing to disagree about. -/
theorem consistent_ofAction (action : Action) : (ofAction action).Consistent :=
  fun s t ↦ by simp [HasEdge, ofAction]

/-- An added edge is in both indexes. -/
theorem Consistent.addEdge {r : Transition} (h : r.Consistent) (s t : State) :
    (r.addEdge s t).Consistent := by
  intro u v
  have := h u v
  rw [HasEdge] at this
  simp only [HasEdge, Transition.addEdge, Neighbours.mem_of_link, this]
  exact or_congr_left and_comm

/-- A relation made from a list of edges is consistent. -/
theorem consistent_ofEdges (action : Action) (edges : List (State × State)) :
    (ofEdges action edges).Consistent := by
  have foldl_consistent : ∀ {r : Transition}, r.Consistent →
      (edges.foldl (fun r e ↦ r.addEdge e.1 e.2) r).Consistent := by
    induction edges with
    | nil => exact id
    | cons e edges ih => exact fun h ↦ ih (h.addEdge e.1 e.2)
  exact foldl_consistent (consistent_ofAction action)

/-- Adding an edge keeps the action. -/
@[simp] theorem action_addEdge (r : Transition) (s t : State) :
    (r.addEdge s t).action = r.action := rfl

/-- A relation made from a list of edges has the given action. -/
@[simp] theorem action_ofEdges (action : Action) (edges : List (State × State)) :
    (ofEdges action edges).action = action := by
  have foldl_action : ∀ r : Transition,
      (edges.foldl (fun r e ↦ r.addEdge e.1 e.2) r).action = r.action := by
    induction edges with
    | nil => exact fun _ ↦ rfl
    | cons e edges ih => exact fun r ↦ ih (r.addEdge e.1 e.2)
  exact foldl_action _

/-- A relation made from a list has the listed edges and no others. -/
theorem hasEdge_ofEdges {action : Action} {edges : List (State × State)} {s t : State} :
    (ofEdges action edges).HasEdge s t ↔ (s, t) ∈ edges := by
  have foldl_hasEdge : ∀ r : Transition,
      (edges.foldl (fun r e ↦ r.addEdge e.1 e.2) r).HasEdge s t ↔
        (s, t) ∈ edges ∨ r.HasEdge s t := by
    induction edges with
    | nil => simp
    | cons e edges ih =>
      intro r
      rw [List.foldl_cons, ih, List.mem_cons, or_assoc, or_left_comm]
      simp only [HasEdge, Transition.addEdge, Neighbours.mem_of_link, Prod.ext_iff]
  rw [ofEdges, foldl_hasEdge]
  simp [HasEdge, ofAction]

end Transition

end LayeredPlanning
