import LayeredPlanning.Domain.Transition
import Mathlib.Data.List.Dedup
import Mathlib.Data.List.Induction
import Mathlib.Data.List.Nodup
import Mathlib.Data.Prod.Basic

/-!
# The edges of a relation

A relation keeps its edges twice: in an index of successors, which the searches read forwards, and
in one of predecessors, which they read backwards.  Both come about in the same way, pair by pair
(`Neighbours.ofPairs`), the second one from the pairs turned round.  So what is proved of one index
holds of both: its pairs are those that were linked, each of them once
(`Neighbours.perm_pairs_ofPairs`), and neither the order nor the repetition of the links can be told
from it (`Neighbours.ofPairs_eq_iff`).

`Transition.edges_of_ofEdges` puts this together for the two indexes.
-/

namespace LayeredPlanning

namespace Neighbours

variable {index other : Neighbours} {s t : State} {ps qs : List (State × State)}

/-! ## The pairs of an index -/

/-- The pairs of a state and a neighbour. -/
def pairs (index : Neighbours) : List (State × State) :=
  index.entries.flatMap fun e ↦ e.2.toList.map (e.1, ·)

theorem mem_of_iff : t ∈ index.of s ↔ ∃ T, index.get? s = some T ∧ t ∈ T := by
  rw [of]
  cases index.get? s <;> simp

theorem mem_pairs : (s, t) ∈ index.pairs ↔ t ∈ index.of s := by
  simp only [pairs, mem_of_iff, SortedMap.get?_eq_some_iff, List.mem_flatMap, List.mem_map,
    StateSet.mem_toList, Prod.mk.injEq]
  constructor
  · rintro ⟨⟨_, T⟩, he, _, ht, rfl, rfl⟩
    exact ⟨T, he, ht⟩
  · rintro ⟨T, he, ht⟩
    exact ⟨(s, T), he, t, ht, rfl, rfl⟩

theorem nodup_pairs (index : Neighbours) : index.pairs.Nodup := by
  refine List.nodup_flatMap.mpr ⟨?_, ?_⟩
  · intro e _
    exact e.2.nodup_toList.map fun _ _ heq ↦ (Prod.mk.inj heq).2
  · refine index.ascending.imp fun {d e} hlt ↦ ?_
    intro p hd he
    obtain ⟨_, _, rfl⟩ := List.mem_map.mp hd
    obtain ⟨_, _, heq⟩ := List.mem_map.mp he
    exact StrictOrder.ne hlt (Prod.mk.inj heq).1.symm

theorem length_pairs (index : Neighbours) : index.pairs.length = index.pairCount := by
  rw [pairs, pairCount, SortedMap.values]
  induction index.entries with
  | nil => rfl
  | cons e es ih =>
    rw [List.flatMap_cons, List.length_append, List.length_map, ih, List.map_cons, List.foldr_cons]
    rfl

/-! ## Indexes that are linked pair by pair -/

/-- The index in which the listed pairs are linked. -/
def ofPairs (ps : List (State × State)) : Neighbours :=
  ps.foldl (fun index p ↦ index.link p.1 p.2) ∅

theorem ofPairs_concat (ps : List (State × State)) (p : State × State) :
    ofPairs (ps ++ [p]) = (ofPairs ps).link p.1 p.2 := by
  rw [ofPairs, List.foldl_append]
  rfl

theorem mem_of_ofPairs : t ∈ (ofPairs ps).of s ↔ (s, t) ∈ ps := by
  induction ps using List.reverseRecOn with
  | nil => simp [ofPairs]
  | append_singleton ps p ih =>
    rw [ofPairs_concat, mem_of_link, ih, List.mem_append, List.mem_singleton, Prod.ext_iff, or_comm]

/-- No state is listed without a neighbour. -/
def Occupied (index : Neighbours) : Prop := ∀ s T, index.get? s = some T → ∃ t, t ∈ T

theorem Occupied.link (h : index.Occupied) (s t : State) : (index.link s t).Occupied := by
  intro u T hT
  rw [Neighbours.link, SortedMap.get?_alter] at hT
  split at hT
  · obtain rfl := Option.some.inj hT
    exact ⟨t, StateSet.mem_insert.mpr (.inl rfl)⟩
  · exact h u T hT

theorem occupied_ofPairs (ps : List (State × State)) : (ofPairs ps).Occupied := by
  induction ps using List.reverseRecOn with
  | nil => exact fun _ _ hT ↦ nomatch hT
  | append_singleton ps p ih =>
    rw [ofPairs_concat]
    exact ih.link p.1 p.2

/-- What is bound to a state can then be told from its neighbours. -/
theorem Occupied.get?_eq (h : index.Occupied) (s : State) :
    index.get? s = if (index.of s).isEmpty = true then none else some (index.of s) := by
  rw [of]
  cases hs : index.get? s with
  | none => rfl
  | some T =>
    exact (if_neg (Bool.eq_false_iff.mp (StateSet.isEmpty_eq_false_iff.mpr (h s T hs)))).symm

/-- Indexes with the same neighbours are equal, as long as no state is listed without any. -/
theorem Occupied.ext (h : index.Occupied) (h' : other.Occupied)
    (hmem : ∀ s t, t ∈ index.of s ↔ t ∈ other.of s) : index = other := by
  refine SortedMap.ext_get? fun s ↦ ?_
  rw [h.get?_eq, h'.get?_eq, StateSet.ext (hmem s)]

/-- An index holds the linked pairs, each of them once. -/
theorem perm_pairs_ofPairs (ps : List (State × State)) : (ofPairs ps).pairs.Perm ps.dedup := by
  refine (List.perm_ext_iff_of_nodup (nodup_pairs _) (List.nodup_dedup ps)).mpr ?_
  rintro ⟨s, t⟩
  rw [List.mem_dedup, mem_pairs, mem_of_ofPairs]

/-- Neither the order nor the repetition of links matters. -/
theorem ofPairs_eq_iff : ofPairs ps = ofPairs qs ↔ ∀ p, p ∈ ps ↔ p ∈ qs := by
  constructor
  · rintro heq ⟨s, t⟩
    rw [← mem_of_ofPairs, heq, mem_of_ofPairs]
  · intro hmem
    refine (occupied_ofPairs ps).ext (occupied_ofPairs qs) fun s t ↦ ?_
    rw [mem_of_ofPairs, mem_of_ofPairs, hmem]

end Neighbours

namespace Transition

variable {action : Action} {edges : List (State × State)} {s t : State}

/-- The relation has the listed edges in its successors, and the edges turned round in its
predecessors. -/
theorem ofEdges_eq (action : Action) (edges : List (State × State)) :
    ofEdges action edges = ⟨action, .ofPairs edges, .ofPairs (edges.map Prod.swap)⟩ := by
  induction edges using List.reverseRecOn with
  | nil => rfl
  | append_singleton edges e ih =>
    have hconcat : ofEdges action (edges ++ [e]) = (ofEdges action edges).addEdge e.1 e.2 := by
      rw [ofEdges, List.foldl_append]
      rfl
    rw [hconcat, ih, List.map_append, List.map_singleton, Neighbours.ofPairs_concat,
      Neighbours.ofPairs_concat]
    rfl

theorem mem_image_ofEdges {S : StateSet} :
    t ∈ (ofEdges action edges).image S ↔ ∃ s ∈ S, (s, t) ∈ edges := by
  rw [mem_image]
  exact exists_congr fun s ↦ and_congr_right fun _ ↦ hasEdge_ofEdges

theorem mem_preimage_ofEdges {S : StateSet} :
    s ∈ (ofEdges action edges).preimage S ↔ ∃ t ∈ S, (s, t) ∈ edges := by
  rw [(consistent_ofEdges action edges).mem_preimage]
  exact exists_congr fun t ↦ and_congr_right fun _ ↦ hasEdge_ofEdges

/-- The indexes of a relation hold the edges that were added, each of them once.  Its image leads
along them and its preimage back, so a state is in the image of another exactly if that one is in
its preimage.  Two histories lead to equal relations exactly if they have added the same edges, in
whatever order and however often. -/
theorem edges_of_ofEdges (action : Action) (edges : List (State × State)) :
    (∀ S t, t ∈ (ofEdges action edges).image S ↔ ∃ s ∈ S, (s, t) ∈ edges) ∧
    (∀ S s, s ∈ (ofEdges action edges).preimage S ↔ ∃ t ∈ S, (s, t) ∈ edges) ∧
    (∀ s t, t ∈ (ofEdges action edges).image (.singleton s) ↔
      s ∈ (ofEdges action edges).preimage (.singleton t)) ∧
    (ofEdges action edges).edgeCount = edges.dedup.length ∧
    (ofEdges action edges).successors.pairs.Perm edges.dedup ∧
    ((ofEdges action edges).predecessors.pairs.map Prod.swap).Perm edges.dedup ∧
    ∀ edges', ofEdges action edges' = ofEdges action edges ↔
      ∀ e, e ∈ edges' ↔ e ∈ edges := by
  have hsuccessors : (ofEdges action edges).successors.pairs.Perm edges.dedup := by
    rw [ofEdges_eq]
    exact Neighbours.perm_pairs_ofPairs edges
  have hpredecessors :
      ((ofEdges action edges).predecessors.pairs.map Prod.swap).Perm edges.dedup := by
    have hswap := (Neighbours.perm_pairs_ofPairs (edges.map Prod.swap)).map Prod.swap
    rw [← List.dedup_map_of_injective Prod.swap_injective, List.map_map, Prod.swap_swap_eq,
      List.map_id] at hswap
    rw [ofEdges_eq]
    exact hswap
  refine ⟨fun S t ↦ mem_image_ofEdges, fun S s ↦ mem_preimage_ofEdges, fun s t ↦ ?_, ?_,
    hsuccessors, hpredecessors, fun edges' ↦ ?_⟩
  · simp only [mem_image_ofEdges, mem_preimage_ofEdges, StateSet.mem_singleton, exists_eq_left]
  · rw [edgeCount, ← Neighbours.length_pairs, hsuccessors.length_eq]
  · constructor
    · rintro heq ⟨s, t⟩
      have hedge : (ofEdges action edges').HasEdge s t ↔ (ofEdges action edges).HasEdge s t := by
        rw [heq]
      rwa [hasEdge_ofEdges, hasEdge_ofEdges] at hedge
    · intro hmem
      have hturned : ∀ p, p ∈ edges'.map Prod.swap ↔ p ∈ edges.map Prod.swap := by
        intro p
        simp only [List.mem_map, hmem]
      rw [ofEdges_eq, ofEdges_eq, Neighbours.ofPairs_eq_iff.mpr hmem,
        Neighbours.ofPairs_eq_iff.mpr hturned]

end Transition

end LayeredPlanning
