import LayeredPlanning.Proofs.Layers.Closing
import Mathlib.Data.Int.Interval
import Mathlib.Data.List.Sort

/-!
# The costs at which layers are closed

A search closes its layers at ascending costs: closing one puts its cost behind those of the layers
closed before (`Exact.grows`).  At each of these costs some state is closed (`ClosedLayers.Filled`),
so the costs lie between zero and the horizon, and there are not more than that leaves room for
(`length_closedCosts_le`).

`Underway` is what all states of a search have in common; an exhausted one has the layers up to the
horizon (`Underway.closed_eq_upTo`).
-/

namespace LayeredPlanning

namespace ClosedLayers

variable {closed : ClosedLayers} {c k : Int} {s : State}

theorem pairwise_closedCosts (closed : ClosedLayers) : closed.closedCosts.Pairwise (· < ·) :=
  List.pairwise_map.mpr closed.layers.ascending

/-- A state is closed at every cost at which a layer is recorded. -/
def Filled (closed : ClosedLayers) : Prop :=
  ∀ c ∈ closed.closedCosts, ∃ s, s ∈ closed.closedAt c

theorem filled_empty : (∅ : ClosedLayers).Filled := fun _ hc ↦ absurd hc List.not_mem_nil

theorem Filled.mem_closedCosts_iff (h : closed.Filled) :
    c ∈ closed.closedCosts ↔ ∃ s, s ∈ closed.closedAt c :=
  ⟨h c, fun ⟨_, hs⟩ ↦ mem_closedCosts_of_mem_closedAt hs⟩

theorem Filled.pushSublayer (h : closed.Filled) (L : StateSet) :
    (closed.pushSublayer k L).Filled := by
  intro c hc
  cases hempty : L.isEmpty with
  | true =>
    rw [ClosedLayers.pushSublayer, if_pos hempty] at hc ⊢
    exact h c hc
  | false =>
    obtain ⟨s, hs⟩ := StateSet.isEmpty_eq_false_iff.mp hempty
    rw [closedCosts, SortedMap.mem_keys_iff, ClosedLayers.pushSublayer,
      if_neg (by rw [hempty]; exact Bool.false_ne_true), SortedMap.get?_alter] at hc
    by_cases hck : c = k
    · exact ⟨s, mem_closedAt_pushSublayer.mpr (.inr ⟨hck, hs⟩)⟩
    · rw [if_neg hck] at hc
      obtain ⟨t, ht⟩ := h c (SortedMap.mem_keys_iff.mpr hc)
      exact ⟨t, mem_closedAt_pushSublayer.mpr (.inl ht)⟩

theorem Filled.pushSublayers (h : closed.Filled) (Ls : List StateSet) :
    (closed.pushSublayers k Ls).Filled := by
  rw [ClosedLayers.pushSublayers]
  induction Ls generalizing closed with
  | nil => exact h
  | cons L Ls ih => exact ih (h.pushSublayer L)

/-- A layer is recorded behind the others, which stay as they are. -/
structure Grows (closed : ClosedLayers) (k : Int) (layer : StateSet)
    (next : ClosedLayers) : Prop where
  closedCosts : next.closedCosts = closed.closedCosts ++ [k]
  closedAt : next.closedAt k = layer
  closedAt_of_mem : ∀ c ∈ closed.closedCosts, next.closedAt c = closed.closedAt c

end ClosedLayers

namespace LayerSearch

variable {task : Task} {d : Direction} {horizon : Int} {search next : LayerSearch task d horizon}
  {done c k : Int} {layer : StateSet}

theorem filled_start (task : Task) (d : Direction) (horizon : Int) :
    (start task d horizon).closed.Filled := by
  rw [start]
  split <;> exact ClosedLayers.filled_empty

theorem filled_closeNext? (hfilled : search.closed.Filled)
    (hclose : search.closeNext? = some ((k, layer), next)) : next.closed.Filled := by
  obtain ⟨frontier, rest, -, -, -, hclosed⟩ := closeNext?_eq_some hclose
  rw [hclosed]
  exact hfilled.pushSublayers _

/-- What is closed after a layer: what was closed before, and the layer. -/
theorem mem_closedAt_closeNext? (hclose : search.closeNext? = some ((k, layer), next)) {s : State} :
    s ∈ next.closed.closedAt c ↔ s ∈ search.closed.closedAt c ∨ c = k ∧ s ∈ layer := by
  obtain ⟨frontier, rest, -, rfl, -, hclosed⟩ := closeNext?_eq_some hclose
  rw [hclosed, ClosedLayers.mem_closedAt_pushSublayers]

namespace Exact

theorem bounds_of_mem_closedCosts (h : search.Exact done) (hfilled : search.closed.Filled)
    (hc : c ∈ search.closed.closedCosts) : 0 ≤ c ∧ c ≤ done := by
  obtain ⟨s, hs⟩ := hfilled c hc
  have hle : c ≤ done := by
    by_contra hlt
    exact h.notMem_closedAt c (Int.not_le.mp hlt) s hs
  exact ⟨((h.mem_closedAt c hle s).mp hs).cost_nonneg, hle⟩

/-- A layer that is closed has a state. -/
theorem exists_mem_layer (h : search.Exact done)
    (hclose : search.closeNext? = some ((k, layer), next)) : ∃ s, s ∈ layer := by
  obtain ⟨frontier, rest, hpop, rfl, -⟩ := closeNext?_eq_some hclose
  obtain ⟨hmem, -⟩ := h.of_popLeast? hpop
  obtain ⟨s, hs⟩ := h.occupied _ hmem
  rw [Agenda.waiting, SortedMap.get?_eq_some_iff.mpr hmem] at hs
  exact ⟨s, mem_layer_of_mem_frontier hs⟩

/-- The cost of a new layer lies above those of the layers before it. -/
theorem lt_of_mem_closedCosts (h : search.Exact done) (hfilled : search.closed.Filled)
    (hclose : search.closeNext? = some ((k, layer), next)) (hc : c ∈ search.closed.closedCosts) :
    c < k :=
  Int.lt_of_le_of_lt (h.bounds_of_mem_closedCosts hfilled hc).2 (h.closeNext hclose).2.1

/-- Closing a layer adds it behind the layers before it. -/
theorem grows (h : search.Exact done) (hfilled : search.closed.Filled)
    (hclose : search.closeNext? = some ((k, layer), next)) :
    search.closed.Grows k layer next.closed := by
  refine ⟨?_, ?_, fun c hc ↦ ?_⟩
  · have hbehind : (search.closed.closedCosts ++ [k]).Pairwise (· < ·) := by
      refine List.pairwise_append.mpr
        ⟨search.closed.pairwise_closedCosts, List.pairwise_singleton _ _, fun c hc l hl ↦ ?_⟩
      obtain rfl := List.mem_singleton.mp hl
      exact h.lt_of_mem_closedCosts hfilled hclose hc
    refine next.closed.pairwise_closedCosts.eq_of_mem_iff hbehind fun c ↦ ?_
    rw [(filled_closeNext? hfilled hclose).mem_closedCosts_iff, List.mem_append, List.mem_singleton,
      hfilled.mem_closedCosts_iff]
    simp only [mem_closedAt_closeNext? hclose, exists_or, exists_and_left,
      h.exists_mem_layer hclose, and_true]
  · ext s
    have hnew := h.notMem_closedAt k (h.closeNext hclose).2.1 s
    rw [mem_closedAt_closeNext? hclose, or_iff_right hnew, and_iff_right rfl]
  · ext s
    have hne : c ≠ k := Int.ne_of_lt (h.lt_of_mem_closedCosts hfilled hclose hc)
    rw [mem_closedAt_closeNext? hclose, or_iff_left fun hs ↦ hne hs.1]

end Exact

/-- There are no more layers than costs from zero up to the horizon. -/
theorem Exact.length_closedCosts_le (h : search.Exact done) (hfilled : search.closed.Filled)
    (hdone : done ≤ horizon) (hhorizon : 0 ≤ horizon) :
    (search.closed.closedCosts.length : Int) ≤ horizon + 1 := by
  have hnodup : search.closed.closedCosts.Nodup :=
    search.closed.pairwise_closedCosts.imp Int.ne_of_lt
  have hsubset : search.closed.closedCosts.toFinset ⊆ Finset.Icc 0 horizon := by
    intro c hc
    obtain ⟨hnonneg, hle⟩ := h.bounds_of_mem_closedCosts hfilled (List.mem_toFinset.mp hc)
    exact Finset.mem_Icc.mpr ⟨hnonneg, Int.le_trans hle hdone⟩
  have hcard := Finset.card_le_card hsubset
  rw [List.toFinset_card_of_nodup hnodup, Int.card_Icc] at hcard
  omega

/-! ## Searches on their way -/

theorem closeAll_of_closeNext? {closing : Int × StateSet}
    (hclose : search.closeNext? = some (closing, next)) : search.closeAll = next.closeAll := by
  rw [closeAll]
  split
  · next hnone =>
    rw [hclose] at hnone
    cases hnone
  · next hsome =>
    rw [hclose] at hsome
    cases hsome
    rfl

theorem closeAll_of_nextCost? (hnone : search.nextCost? = none) : search.closeAll = search := by
  rw [closeAll]
  split
  · rfl
  · next hsome =>
    rw [closeNext?_eq_none_iff.mpr hnone] at hsome
    cases hsome

theorem isExhausted_iff : search.isExhausted = true ↔ search.nextCost? = none := by
  rw [isExhausted, nextCost?, SortedMap.leastKey?, Option.map_eq_none_iff, List.head?_eq_none_iff]
  exact List.isEmpty_iff

/-- A search on its way from its start to its end. -/
structure Underway (search : LayerSearch task d horizon) : Prop where
  exact : ∃ done, -1 ≤ done ∧ done ≤ horizon ∧ search.Exact done
  filled : search.closed.Filled
  closeAll : search.closeAll = (start task d horizon).closeAll

namespace Underway

theorem start (task : Task) (d : Direction) (hhorizon : 0 ≤ horizon) :
    (start task d horizon).Underway :=
  ⟨⟨-1, Int.le_refl _, by omega, exact_start task d hhorizon⟩,
    filled_start task d horizon, rfl⟩

theorem closeNext (h : search.Underway) (hclose : search.closeNext? = some ((k, layer), next)) :
    next.Underway := by
  obtain ⟨done, hone, -, hdone⟩ := h.exact
  obtain ⟨hnext, hlt, -⟩ := hdone.closeNext hclose
  refine ⟨⟨k, by omega, le_horizon_of_nextCost? (nextCost?_of_closeNext? hclose), hnext⟩,
    filled_closeNext? h.filled hclose, ?_⟩
  rw [← closeAll_of_closeNext? hclose, h.closeAll]

theorem grows (h : search.Underway) (hclose : search.closeNext? = some ((k, layer), next)) :
    search.closed.Grows k layer next.closed := by
  obtain ⟨done, -, -, hdone⟩ := h.exact
  exact hdone.grows h.filled hclose

/-- The next layer costs more than those before, but no more than the horizon. -/
theorem bounds_of_closeNext? (h : search.Underway)
    (hclose : search.closeNext? = some ((k, layer), next)) :
    0 ≤ k ∧ k ≤ horizon ∧ ∀ c ∈ search.closed.closedCosts, c < k := by
  obtain ⟨done, hone, -, hdone⟩ := h.exact
  have hlt := (hdone.closeNext hclose).2.1
  exact ⟨by omega, le_horizon_of_nextCost? (nextCost?_of_closeNext? hclose),
    fun c hc ↦ hdone.lt_of_mem_closedCosts h.filled hclose hc⟩

theorem bounds_of_mem_closedCosts (h : search.Underway) (hc : c ∈ search.closed.closedCosts) :
    0 ≤ c ∧ c ≤ search.closedThrough := by
  obtain ⟨done, -, hle, hdone⟩ := h.exact
  obtain ⟨hnonneg, hc⟩ := hdone.bounds_of_mem_closedCosts h.filled hc
  exact ⟨hnonneg, Int.le_trans hc (hdone.le_closedThrough hle)⟩

theorem length_closedCosts_le (h : search.Underway) (hhorizon : 0 ≤ horizon) :
    (search.closed.closedCosts.length : Int) ≤ horizon + 1 := by
  obtain ⟨done, -, hle, hdone⟩ := h.exact
  exact hdone.length_closedCosts_le h.filled hle hhorizon

/-- At its end a search has closed the layers up to the horizon. -/
theorem closed_eq_upTo (h : search.Underway) (hnone : search.nextCost? = none) :
    search.closed = .upTo task d horizon := by
  rw [ClosedLayers.upTo, ← h.closeAll, closeAll_of_nextCost? hnone]

end Underway

end LayerSearch

end LayeredPlanning
