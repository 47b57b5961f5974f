import LayeredPlanning.Proofs.Layers.Sublayers

/-!
# Closing layer after layer

A search goes on at the cost behind `closedThrough`, so the layers up to there stay as they are
(`sublayers_closeMany`) and the costs at which it closes layers ascend (`lt_of_closeNext?`).  What
`Exact` says of the closed states, `Sorted` says of the sub-layers; both hold after any number of
calls.

`closeMany_followPaths` puts this together: whatever the number of calls, the closed layers are what
the paths of the task say they are.
-/

namespace LayeredPlanning

namespace ClosedLayers

variable {closed : ClosedLayers} {c k : Int}

theorem sublayers_pushSublayer (L : StateSet) :
    (closed.pushSublayer k L).sublayers c =
      if c = k then closed.sublayers k ++ [L].filter (!·.isEmpty) else closed.sublayers c := by
  by_cases hc : c = k
  · subst hc
    cases hL : L.isEmpty <;> simp [pushSublayer, sublayers, SortedMap.get?_alter, hL]
  · rw [if_neg hc, pushSublayer]
    split
    · rfl
    · rw [sublayers, SortedMap.get?_alter, if_neg hc, sublayers]

/-- The sub-layers that are not empty are put behind those recorded before. -/
theorem sublayers_pushSublayers (Ls : List StateSet) :
    (closed.pushSublayers k Ls).sublayers c =
      if c = k then closed.sublayers k ++ Ls.filter (!·.isEmpty) else closed.sublayers c := by
  rw [pushSublayers]
  induction Ls generalizing closed with
  | nil =>
    split
    · next hc => simp [hc]
    · rfl
  | cons L Ls ih =>
    rw [List.foldl_cons, ih]
    simp only [sublayers_pushSublayer, if_true]
    split
    · rw [List.append_assoc, ← List.filter_append, List.singleton_append]
    · rfl

end ClosedLayers

namespace LayerSearch

variable {task : Task} {d : Direction} {horizon : Int}
  {search next : LayerSearch task d horizon} {done c k : Int} {s : State} {layer : StateSet}

/-! ## Sorted sub-layers -/

/-- At the costs up to `done`, the sub-layers are in the order of the least number of free steps
since the last paid one; beyond there are none. -/
structure Sorted (search : LayerSearch task d horizon) (done : Int) : Prop where
  mem_sublayer : ∀ c ≤ done, ∀ i s,
    (∃ L, (search.closed.sublayers c)[i]? = some L ∧ s ∈ L) ↔
      IsLeast {n | ReachedIn task d s c n} i
  sublayers_eq_nil : ∀ c, done < c → search.closed.sublayers c = []
  exists_mem : ∀ c, ∀ L ∈ search.closed.sublayers c, ∃ s, s ∈ L

/-- Before the first layer there are no sub-layers. -/
theorem sorted_start (task : Task) (d : Direction) (horizon : Int) :
    (start task d horizon).Sorted (-1) := by
  have hnil : ∀ c, (start task d horizon).closed.sublayers c = [] := by
    intro c
    rw [start]
    split <;> rfl
  refine ⟨fun c hc i s ↦ ?_, fun c _ ↦ hnil c, fun c L hL ↦ ?_⟩
  · refine iff_of_false (by simp [hnil c]) fun hs ↦ ?_
    have := hs.1.reachedAt.cost_nonneg
    omega
  · rw [hnil c] at hL
    exact absurd hL List.not_mem_nil

/-- The frontier of a layer holds the states that are reached without a free step at last. -/
theorem Exact.mem_frontier_iff_reachedIn (h : search.Exact done) {frontier : StateSet}
    {rest : Agenda} (hpop : search.agenda.popLeast? = some ((k, frontier), rest)) :
    s ∈ frontier ↔ ReachedIn task d s k 0 := by
  rw [h.mem_frontier_iff hpop]
  constructor
  · rintro (⟨rfl, hs⟩ | ⟨t, b, ht, _, r, hr, rfl, hs⟩)
    · exact .root hs
    · obtain ⟨n, ht⟩ := ht.exists_reachedIn
      exact ht.paid hr hs
  · intro hs
    cases hs with
    | root hs => exact .inl ⟨rfl, hs⟩
    | @paid t _ b n r ht hr hs =>
      have hcost := (TransitionTable.mem_paid.mp hr).2
      have hb := (h.of_popLeast? hpop).2.2.2 b t ht.reachedAt (by omega)
      exact .inr ⟨t, b, ht.reachedAt, hb, r, hr, rfl, hs⟩

/-- Closing a layer sorts its sub-layers and leaves the others alone. -/
theorem Sorted.closeNext (hs : search.Sorted done) (h : search.Exact done)
    (hclose : search.closeNext? = some ((k, layer), next)) : next.Sorted k := by
  obtain ⟨frontier, rest, hpop, -, -, hclosed⟩ := closeNext?_eq_some hclose
  obtain ⟨hmem, hk, -, hgap⟩ := h.of_popLeast? hpop
  have hinhabited : ∀ L ∈ sublayersFrom task d frontier, ∃ s, s ∈ L := by
    intro L hL
    rcases List.mem_cons.mp hL with rfl | hL
    · obtain ⟨s, hs⟩ := h.occupied _ hmem
      rw [Agenda.waiting, SortedMap.get?_eq_some_iff.mpr hmem] at hs
      exact ⟨s, hs⟩
    · exact exists_mem_of_mem_freeRounds hL
  have hkept : (sublayersFrom task d frontier).filter (!·.isEmpty) =
      sublayersFrom task d frontier :=
    List.filter_eq_self.mpr fun L hL ↦ by
      rw [StateSet.isEmpty_eq_false_iff.mpr (hinhabited L hL), Bool.not_false]
  have hsublayers : ∀ c, next.closed.sublayers c =
      if c = k then sublayersFrom task d frontier else search.closed.sublayers c := by
    intro c
    rw [hclosed, ClosedLayers.sublayers_pushSublayers, hs.sublayers_eq_nil k hk, hkept,
      List.nil_append]
  refine ⟨fun c hc i s ↦ ?_, fun c hc ↦ ?_, fun c L hL ↦ ?_⟩
  · rw [hsublayers]
    split
    · next hck =>
      subst hck
      exact mem_getElem?_sublayersFrom (fun n t ↦ ReachedIn.succ_iff)
        (fun s ↦ h.mem_frontier_iff_reachedIn hpop) i
    · next hck =>
      by_cases hdone : c ≤ done
      · exact hs.mem_sublayer c hdone i s
      -- Nothing is reached at the costs that the search has passed over.
      refine iff_of_false (by simp [hs.sublayers_eq_nil c (by omega)]) fun hleast ↦ hdone ?_
      exact hgap c s hleast.1.reachedAt (by omega)
  · rw [hsublayers, if_neg (by omega)]
    exact hs.sublayers_eq_nil c (by omega)
  · rw [hsublayers] at hL
    split at hL
    · exact hinhabited L hL
    · exact hs.exists_mem c L hL

/-! ## Many calls -/

/-- The closed layers are exact and sorted, up to some cost within the horizon. -/
def Sound (search : LayerSearch task d horizon) : Prop :=
  ∃ done ≤ horizon, search.Exact done ∧ search.Sorted done

theorem sound_start (task : Task) (d : Direction) (hhorizon : 0 ≤ horizon) :
    (start task d horizon).Sound :=
  ⟨-1, by omega, exact_start task d hhorizon, sorted_start task d horizon⟩

theorem Sound.closeNext (h : search.Sound) (hclose : search.closeNext? = some ((k, layer), next)) :
    next.Sound := by
  obtain ⟨done, -, hexact, hsorted⟩ := h
  exact ⟨k, le_horizon_of_nextCost? (nextCost?_of_closeNext? hclose), (hexact.closeNext hclose).1,
    hsorted.closeNext hexact hclose⟩

theorem closeMany_of_closeNext?_eq_none (h : search.closeNext? = none) (n : Nat) :
    search.closeMany n = search := by
  cases n with
  | zero => rfl
  | succ n => rw [closeMany, h]

theorem closeMany_succ (hclose : search.closeNext? = some ((k, layer), next)) (n : Nat) :
    search.closeMany (n + 1) = next.closeMany n := by
  rw [closeMany, hclose]

theorem closeMany_add (search : LayerSearch task d horizon) (m n : Nat) :
    search.closeMany (m + n) = (search.closeMany m).closeMany n := by
  induction m generalizing search with
  | zero => rw [Nat.zero_add, closeMany]
  | succ m ih =>
    cases hclose : search.closeNext? with
    | none => rw [closeMany_of_closeNext?_eq_none hclose, closeMany_of_closeNext?_eq_none hclose,
        closeMany_of_closeNext?_eq_none hclose]
    | some closing => rw [Nat.succ_add, closeMany_succ hclose, closeMany_succ hclose, ih]

theorem Sound.closeMany (h : search.Sound) (n : Nat) : (search.closeMany n).Sound := by
  induction n generalizing search with
  | zero => exact h
  | succ n ih =>
    cases hclose : search.closeNext? with
    | none => rwa [closeMany_of_closeNext?_eq_none hclose]
    | some closing =>
      rw [closeMany_succ hclose]
      exact ih (h.closeNext hclose)

/-- A search goes on at the cost behind `closedThrough`. -/
theorem closedThrough_of_closeNext? (hclose : search.closeNext? = some ((k, layer), next)) :
    search.closedThrough = k - 1 := by
  rw [closedThrough, nextCost?_of_closeNext? hclose]

theorem Sound.le_closedThrough_of_closeNext? (h : search.Sound)
    (hclose : search.closeNext? = some ((k, layer), next)) : k ≤ next.closedThrough := by
  obtain ⟨done, -, hexact, -⟩ := h
  exact (hexact.closeNext hclose).1.le_closedThrough
    (le_horizon_of_nextCost? (nextCost?_of_closeNext? hclose))

theorem Sound.closedThrough_le_closeMany (h : search.Sound) (n : Nat) :
    search.closedThrough ≤ (search.closeMany n).closedThrough := by
  induction n generalizing search with
  | zero => exact Int.le_refl _
  | succ n ih =>
    cases hclose : search.closeNext? with
    | none => rw [closeMany_of_closeNext?_eq_none hclose]
    | some closing =>
      have hthrough := closedThrough_of_closeNext? hclose
      have hnext := h.le_closedThrough_of_closeNext? hclose
      have := ih (h.closeNext hclose)
      rw [closeMany_succ hclose]
      omega

/-- Later calls leave alone what is closed up to `closedThrough`. -/
theorem Sound.sublayers_closeMany (h : search.Sound) (hc : c ≤ search.closedThrough) (n : Nat) :
    (search.closeMany n).closed.sublayers c = search.closed.sublayers c := by
  induction n generalizing search with
  | zero => rfl
  | succ n ih =>
    cases hclose : search.closeNext? with
    | none => rw [closeMany_of_closeNext?_eq_none hclose]
    | some closing =>
      have hthrough := closedThrough_of_closeNext? hclose
      have hnext := h.le_closedThrough_of_closeNext? hclose
      obtain ⟨frontier, rest, -, -, -, hclosed⟩ := closeNext?_eq_some hclose
      rw [closeMany_succ hclose, ih (h.closeNext hclose) (by omega), hclosed,
        ClosedLayers.sublayers_pushSublayers, if_neg (by omega)]

/-- The costs at which layers are closed ascend. -/
theorem Sound.lt_of_closeNext? (h : search.Sound) {m n : Nat} (hmn : m < n) {k l : Int}
    {K L : StateSet} {next next' : LayerSearch task d horizon}
    (hm : (search.closeMany m).closeNext? = some ((k, K), next))
    (hn : (search.closeMany n).closeNext? = some ((l, L), next')) : k < l := by
  -- After the earlier call all is closed up to `k`, and the later one goes on behind that.
  obtain ⟨j, rfl⟩ := Nat.exists_eq_add_of_lt hmn
  rw [Nat.add_assoc, closeMany_add, closeMany_succ hm] at hn
  have hnext := (h.closeMany m).le_closedThrough_of_closeNext? hm
  have hlater := ((h.closeMany m).closeNext hm).closedThrough_le_closeMany j
  have hthrough := closedThrough_of_closeNext? hn
  omega

end LayerSearch

/-! ## Layers and paths -/

/-- Up to a cost, closed layers are what the paths of the task say; beyond that cost nothing is
closed. -/
structure ClosedLayers.FollowPaths (closed : ClosedLayers) (task : Task) (d : Direction)
    (bound : Int) : Prop where
  /-- A state is closed at the costs of the paths that join it to the root. -/
  mem_closedAt : ∀ c ≤ bound, ∀ s,
    s ∈ closed.closedAt c ↔ ∃ es, task.Joins d s es ∧ pathCost es = c
  closedAt_eq_empty : ∀ c, bound < c → closed.closedAt c = ∅
  /-- The sub-layers count the free steps since the last paid one, or since the root. -/
  mem_sublayer : ∀ c ≤ bound, ∀ i s,
    (∃ L, (closed.sublayers c)[i]? = some L ∧ s ∈ L) ↔
      IsLeast {n | ∃ es, task.Joins d s es ∧ pathCost es = c ∧ freeTail d es = n} i
  exists_mem_sublayer : ∀ c, ∀ L ∈ closed.sublayers c, ∃ s, s ∈ L
  disjoint_sublayers : ∀ c, (closed.sublayers c).Pairwise fun L M ↦ ∀ s ∈ L, s ∉ M

namespace LayerSearch

variable {task : ExplicitTask} {d : Direction} {horizon : Int}
  {search : LayerSearch task.toTask d horizon}

theorem Sound.followPaths (h : search.Sound) :
    search.closed.FollowPaths task.toTask d search.closedThrough := by
  obtain ⟨done, hdone, hexact, hsorted⟩ := h
  have hle := hexact.le_closedThrough hdone
  have hmem : ∀ c ≤ search.closedThrough, ∀ s,
      s ∈ search.closed.closedAt c ↔ ReachedAt task.toTask d s c :=
    fun c hc s ↦ hexact.mem_closedAt_iff hc
  have hleast : ∀ c ≤ search.closedThrough, ∀ i s,
      (∃ L, (search.closed.sublayers c)[i]? = some L ∧ s ∈ L) ↔
        IsLeast {n | ReachedIn task.toTask d s c n} i := by
    intro c hc i s
    by_cases hcd : c ≤ done
    · exact hsorted.mem_sublayer c hcd i s
    · refine iff_of_false (by simp [hsorted.sublayers_eq_nil c (by omega)]) fun hs ↦ ?_
      exact hexact.notMem_closedAt c (by omega) s ((hmem c hc s).mpr hs.1.reachedAt)
  refine ⟨fun c hc s ↦ ?_, fun c hc ↦ ?_, fun c hc i s ↦ ?_,
    hsorted.exists_mem, fun c ↦ ?_⟩
  · rw [hmem c hc, reachedAt_iff_exists_joins]
  · rw [ClosedLayers.closedAt, hsorted.sublayers_eq_nil c (by omega)]
    rfl
  · simp only [hleast c hc, ReachedIn.iff_exists_joins]
  · rw [List.pairwise_iff_getElem]
    intro i j hi hj hij s hs hs'
    by_cases hc : c ≤ done
    · have hi := (hsorted.mem_sublayer c hc i s).mp ⟨_, List.getElem?_eq_getElem hi, hs⟩
      have hj := (hsorted.mem_sublayer c hc j s).mp ⟨_, List.getElem?_eq_getElem hj, hs'⟩
      exact absurd (hi.unique hj) (Nat.ne_of_lt hij)
    · simp [hsorted.sublayers_eq_nil c (by omega)] at hi

/-- Layers are closed at ascending costs, and after any number of calls the closed layers are what
the paths of the task say they are, up to `closedThrough` and within the horizon.  What is closed up
to there is final. -/
theorem closeMany_followPaths (task : ExplicitTask) (d : Direction) (hhorizon : 0 ≤ horizon) :
    let search := start task.toTask d horizon
    (∀ m n k l K L next next', m < n →
      (search.closeMany m).closeNext? = some ((k, K), next) →
      (search.closeMany n).closeNext? = some ((l, L), next') → k < l) ∧
    ∀ n, (search.closeMany n).closedThrough ≤ horizon ∧
      (search.closeMany n).closed.FollowPaths task.toTask d (search.closeMany n).closedThrough ∧
      ∀ c ≤ (search.closeMany n).closedThrough, ∀ m,
        (search.closeMany (n + m)).closed.sublayers c = (search.closeMany n).closed.sublayers c ∧
        (search.closeMany (n + m)).closed.closedAt c = (search.closeMany n).closed.closedAt c := by
  have hstart := sound_start task.toTask d hhorizon
  refine ⟨fun m n k l K L next next' hmn hm hn ↦ hstart.lt_of_closeNext? hmn hm hn,
    fun n ↦ ?_⟩
  have hn := hstart.closeMany n
  refine ⟨closedThrough_le_horizon _, hn.followPaths, fun c hc m ↦ ?_⟩
  have hkept := hn.sublayers_closeMany hc m
  rw [← closeMany_add] at hkept
  exact ⟨hkept, by rw [ClosedLayers.closedAt, hkept, ClosedLayers.closedAt]⟩

/-- The goal of the cycle is one free step behind the paid one, however often the cycle is
walked. -/
theorem cycle_isLeast_freeTail :
    (0 : Int) ≤ 1 ∧
      IsLeast {n | ∃ es, cycle.toTask.Joins .forward (.single 2) es ∧ pathCost es = 1 ∧
        freeTail .forward es = n} 1 := by
  have hhorizon : (0 : Int) ≤ 1 := by decide
  refine ⟨hhorizon, ?_⟩
  obtain ⟨-, hlayers, -⟩ := (closeMany_followPaths cycle .forward hhorizon).2 2
  exact (hlayers.mem_sublayer 1 (by decide +kernel) 1 (.single 2)).mp
    ⟨.singleton (.single 2), by decide +kernel, by decide +kernel⟩

end LayerSearch

end LayeredPlanning
