import LayeredPlanning.Proofs.Layers.Reached

/-!
# Closed layers are exact

`LayerSearch.Exact search done` is what holds of a search that has closed its layers up to the cost
`done`: at these costs exactly the reached states are closed, and what waits is what is entered from
there, at higher costs.  Closing a layer keeps this up (`Exact.closeNext`), since nothing is reached
at a cost between `done` and the least cost that waits (`Exact.notReachedAt_of_gap`).

So up to `closedThrough` the closed states are the reached ones: `Exact.mem_closedAt_iff`.
-/

namespace LayeredPlanning

namespace LayerSearch

variable {task : Task} {d : Direction} {horizon : Int}

/-- What closing a layer does: it takes the frontier that waits at the least cost. -/
theorem closeNext?_eq_some {search next : LayerSearch task d horizon} {k : Int} {layer : StateSet}
    (h : search.closeNext? = some ((k, layer), next)) :
    ∃ frontier rest, search.agenda.popLeast? = some ((k, frontier), rest) ∧
      layer = .unions (sublayersFrom task d frontier) ∧
      next.agenda = Agenda.scheduleSteps rest task.transitions.paid d horizon k layer ∧
      next.closed = search.closed.pushSublayers k (sublayersFrom task d frontier) := by
  unfold closeNext? at h
  split at h
  · cases h
  · next hpop =>
    cases h
    exact ⟨_, _, hpop, rfl, rfl, rfl⟩

theorem closeNext?_eq_none_iff {search : LayerSearch task d horizon} :
    search.closeNext? = none ↔ search.nextCost? = none := by
  rw [nextCost?, SortedMap.leastKey?, Option.map_eq_none_iff, List.head?_eq_none_iff,
    ← SortedMap.popLeast?_eq_none_iff]
  unfold closeNext?
  split
  · next hpop => simp [hpop]
  · next hpop => simp [hpop]

theorem nextCost?_of_closeNext? {search next : LayerSearch task d horizon} {k : Int}
    {layer : StateSet} (h : search.closeNext? = some ((k, layer), next)) :
    search.nextCost? = some k := by
  obtain ⟨frontier, rest, hpop, _⟩ := closeNext?_eq_some h
  rw [nextCost?, SortedMap.leastKey?, SortedMap.popLeast?_eq_some_iff.mp hpop]
  rfl

theorem le_horizon_of_nextCost? {search : LayerSearch task d horizon} {k : Int}
    (h : search.nextCost? = some k) : k ≤ horizon := by
  rw [nextCost?, SortedMap.leastKey?, Option.map_eq_some_iff] at h
  obtain ⟨e, he, rfl⟩ := h
  exact search.agenda_le e (List.mem_of_mem_head? he)

theorem closedThrough_le_horizon (search : LayerSearch task d horizon) :
    search.closedThrough ≤ horizon := by
  rw [closedThrough]
  split
  · next k hk =>
    have := le_horizon_of_nextCost? hk
    omega
  · exact Int.le_refl horizon

/-- At first a search waits for its root. -/
theorem nextCost?_start (hroot : (task.root d).isEmpty = false) (hhorizon : 0 ≤ horizon) :
    (start task d horizon).nextCost? = some 0 := by
  have hagenda : Agenda.schedule ∅ 0 (task.root d) =
      SortedMap.alter ∅ 0 fun known ↦ some (known.getD ∅ ∪ task.root d) := by
    exact if_neg (by rw [hroot]; exact Bool.false_ne_true)
  rw [start, dif_pos hhorizon]
  exact congrArg SortedMap.leastKey? hagenda

/-- A state is the root at cost zero, or a paid step leads to it from a cost up to `done`. -/
def Entered (task : Task) (d : Direction) (done : Int) (s : State) (c : Int) : Prop :=
  c = 0 ∧ s ∈ task.root d ∨
    ∃ t b, ReachedAt task d t b ∧ b ≤ done ∧
      ∃ r ∈ task.transitions.paid, c = b + r.action.cost ∧ s ∈ r.step d (.singleton t)

/-- The layers up to `done` are closed, and nothing else is. -/
structure Exact (search : LayerSearch task d horizon) (done : Int) : Prop where
  mem_closedAt : ∀ c ≤ done, ∀ s, s ∈ search.closed.closedAt c ↔ ReachedAt task d s c
  notMem_closedAt : ∀ c, done < c → ∀ s, s ∉ search.closed.closedAt c
  lt_waiting : ∀ e ∈ search.agenda.entries, done < e.1
  occupied : search.agenda.Occupied
  mem_waiting : ∀ c, done < c → c ≤ horizon →
    ∀ s, s ∈ search.agenda.waiting c ↔ Entered task d done s c

variable {search next : LayerSearch task d horizon} {done c k : Int} {s t : State}
  {layer : StateSet}

theorem Entered.reachedAt (h : Entered task d done s c) : ReachedAt task d s c := by
  rcases h with ⟨rfl, hs⟩ | ⟨t, b, ht, _, r, hr, rfl, hs⟩
  · exact .root hs
  · exact ht.step (TransitionTable.mem_paid.mp hr).1 hs

/-- Before the first layer only the root waits. -/
theorem exact_start (task : Task) (d : Direction) (hhorizon : 0 ≤ horizon) :
    (start task d horizon).Exact (-1) := by
  rw [start, dif_pos hhorizon]
  constructor
  · intro c hc s
    constructor
    · intro h
      exact absurd h ClosedLayers.notMem_closedAt_empty
    · intro h
      have := h.cost_nonneg
      omega
  · intro c _ s
    exact ClosedLayers.notMem_closedAt_empty
  · intro e he
    rcases Agenda.fst_of_mem_schedule he with h | h
    · rw [h]
      decide
    · exact absurd h List.not_mem_nil
  · refine Agenda.Occupied.schedule ?_ _
    intro e he
    exact absurd he List.not_mem_nil
  · intro c _ _ s
    rw [Agenda.mem_waiting_schedule, Entered]
    refine or_congr_right ⟨?_, ?_⟩
    · intro h
      obtain ⟨S, hS, _⟩ := Agenda.mem_waiting.mp h
      exact absurd hS List.not_mem_nil
    · rintro ⟨t, b, ht, hb, _⟩
      have := ht.cost_nonneg
      omega

namespace Exact

/-- Nothing is reached at a cost beyond `done` that is below all costs that wait. -/
theorem notReachedAt_of_gap (h : search.Exact done) (hc : done < c) (hhorizon : c ≤ horizon)
    (hgap : ∀ e ∈ search.agenda.entries, c < e.1) : ¬ ReachedAt task d s c := by
  intro hs
  have hempty : ∀ b s, done < b → b ≤ c → ¬ Entered task d done s b := by
    intro b s hb hbc hs
    obtain ⟨S, hS, _⟩ :=
      Agenda.mem_waiting.mp ((h.mem_waiting b hb (by omega) s).mpr hs)
    have := hgap _ hS
    dsimp only at this
    omega
  have hall : ∀ b ≤ c, done < b → ∀ s, ¬ ReachedAt task d s b := by
    intro b hbc hb s hs
    induction hs with
    | root hs => exact hempty 0 _ hb hbc (.inl ⟨rfl, hs⟩)
    | @step t u b r ht hr hu ih =>
      have hcost := r.action.cost_nonneg
      by_cases hdone : b ≤ done
      · have hpaid : r ∈ task.transitions.paid := TransitionTable.mem_paid.mpr ⟨hr, by omega⟩
        exact hempty _ _ hb hbc (.inr ⟨t, b, ht, hdone, r, hpaid, rfl, hu⟩)
      · exact ih (by omega) (by omega)
  exact hall c (Int.le_refl c) hc s hs

/-- The least cost that waits is the next one at which there are reached states. -/
theorem of_popLeast? (h : search.Exact done) {frontier : StateSet} {rest : Agenda}
    (hpop : search.agenda.popLeast? = some ((k, frontier), rest)) :
    (k, frontier) ∈ search.agenda.entries ∧ done < k ∧ k ≤ horizon ∧
      ∀ c s, ReachedAt task d s c → c < k → c ≤ done := by
  have hentries := SortedMap.popLeast?_eq_some_iff.mp hpop
  have hmem : (k, frontier) ∈ search.agenda.entries := by
    rw [hentries]
    exact List.mem_cons_self
  have hhorizon : k ≤ horizon := search.agenda_le _ hmem
  refine ⟨hmem, h.lt_waiting _ hmem, hhorizon, ?_⟩
  intro c s hs hc
  by_contra hgap
  refine h.notReachedAt_of_gap (c := c) (by omega) (by omega) ?_ hs
  intro e he
  rw [hentries] at he
  rcases List.mem_cons.mp he with rfl | he
  · exact hc
  · exact Int.lt_trans hc (SortedMap.lt_of_popLeast? hpop he)

/-- The frontier at the least cost that waits is what is entered there. -/
theorem mem_frontier_iff (h : search.Exact done) {frontier : StateSet} {rest : Agenda}
    (hpop : search.agenda.popLeast? = some ((k, frontier), rest)) :
    s ∈ frontier ↔ Entered task d done s k := by
  obtain ⟨hmem, hk, hhorizon, -⟩ := h.of_popLeast? hpop
  rw [← h.mem_waiting k hk hhorizon s, Agenda.waiting, SortedMap.get?_eq_some_iff.mpr hmem]
  rfl

/-- At the least cost that waits, the reached states are those of the layer. -/
theorem mem_layer_iff (h : search.Exact done) {frontier : StateSet} {rest : Agenda}
    (hpop : search.agenda.popLeast? = some ((k, frontier), rest)) :
    s ∈ StateSet.unions (sublayersFrom task d frontier) ↔ ReachedAt task d s k := by
  obtain ⟨-, -, -, hgap⟩ := h.of_popLeast? hpop
  have hfrontier : ∀ t, t ∈ frontier ↔ Entered task d done t k :=
    fun t ↦ h.mem_frontier_iff hpop
  constructor
  · intro hs
    refine layer_induction (P := fun t ↦ ReachedAt task d t k) ?_ ?_ hs
    · intro t ht
      exact ((hfrontier t).mp ht).reachedAt
    · intro t ht r hr u hu
      exact ht.freeStep hr hu
  · intro hs
    have hall : ∀ b t, ReachedAt task d t b → b = k →
        t ∈ StateSet.unions (sublayersFrom task d frontier) := by
      intro b t ht
      induction ht with
      | root ht =>
        intro hb
        exact mem_layer_of_mem_frontier ((hfrontier _).mpr (.inl ⟨hb.symm, ht⟩))
      | @step t u b r ht hr hu ih =>
        intro hb
        have hcost := r.action.cost_nonneg
        by_cases hfree : r.action.cost = 0
        · exact mem_layer_of_freeStep (ih (by omega))
            (TransitionTable.mem_zeroCost.mpr ⟨hr, hfree⟩) hu
        -- The layer is entered by paying, so from a layer that is closed already.
        have hdone : b ≤ done := hgap b t ht (by omega)
        have hpaid : r ∈ task.transitions.paid := TransitionTable.mem_paid.mpr ⟨hr, by omega⟩
        exact mem_layer_of_mem_frontier
          ((hfrontier u).mpr (.inr ⟨t, b, ht, hdone, r, hpaid, hb.symm, hu⟩))
    exact hall k s hs rfl

/-- What is entered once a layer is closed: what was entered before, or by a step from the layer. -/
theorem entered_iff (hk : done < k) (hgap : ∀ c s, ReachedAt task d s c → c < k → c ≤ done)
    (hlayer : ∀ s, s ∈ layer ↔ ReachedAt task d s k) :
    Entered task d k s c ↔
      (∃ r ∈ task.transitions.paid, c = k + r.action.cost ∧ s ∈ r.step d layer) ∨
        Entered task d done s c := by
  constructor
  · rintro (hroot | ⟨t, b, ht, hb, r, hr, rfl, hs⟩)
    · exact .inr (.inl hroot)
    · by_cases hbk : b = k
      · subst hbk
        exact .inl ⟨r, hr, rfl, Transition.mem_step.mpr ⟨t, (hlayer t).mpr ht, hs⟩⟩
      · exact .inr (.inr ⟨t, b, ht, hgap b t ht (by omega), r, hr, rfl, hs⟩)
  · rintro (⟨r, hr, rfl, hs⟩ | hroot | ⟨t, b, ht, hb, hr⟩)
    · obtain ⟨t, ht, hs⟩ := Transition.mem_step.mp hs
      exact .inr ⟨t, k, (hlayer t).mp ht, Int.le_refl k, r, hr, rfl, hs⟩
    · exact .inl hroot
    · exact .inr ⟨t, b, ht, by omega, hr⟩

/-- Closing a layer closes the reached states of the next cost at which there are any. -/
theorem closeNext (h : search.Exact done) (hclose : search.closeNext? = some ((k, layer), next)) :
    next.Exact k ∧ done < k ∧ ∀ s, s ∈ layer ↔ ReachedAt task d s k := by
  obtain ⟨frontier, rest, hpop, rfl, hagenda, hclosed⟩ := closeNext?_eq_some hclose
  obtain ⟨-, hk, -, hgap⟩ := h.of_popLeast? hpop
  have hlayer : ∀ s, s ∈ StateSet.unions (sublayersFrom task d frontier) ↔
      ReachedAt task d s k := fun s ↦ h.mem_layer_iff hpop
  refine ⟨?_, hk, hlayer⟩
  constructor
  case mem_closedAt =>
    intro c hc s
    rw [hclosed, ClosedLayers.mem_closedAt_pushSublayers, hlayer s]
    by_cases hck : c = k
    · subst hck
      simp [h.notMem_closedAt c hk s]
    by_cases hdone : c ≤ done
    · simp [h.mem_closedAt c hdone s, hck]
    · have hnone : ¬ ReachedAt task d s c := fun hs ↦ hdone (hgap c s hs (by omega))
      simp [h.notMem_closedAt c (by omega) s, hck, hnone]
  case notMem_closedAt =>
    intro c hc s
    rw [hclosed, ClosedLayers.mem_closedAt_pushSublayers]
    rintro (hs | ⟨rfl, _⟩)
    · exact h.notMem_closedAt c (by omega) s hs
    · omega
  case lt_waiting =>
    intro e he
    rw [hagenda] at he
    rcases Agenda.mem_scheduleSteps (fun r hr ↦ (TransitionTable.mem_paid.mp hr).2) he with
      he | he
    · exact he.1
    · exact SortedMap.lt_of_popLeast? hpop he
  case occupied =>
    rw [hagenda]
    exact (h.occupied.popLeast? hpop).scheduleSteps _ _ _ _
  case mem_waiting =>
    intro c hc hhorizon s
    rw [hagenda, Agenda.mem_waiting_scheduleSteps, Agenda.mem_waiting_popLeast? hpop (by omega),
      h.mem_waiting c (by omega) hhorizon s, and_iff_right hhorizon, entered_iff hk hgap hlayer]

/-- Up to `closedThrough`, exactly the reached states are closed. -/
theorem mem_closedAt_iff (h : search.Exact done) (hc : c ≤ search.closedThrough) :
    s ∈ search.closed.closedAt c ↔ ReachedAt task d s c := by
  by_cases hdone : c ≤ done
  · exact h.mem_closedAt c hdone s
  have hgap : c ≤ horizon ∧ ∀ e ∈ search.agenda.entries, c < e.1 := by
    rw [closedThrough, nextCost?, SortedMap.leastKey?] at hc
    have hasc := search.agenda.ascending
    have hle := search.agenda_le
    cases hentries : search.agenda.entries with
    | nil =>
      rw [hentries] at hc
      exact ⟨hc, fun e he ↦ absurd he List.not_mem_nil⟩
    | cons e rest =>
      rw [hentries] at hc hasc hle
      dsimp only [List.head?_cons, Option.map_some] at hc
      refine ⟨by have := hle e List.mem_cons_self; omega, ?_⟩
      intro e' he'
      rcases List.mem_cons.mp he' with rfl | he'
      · omega
      · have := (List.pairwise_cons.mp hasc).1 e' he'
        omega
  constructor
  · intro hs
    exact absurd hs (h.notMem_closedAt c (by omega) s)
  · intro hs
    exact absurd hs (h.notReachedAt_of_gap (by omega) hgap.1 hgap.2)

theorem le_closedThrough (h : search.Exact done) (hdone : done ≤ horizon) :
    done ≤ search.closedThrough := by
  rw [closedThrough]
  split
  · next k hk =>
    rw [nextCost?, SortedMap.leastKey?, Option.map_eq_some_iff] at hk
    obtain ⟨e, he, rfl⟩ := hk
    have := h.lt_waiting e (List.mem_of_mem_head? he)
    omega
  · exact hdone

/-- What waits at the next cost is entered from the closed layers. -/
theorem exists_entered (h : search.Exact done) (hnext : search.nextCost? = some k) :
    done < k ∧ ∃ s, Entered task d done s k := by
  have hhorizon := le_horizon_of_nextCost? hnext
  rw [nextCost?, SortedMap.leastKey?, Option.map_eq_some_iff] at hnext
  obtain ⟨e, he, rfl⟩ := hnext
  have hmem := List.mem_of_mem_head? he
  have hlt := h.lt_waiting e hmem
  obtain ⟨s, hs⟩ := h.occupied e hmem
  exact ⟨hlt, s, (h.mem_waiting e.1 hlt hhorizon s).mp hs⟩

/-- A search is at the end once nothing is reached beyond its layers and within the horizon. -/
theorem nextCost?_eq_none_iff (h : search.Exact done) :
    search.nextCost? = none ↔
      ∀ c s, done < c → c ≤ horizon → ¬ ReachedAt task d s c := by
  constructor
  · intro hnone c s hc hhorizon hs
    have hle : c ≤ search.closedThrough := by
      rw [closedThrough, hnone]
      exact hhorizon
    exact h.notMem_closedAt c hc s ((h.mem_closedAt_iff hle).mpr hs)
  · intro hall
    cases hnext : search.nextCost? with
    | none => rfl
    | some k =>
      obtain ⟨hlt, s, hs⟩ := h.exists_entered hnext
      exact absurd hs.reachedAt (hall k s hlt (le_horizon_of_nextCost? hnext))

end Exact

end LayerSearch

end LayeredPlanning
