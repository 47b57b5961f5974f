import LayeredPlanning.Layers.LayerSearch
import LayeredPlanning.Proofs.Paths.Basic

/-!
# What is reached at which cost

`ReachedAt task d s c` says that a search in direction `d` can come from its root to `s` by actions
that cost `c` together, without a word about layers.  In a task with consistent relations these are
the ends of paths from the initial state, or the starts of paths to a goal.

The rest of the file is about the parts of a search: the rounds of free steps close a set under free
steps (`mem_unions_sublayersFrom`), and `Agenda.waiting` says what waits at which cost.
-/

namespace LayeredPlanning

/-- A search in direction `d` can come to a state at a cost. -/
inductive ReachedAt (task : Task) (d : Direction) : State → Int → Prop where
  | root {s : State} : s ∈ task.root d → ReachedAt task d s 0
  | step {s t : State} {c : Int} {r : Transition} :
      ReachedAt task d s c → r ∈ task.transitions.relations →
        t ∈ r.step d (.singleton s) → ReachedAt task d t (c + r.action.cost)

/-- A step from a set is a step from one of its members. -/
theorem Transition.mem_step {r : Transition} {d : Direction} {S : StateSet} {t : State} :
    t ∈ r.step d S ↔ ∃ s ∈ S, t ∈ r.step d (.singleton s) := by
  cases d <;> simp [step, image, preimage, Neighbours.mem_follow]

namespace ReachedAt

variable {task : Task} {d : Direction} {s t : State} {c : Int} {r : Transition}

theorem cost_nonneg (h : ReachedAt task d s c) : 0 ≤ c := by
  induction h with
  | root => exact Int.le_refl 0
  | @step _ _ _ r _ _ _ ih =>
    have := r.action.cost_nonneg
    omega

theorem freeStep (h : ReachedAt task d s c) (hr : r ∈ task.transitions.zeroCost)
    (ht : t ∈ r.step d (.singleton s)) : ReachedAt task d t c := by
  obtain ⟨hr, hfree⟩ := TransitionTable.mem_zeroCost.mp hr
  have h' := h.step hr ht
  rwa [hfree, Int.add_zero] at h'

end ReachedAt

/-! ## Reached by paths -/

section Paths

variable {task : Task} {s t : State} {c : Int} {es : List (Step task.transitions)}

/-- The relations of a table are those at its places. -/
theorem exists_step {table : TransitionTable} {r : Transition} (hr : r ∈ table.relations)
    (t : State) : ∃ e : Step table, e.transition = r ∧ e.target = t := by
  obtain ⟨k, hk⟩ := List.get_of_mem hr
  exact ⟨⟨k, t⟩, hk, rfl⟩

theorem ReachedAt.of_leads (h : ReachedAt task .forward s c) (hes : Leads s es t) :
    ReachedAt task .forward t (c + pathCost es) := by
  induction hes generalizing c with
  | nil => rwa [pathCost_nil, Int.add_zero]
  | @cons s t e es he _ ih =>
    rw [pathCost_cons, ← Int.add_assoc]
    refine ih (h.step e.transition_mem ?_)
    rw [Transition.step, Transition.mem_image]
    exact ⟨s, StateSet.mem_singleton.mpr rfl, he⟩

/-- Forward, a state is reached at the costs of the paths that lead to it. -/
theorem reachedAt_forward_iff :
    ReachedAt task .forward s c ↔
      ∃ es : List (Step task.transitions), Leads task.initial es s ∧ pathCost es = c := by
  constructor
  · intro h
    induction h with
    | @root s hs =>
      obtain rfl := StateSet.mem_singleton.mp hs
      exact ⟨[], .nil _, rfl⟩
    | @step s t c r _ hr ht ih =>
      obtain ⟨es, hes, rfl⟩ := ih
      obtain ⟨e, rfl, rfl⟩ := exists_step hr t
      rw [Transition.step, Transition.mem_image] at ht
      obtain ⟨s', hs', hedge⟩ := ht
      obtain rfl := StateSet.mem_singleton.mp hs'
      refine ⟨es ++ [e], hes.append (.cons hedge (.nil _)), ?_⟩
      rw [pathCost_concat]
      rfl
  · rintro ⟨es, hes, rfl⟩
    have hroot : ReachedAt task .forward task.initial 0 := .root (StateSet.mem_singleton.mpr rfl)
    have h := hroot.of_leads hes
    rwa [Int.zero_add] at h

/-- Backward, a state is reached at the costs of the paths that lead from it to a goal. -/
theorem reachedAt_backward_iff (hcons : ∀ r ∈ task.transitions.relations, r.Consistent) :
    ReachedAt task .backward s c ↔
      ∃ (es : List (Step task.transitions)) (t : State),
        Leads s es t ∧ t ∈ task.goals ∧ pathCost es = c := by
  constructor
  · intro h
    induction h with
    | @root s hs => exact ⟨[], s, .nil s, hs, rfl⟩
    | @step s t c r _ hr ht ih =>
      obtain ⟨es, u, hes, hu, rfl⟩ := ih
      rw [Transition.step, (hcons r hr).mem_preimage] at ht
      obtain ⟨s', hs', hedge⟩ := ht
      obtain rfl := StateSet.mem_singleton.mp hs'
      obtain ⟨e, rfl, rfl⟩ := exists_step hr s'
      refine ⟨e :: es, u, .cons hedge hes, hu, ?_⟩
      rw [pathCost_cons, Int.add_comm]
      rfl
  · rintro ⟨es, t, hes, ht, rfl⟩
    induction hes with
    | nil s => exact .root ht
    | @cons s t e es he _ ih =>
      rw [pathCost_cons, Int.add_comm]
      refine (ih ht).step e.transition_mem ?_
      rw [Transition.step, (hcons _ e.transition_mem).mem_preimage]
      exact ⟨e.target, StateSet.mem_singleton.mpr rfl, he⟩

end Paths

/-! ## Free steps -/

/-- The rounds of free steps close a set under free steps, if the steps from outside the first round
stay in it. -/
theorem mem_of_freeStep {table : TransitionTable} {d : Direction} {layer round : StateSet}
    (hold : ∀ s ∈ layer, s ∉ round →
      ∀ r ∈ table.zeroCost, ∀ t ∈ r.step d (.singleton s), t ∈ layer)
    {s t : State} {r : Transition}
    (hs : s ∈ layer ∪ .unions (freeRounds table d layer round)) (hr : r ∈ table.zeroCost)
    (ht : t ∈ r.step d (.singleton s)) :
    t ∈ layer ∪ .unions (freeRounds table d layer round) := by
  fun_induction freeRounds table d layer round with
  | case1 layer round reached hempty =>
    have hs := (StateSet.mem_union.mp hs).resolve_right (by simp)
    refine StateSet.mem_union.mpr (.inl ?_)
    by_cases hround : s ∈ round
    · by_contra hlayer
      refine StateSet.isEmpty_iff.mp hempty t (StateSet.mem_sdiff.mpr ⟨?_, hlayer⟩)
      exact mem_stepAll.mpr ⟨r, hr, Transition.mem_step.mpr ⟨s, hround, ht⟩⟩
    · exact hold s hs hround r hr t ht
  | case2 layer round reached _ ih =>
    have hcover : ∀ u,
        u ∈ layer ∪ .unions (reached :: freeRounds table d (layer ∪ reached) reached) ↔
          u ∈ (layer ∪ reached) ∪
            .unions (freeRounds table d (layer ∪ reached) reached) := by
      intro u
      simp [or_assoc]
    rw [hcover] at hs ⊢
    refine ih ?_ hs
    intro u hu hnew q hq v hv
    have hu := (StateSet.mem_union.mp hu).resolve_right hnew
    apply StateSet.mem_union.mpr
    by_cases hv' : v ∈ layer
    · exact .inl hv'
    refine .inr (StateSet.mem_sdiff.mpr ⟨?_, hv'⟩)
    by_cases hround : u ∈ round
    · exact mem_stepAll.mpr ⟨q, hq, Transition.mem_step.mpr ⟨u, hround, hv⟩⟩
    · exact absurd (hold u hu hround q hq v hv) hv'

/-- What the rounds add has come about by free steps. -/
theorem freeRounds_induction {table : TransitionTable} {d : Direction} {layer round : StateSet}
    {P : State → Prop} (hround : ∀ s ∈ round, P s)
    (hstep : ∀ s, P s → ∀ r ∈ table.zeroCost, ∀ t ∈ r.step d (.singleton s), P t)
    {S : StateSet} (hS : S ∈ freeRounds table d layer round) {s : State}
    (hs : s ∈ S) : P s := by
  fun_induction freeRounds table d layer round with
  | case1 => exact absurd hS List.not_mem_nil
  | case2 layer round reached _ ih =>
    have hreached : ∀ t ∈ reached, P t := by
      intro t ht
      obtain ⟨r, hr, ht⟩ := mem_stepAll.mp (StateSet.mem_sdiff.mp ht).1
      obtain ⟨u, hu, ht⟩ := Transition.mem_step.mp ht
      exact hstep u (hround u hu) r hr t ht
    rcases List.mem_cons.mp hS with rfl | hS
    · exact hreached s hs
    · exact ih hreached hS

namespace LayerSearch

variable {task : Task} {d : Direction} {frontier : StateSet} {s t : State} {r : Transition}

theorem mem_layer_of_mem_frontier (h : s ∈ frontier) :
    s ∈ StateSet.unions (sublayersFrom task d frontier) :=
  StateSet.mem_unions.mpr ⟨frontier, List.mem_cons_self, h⟩

/-- A layer is closed under free steps. -/
theorem mem_layer_of_freeStep (hs : s ∈ StateSet.unions (sublayersFrom task d frontier))
    (hr : r ∈ task.transitions.zeroCost) (ht : t ∈ r.step d (.singleton s)) :
    t ∈ StateSet.unions (sublayersFrom task d frontier) := by
  have hcover : ∀ u, u ∈ StateSet.unions (sublayersFrom task d frontier) ↔
      u ∈ frontier ∪ .unions (freeRounds task.transitions d frontier frontier) := by
    intro u
    simp [sublayersFrom]
  rw [hcover] at hs ⊢
  exact mem_of_freeStep (fun u hu hnew ↦ absurd hu hnew) hs hr ht

/-- What holds of the frontier of a layer and is kept by free steps holds of the layer. -/
theorem layer_induction {P : State → Prop} (hfrontier : ∀ s ∈ frontier, P s)
    (hstep : ∀ s, P s →
      ∀ r ∈ task.transitions.zeroCost, ∀ t ∈ r.step d (.singleton s), P t)
    (hs : s ∈ StateSet.unions (sublayersFrom task d frontier)) : P s := by
  obtain ⟨L, hL, hsL⟩ := StateSet.mem_unions.mp hs
  rcases List.mem_cons.mp hL with rfl | hL
  · exact hfrontier s hsL
  · exact freeRounds_induction hfrontier hstep hL hsL

end LayerSearch

/-! ## Recorded layers -/

namespace ClosedLayers

variable {closed : ClosedLayers} {c k : Int} {s : State}

theorem notMem_closedAt_empty : s ∉ closedAt ∅ c := by
  rw [mem_closedAt]
  rintro ⟨L, hL, _⟩
  exact absurd hL List.not_mem_nil

theorem mem_closedAt_pushSublayer {L : StateSet} :
    s ∈ (closed.pushSublayer k L).closedAt c ↔
      s ∈ closed.closedAt c ∨ c = k ∧ s ∈ L := by
  rw [pushSublayer]
  split
  · next hempty =>
    constructor
    · exact .inl
    · rintro (h | ⟨_, h⟩)
      · exact h
      · exact absurd h (StateSet.isEmpty_iff.mp hempty s)
  · rw [mem_closedAt, mem_closedAt, sublayers, sublayers, SortedMap.get?_alter]
    by_cases hc : c = k
    · subst hc
      simp [or_and_right, exists_or]
    · simp [hc]

theorem mem_closedAt_pushSublayers {Ls : List StateSet} :
    s ∈ (closed.pushSublayers k Ls).closedAt c ↔
      s ∈ closed.closedAt c ∨ c = k ∧ s ∈ StateSet.unions Ls := by
  rw [pushSublayers]
  induction Ls generalizing closed with
  | nil => simp
  | cons L Ls ih =>
    rw [List.foldl_cons, ih, mem_closedAt_pushSublayer, StateSet.mem_unions, StateSet.mem_unions,
      or_assoc, ← and_or_left]
    simp only [List.mem_cons, exists_eq_or_imp]

theorem mem_closedCosts_of_mem_closedAt (h : s ∈ closed.closedAt c) :
    c ∈ closed.closedCosts := by
  obtain ⟨L, hL, _⟩ := mem_closedAt.mp h
  rw [closedCosts, SortedMap.mem_keys_iff]
  cases hget : closed.layers.get? c with
  | none =>
    rw [sublayers, hget] at hL
    exact absurd hL List.not_mem_nil
  | some Ls => exact ⟨Ls, rfl⟩

end ClosedLayers

/-! ## Waiting states -/

namespace Agenda

variable {agenda : Agenda} {c k : Int} {s : State}

/-- The states that wait at a cost. -/
def waiting (agenda : Agenda) (c : Int) : StateSet := (agenda.get? c).getD ∅

theorem mem_waiting {s : State} :
    s ∈ agenda.waiting c ↔ ∃ S, (c, S) ∈ agenda.entries ∧ s ∈ S := by
  simp only [waiting, ← SortedMap.get?_eq_some_iff]
  cases agenda.get? c <;> simp

theorem mem_waiting_schedule {states : StateSet} :
    s ∈ (agenda.schedule k states).waiting c ↔
      c = k ∧ s ∈ states ∨ s ∈ agenda.waiting c := by
  rw [schedule]
  split
  · next hempty =>
    constructor
    · exact .inr
    · rintro (⟨_, h⟩ | h)
      · exact absurd h (StateSet.isEmpty_iff.mp hempty s)
      · exact h
  · rw [waiting, waiting, SortedMap.get?_alter]
    by_cases hc : c = k
    · subst hc
      simp [or_comm]
    · simp [hc]

theorem mem_waiting_scheduleSteps {rs : List Transition} {d : Direction} {horizon : Int}
    {layer : StateSet} :
    s ∈ (agenda.scheduleSteps rs d horizon k layer).waiting c ↔
      c ≤ horizon ∧ (∃ r ∈ rs, c = k + r.action.cost ∧ s ∈ r.step d layer) ∨
        s ∈ agenda.waiting c := by
  rw [scheduleSteps]
  induction rs generalizing agenda with
  | nil => simp
  | cons r rs ih =>
    rw [List.foldl_cons, ih]
    simp only [List.mem_cons, exists_eq_or_imp]
    split
    · next hfar =>
      refine or_congr_left (and_congr_right fun hc ↦ ⟨.inr, ?_⟩)
      rintro (⟨rfl, _⟩ | h)
      · omega
      · exact h
    · rw [mem_waiting_schedule]
      constructor
      · rintro (⟨hc, h⟩ | ⟨rfl, h⟩ | h)
        · exact .inl ⟨hc, .inr h⟩
        · exact .inl ⟨by omega, .inl ⟨rfl, h⟩⟩
        · exact .inr h
      · rintro (⟨hc, h | h⟩ | h)
        · exact .inr (.inl h)
        · exact .inl ⟨hc, h⟩
        · exact .inr (.inr h)

/-- What waits at other costs goes on waiting. -/
theorem mem_waiting_popLeast? {rest : Agenda} {frontier : StateSet}
    (hpop : agenda.popLeast? = some ((k, frontier), rest)) (hc : c ≠ k) :
    s ∈ rest.waiting c ↔ s ∈ agenda.waiting c := by
  rw [mem_waiting, mem_waiting, SortedMap.popLeast?_eq_some_iff.mp hpop]
  simp [hc]

/-- Some state waits at every cost of the agenda. -/
def Occupied (agenda : Agenda) : Prop := ∀ e ∈ agenda.entries, ∃ s, s ∈ agenda.waiting e.1

theorem Occupied.schedule (h : agenda.Occupied) (states : StateSet) :
    (agenda.schedule k states).Occupied := by
  intro e he
  have hold : e ∈ agenda.entries → ∃ s, s ∈ (agenda.schedule k states).waiting e.1 := by
    intro he
    obtain ⟨s, hs⟩ := h e he
    exact ⟨s, mem_waiting_schedule.mpr (.inr hs)⟩
  cases hempty : states.isEmpty with
  | true =>
    rw [Agenda.schedule, if_pos hempty] at he
    exact hold he
  | false =>
    obtain ⟨s, hs⟩ := StateSet.isEmpty_eq_false_iff.mp hempty
    rcases fst_of_mem_schedule he with hk | he
    · exact ⟨s, mem_waiting_schedule.mpr (.inl ⟨hk, hs⟩)⟩
    · exact hold he

theorem Occupied.scheduleSteps (h : agenda.Occupied) (rs : List Transition) (d : Direction)
    (horizon : Int) (layer : StateSet) :
    (agenda.scheduleSteps rs d horizon k layer).Occupied := by
  rw [Agenda.scheduleSteps]
  induction rs generalizing agenda with
  | nil => exact h
  | cons r rs ih =>
    apply ih
    dsimp only
    split
    · exact h
    · exact h.schedule _

theorem Occupied.popLeast? (h : agenda.Occupied) {rest : Agenda} {e : Int × StateSet}
    (hpop : agenda.popLeast? = some (e, rest)) : rest.Occupied := by
  have hentries := SortedMap.popLeast?_eq_some_iff.mp hpop
  intro e' he'
  have hmem : e' ∈ agenda.entries := by
    rw [hentries]
    exact List.mem_cons_of_mem _ he'
  obtain ⟨s, hs⟩ := h e' hmem
  rw [waiting, SortedMap.get?_eq_some_iff.mpr hmem] at hs
  exact ⟨s, mem_waiting.mpr ⟨e'.2, he', hs⟩⟩

end Agenda

end LayeredPlanning
