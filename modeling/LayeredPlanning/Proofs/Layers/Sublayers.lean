import LayeredPlanning.Proofs.Layers.Closing
import LayeredPlanning.Proofs.Paths.LevelSimple
import Mathlib.Data.List.Induction
import Mathlib.Order.Bounds.Basic

/-!
# Sub-layers count free steps

`ReachedIn task d s c n` refines `ReachedAt`: the search comes to `s` at cost `c`, and its last `n`
steps are the free ones since it paid, or since the root.  On paths this is `freeTail`:
`ReachedIn.iff_exists_joins`.

The rounds of free steps are a breadth-first search (`IsRound`), so the sub-layer `i` of a layer
holds the states for which `i` is the least such number: `LayerSearch.mem_getElem?_sublayersFrom`.
-/

namespace LayeredPlanning

/-! ## Free steps since the last paid step -/

/-- A search in direction `d` can come to a state at a cost, with `n` free steps after its last paid
step, or after the root if it paid for none. -/
inductive ReachedIn (task : Task) (d : Direction) : State → Int → Nat → Prop where
  | root {s : State} : s ∈ task.root d → ReachedIn task d s 0 0
  | paid {s t : State} {c : Int} {n : Nat} {r : Transition} :
      ReachedIn task d s c n → r ∈ task.transitions.paid → t ∈ r.step d (.singleton s) →
        ReachedIn task d t (c + r.action.cost) 0
  | free {s t : State} {c : Int} {n : Nat} {r : Transition} :
      ReachedIn task d s c n → r ∈ task.transitions.zeroCost →
        t ∈ r.step d (.singleton s) → ReachedIn task d t c (n + 1)

/-- The number of free steps that a search in direction `d` along a path takes at last. -/
def freeTail {table : TransitionTable} (d : Direction) (es : List (Step table)) : Nat :=
  match d with
  | .forward => (es.reverse.takeWhile (·.action.isZeroCost)).length
  | .backward => (es.takeWhile (·.action.isZeroCost)).length

/-- A path joins the root of a search in direction `d` to `s`: it leads to `s` from the initial
state, or from `s` to a goal. -/
def Task.Joins (task : Task) (d : Direction) (s : State) (es : List (Step task.transitions)) :
    Prop :=
  match d with
  | .forward => Leads task.initial es s
  | .backward => ∃ t ∈ task.goals, Leads s es t

section Paths

variable {table : TransitionTable} {d : Direction} {e : Step table} {es : List (Step table)}

/-- The path, one step further on in direction `d`. -/
def stepOn (d : Direction) (e : Step table) (es : List (Step table)) : List (Step table) :=
  match d with
  | .forward => es ++ [e]
  | .backward => e :: es

@[simp] theorem pathCost_stepOn : pathCost (stepOn d e es) = pathCost es + e.cost := by
  cases d with
  | forward => exact pathCost_concat es e
  | backward => rw [stepOn, pathCost_cons, Int.add_comm]

theorem freeTail_stepOn_of_free (h : e.cost = 0) :
    freeTail d (stepOn d e es) = freeTail d es + 1 := by
  have hfree : e.action.isZeroCost = true := Action.isZeroCost_iff.mpr h
  cases d <;> simp [freeTail, stepOn, hfree]

theorem freeTail_stepOn_of_paid (h : 0 < e.cost) : freeTail d (stepOn d e es) = 0 := by
  have hpaid : ¬ e.action.isZeroCost = true := by
    rw [Action.isZeroCost_iff]
    exact Int.ne_of_gt h
  cases d <;> simp [freeTail, stepOn, hpaid]

/-- Paths grow step by step in either direction. -/
theorem stepOn_induction (d : Direction) {P : List (Step table) → Prop} (nil : P [])
    (step : ∀ e es, P es → P (stepOn d e es)) (es : List (Step table)) : P es := by
  cases d with
  | forward => exact List.reverseRecOn es nil fun es e ih ↦ step e es ih
  | backward => exact List.rec nil (fun e es ih ↦ step e es ih) es

end Paths

namespace Task.Joins

variable {task : ExplicitTask} {d : Direction} {s t : State}
  {e : Step task.toTask.transitions} {es : List (Step task.toTask.transitions)}

theorem nil_iff : task.toTask.Joins d s [] ↔ s ∈ task.toTask.root d := by
  cases d with
  | forward => simp [Joins, Task.root, eq_comm]
  | backward => simp [Joins, Task.root]

/-- A joining path goes on by every step of the search. -/
theorem exists_stepOn (h : task.toTask.Joins d s es) {r : Transition}
    (hr : r ∈ task.transitions.relations) (ht : t ∈ r.step d (.singleton s)) :
    ∃ e : Step task.toTask.transitions,
      e.transition = r ∧ task.toTask.Joins d t (stepOn d e es) := by
  cases d with
  | forward =>
    obtain ⟨e, rfl, rfl⟩ :
        ∃ e : Step task.toTask.transitions, e.transition = r ∧ e.target = t :=
      exists_step hr t
    obtain ⟨s', hs', hedge⟩ := Transition.mem_image.mp ht
    obtain rfl := StateSet.mem_singleton.mp hs'
    exact ⟨e, rfl, Leads.append h (.cons hedge (.nil _))⟩
  | backward =>
    obtain ⟨e, rfl, rfl⟩ :
        ∃ e : Step task.toTask.transitions, e.transition = r ∧ e.target = s :=
      exists_step hr s
    obtain ⟨s', hs', hedge⟩ := (task.mem_preimage e.transition_mem).mp ht
    obtain rfl := StateSet.mem_singleton.mp hs'
    obtain ⟨u, hu, hes⟩ := h
    exact ⟨e, rfl, u, hu, .cons hedge hes⟩

/-- A joining path has come about by a step of the search. -/
theorem of_stepOn (h : task.toTask.Joins d t (stepOn d e es)) :
    ∃ s, task.toTask.Joins d s es ∧ t ∈ e.transition.step d (.singleton s) := by
  cases d with
  | forward =>
    obtain ⟨s, hes, he⟩ := Leads.append_iff.mp h
    obtain ⟨hedge, htarget⟩ := Leads.cons_iff.mp he
    obtain rfl := Leads.nil_iff.mp htarget
    exact ⟨s, hes, Transition.mem_image.mpr ⟨s, StateSet.mem_singleton.mpr rfl, hedge⟩⟩
  | backward =>
    obtain ⟨u, hu, he⟩ := h
    obtain ⟨hedge, hes⟩ := Leads.cons_iff.mp he
    refine ⟨e.target, ⟨u, hu, hes⟩, (task.mem_preimage e.transition_mem).mpr ?_⟩
    exact ⟨e.target, StateSet.mem_singleton.mpr rfl, hedge⟩

end Task.Joins

namespace ReachedIn

variable {d : Direction} {s t : State} {c : Int} {n : Nat}

theorem reachedAt {task : Task} (h : ReachedIn task d s c n) : ReachedAt task d s c := by
  induction h with
  | root hs => exact .root hs
  | paid _ hr ht ih => exact ih.step (TransitionTable.mem_paid.mp hr).1 ht
  | free _ hr ht ih => exact ih.freeStep hr ht

/-- A state comes about by `n + 1` free steps exactly by a free step after `n`. -/
theorem succ_iff {task : Task} :
    ReachedIn task d t c (n + 1) ↔
      ∃ s, ReachedIn task d s c n ∧
        ∃ r ∈ task.transitions.zeroCost, t ∈ r.step d (.singleton s) := by
  constructor
  · intro h
    cases h with
    | free hs hr ht => exact ⟨_, hs, _, hr, ht⟩
  · rintro ⟨s, hs, r, hr, ht⟩
    exact hs.free hr ht

/-- What is reached with `n` free steps at last is joined to the root by paths with such a tail. -/
theorem iff_exists_joins {task : ExplicitTask} :
    ReachedIn task.toTask d s c n ↔
      ∃ es, task.toTask.Joins d s es ∧ pathCost es = c ∧ freeTail d es = n := by
  constructor
  · intro h
    induction h with
    | root hs => exact ⟨[], Task.Joins.nil_iff.mpr hs, rfl, by cases d <;> rfl⟩
    | paid _ hr ht ih =>
      obtain ⟨es, hes, rfl, -⟩ := ih
      obtain ⟨hr, hpaid⟩ := TransitionTable.mem_paid.mp hr
      obtain ⟨e, rfl, he⟩ := hes.exists_stepOn hr ht
      exact ⟨stepOn d e es, he, pathCost_stepOn, freeTail_stepOn_of_paid hpaid⟩
    | free _ hr ht ih =>
      obtain ⟨es, hes, rfl, rfl⟩ := ih
      obtain ⟨hr, hfree⟩ := TransitionTable.mem_zeroCost.mp hr
      obtain ⟨e, rfl, he⟩ := hes.exists_stepOn hr ht
      refine ⟨stepOn d e es, he, ?_, freeTail_stepOn_of_free hfree⟩
      rw [pathCost_stepOn, Step.cost, Step.action, hfree, Int.add_zero]
  · rintro ⟨es, hes, rfl, rfl⟩
    induction es using stepOn_induction d generalizing s with
    | nil =>
      have htail : freeTail d ([] : List (Step task.toTask.transitions)) = 0 := by cases d <;> rfl
      rw [htail]
      exact .root (Task.Joins.nil_iff.mp hes)
    | step e es ih =>
      obtain ⟨u, hu, hs⟩ := hes.of_stepOn
      have he := e.cost_nonneg
      rw [pathCost_stepOn]
      by_cases hfree : e.cost = 0
      · rw [freeTail_stepOn_of_free hfree, hfree, Int.add_zero]
        exact (ih hu).free (TransitionTable.mem_zeroCost.mpr ⟨e.transition_mem, hfree⟩) hs
      · have hpaid : 0 < e.cost := by omega
        rw [freeTail_stepOn_of_paid hpaid]
        exact (ih hu).paid (TransitionTable.mem_paid.mpr ⟨e.transition_mem, hpaid⟩) hs

end ReachedIn

theorem ReachedAt.exists_reachedIn {task : Task} {d : Direction} {s : State} {c : Int}
    (h : ReachedAt task d s c) : ∃ n, ReachedIn task d s c n := by
  induction h with
  | root hs => exact ⟨0, .root hs⟩
  | @step s t c r _ hr ht ih =>
    obtain ⟨n, ih⟩ := ih
    have hcost := r.action.cost_nonneg
    by_cases hfree : r.action.cost = 0
    · rw [hfree, Int.add_zero]
      exact ⟨n + 1, ih.free (TransitionTable.mem_zeroCost.mpr ⟨hr, hfree⟩) ht⟩
    · exact ⟨0, ih.paid (TransitionTable.mem_paid.mpr ⟨hr, by omega⟩) ht⟩

/-- In either direction, a state is reached at the costs of the paths that join it to the root. -/
theorem reachedAt_iff_exists_joins {task : ExplicitTask} {d : Direction} {s : State} {c : Int} :
    ReachedAt task.toTask d s c ↔ ∃ es, task.toTask.Joins d s es ∧ pathCost es = c := by
  constructor
  · intro h
    obtain ⟨n, h⟩ := h.exists_reachedIn
    obtain ⟨es, hes, hcost, -⟩ := ReachedIn.iff_exists_joins.mp h
    exact ⟨es, hes, hcost⟩
  · rintro ⟨es, hes, hcost⟩
    exact (ReachedIn.iff_exists_joins.mpr ⟨es, hes, hcost, rfl⟩).reachedAt

/-! ## Rounds of free steps -/

section Rounds

variable {table : TransitionTable} {d : Direction} {P : State → Nat → Prop}
  {layer round : StateSet} {m : Nat} {s t : State}

/-- `P s n` goes along with free steps: the states of `n + 1` are those one free step behind the
states of `n`. -/
def CountsFreeSteps (table : TransitionTable) (d : Direction) (P : State → Nat → Prop) : Prop :=
  ∀ n t, P t (n + 1) ↔ ∃ s, P s n ∧ ∃ r ∈ table.zeroCost, t ∈ r.step d (.singleton s)

/-- `round` is the round `m` of free steps, and `layer` holds all rounds so far. -/
structure IsRound (P : State → Nat → Prop) (layer round : StateSet) (m : Nat) : Prop where
  mem_layer : ∀ s, s ∈ layer ↔ ∃ n ≤ m, P s n
  mem_round : ∀ s, s ∈ round ↔ IsLeast {n | P s n} m

theorem IsRound.mem_reached (h : IsRound P layer round m) (hP : CountsFreeSteps table d P) :
    t ∈ stepAll table.zeroCost d round \ layer ↔ IsLeast {n | P t n} (m + 1) := by
  rw [StateSet.mem_sdiff, mem_stepAll, h.mem_layer]
  constructor
  · rintro ⟨⟨r, hr, ht⟩, hnew⟩
    obtain ⟨s, hs, ht⟩ := Transition.mem_step.mp ht
    refine ⟨(hP m t).mpr ⟨s, ((h.mem_round s).mp hs).1, r, hr, ht⟩, fun n hn ↦ ?_⟩
    by_contra hlt
    exact hnew ⟨n, by omega, hn⟩
  · rintro ⟨ht, hleast⟩
    obtain ⟨s, hs, r, hr, hst⟩ := (hP m t).mp ht
    -- A shorter way to `s` would be a shorter way to `t`.
    have hround : IsLeast {n | P s n} m := by
      refine ⟨hs, fun n hn ↦ ?_⟩
      have := hleast ((hP n t).mpr ⟨s, hn, r, hr, hst⟩)
      omega
    refine ⟨⟨r, hr, Transition.mem_step.mpr ⟨s, (h.mem_round s).mpr hround, hst⟩⟩, ?_⟩
    rintro ⟨n, hn, hnew⟩
    have := hleast hnew
    omega

theorem IsRound.next (h : IsRound P layer round m) (hP : CountsFreeSteps table d P) :
    IsRound P (layer ∪ (stepAll table.zeroCost d round \ layer))
      (stepAll table.zeroCost d round \ layer) (m + 1) where
  mem_round _ := h.mem_reached hP
  mem_layer s := by
    rw [StateSet.mem_union, h.mem_reached hP, h.mem_layer]
    constructor
    · rintro (⟨n, hn, hs⟩ | hs)
      · exact ⟨n, by omega, hs⟩
      · exact ⟨m + 1, Nat.le_refl _, hs.1⟩
    · rintro ⟨n, hn, hs⟩
      by_cases hold : ∃ n ≤ m, P s n
      · exact .inl hold
      · refine .inr ⟨?_, fun k hk ↦ ?_⟩
        · have hn' : n = m + 1 := by
            by_contra hne
            exact hold ⟨n, by omega, hs⟩
          exact hn' ▸ hs
        · by_contra hlt
          exact hold ⟨k, by omega, hk⟩

/-- After an empty round all states are in the layer. -/
theorem IsRound.mem_of_isEmpty (h : IsRound P layer round m) (hP : CountsFreeSteps table d P)
    (hempty : (stepAll table.zeroCost d round \ layer).isEmpty = true) {n : Nat} (hs : P s n) :
    s ∈ layer := by
  induction n generalizing s with
  | zero => exact (h.mem_layer s).mpr ⟨0, Nat.zero_le m, hs⟩
  | succ n ih =>
    obtain ⟨u, hu, r, hr, hstep⟩ := (hP n s).mp hs
    obtain ⟨k, hk, huk⟩ := (h.mem_layer u).mp (ih hu)
    have hsk : P s (k + 1) := (hP k s).mpr ⟨u, huk, r, hr, hstep⟩
    by_cases hkm : k = m
    · by_contra hnew
      have hleast : IsLeast {n | P s n} (m + 1) := by
        refine ⟨hkm ▸ hsk, fun j hj ↦ ?_⟩
        by_contra hlt
        exact hnew ((h.mem_layer s).mpr ⟨j, by omega, hj⟩)
      exact StateSet.isEmpty_iff.mp hempty s ((h.mem_reached hP).mpr hleast)
    · exact (h.mem_layer s).mpr ⟨k + 1, by omega, hsk⟩

/-- The rounds of free steps are in the order of the least number of free steps. -/
theorem mem_getElem?_freeRounds (h : IsRound P layer round m) (hP : CountsFreeSteps table d P)
    (i : Nat) :
    (∃ L, (freeRounds table d layer round)[i]? = some L ∧ s ∈ L) ↔
      IsLeast {n | P s n} (m + 1 + i) := by
  fun_induction freeRounds table d layer round generalizing m i with
  | case1 layer round reached =>
    rename_i hempty
    refine iff_of_false (by simp) fun hs ↦ ?_
    obtain ⟨n, hn, hsn⟩ := (h.mem_layer s).mp (h.mem_of_isEmpty hP hempty hs.1)
    have := hs.2 hsn
    omega
  | case2 layer round reached =>
    rename_i ih
    cases i with
    | zero =>
      rw [Nat.add_zero, ← h.mem_reached hP, List.getElem?_cons_zero]
      simp only [Option.some.injEq, exists_eq_left', reached]
    | succ i =>
      rw [List.getElem?_cons_succ, ih (h.next hP) i, Nat.add_right_comm]
      rfl

theorem exists_mem_of_mem_freeRounds {L : StateSet} (hL : L ∈ freeRounds table d layer round) :
    ∃ s, s ∈ L := by
  fun_induction freeRounds table d layer round with
  | case1 => exact absurd hL List.not_mem_nil
  | case2 layer round reached hne ih =>
    rcases List.mem_cons.mp hL with rfl | hL
    · exact StateSet.isEmpty_eq_false_iff.mp (Bool.not_eq_true _ ▸ hne)
    · exact ih hL

end Rounds

namespace LayerSearch

variable {task : Task} {d : Direction} {horizon : Int}

/-- The sub-layers of a layer are in the order of the least number of free steps from its
frontier. -/
theorem mem_getElem?_sublayersFrom {frontier : StateSet} {P : State → Nat → Prop}
    (hP : CountsFreeSteps task.transitions d P)
    (hfrontier : ∀ s, s ∈ frontier ↔ P s 0) {s : State} (i : Nat) :
    (∃ L, (sublayersFrom task d frontier)[i]? = some L ∧ s ∈ L) ↔
      IsLeast {n | P s n} i := by
  have hround : IsRound P frontier frontier 0 :=
    { mem_layer := fun s ↦ by simp [hfrontier]
      mem_round := fun s ↦ by simp [hfrontier, IsLeast, lowerBounds] }
  rw [sublayersFrom]
  cases i with
  | zero => simp only [List.getElem?_cons_zero, Option.some.injEq, exists_eq_left',
      hround.mem_round]
  | succ i =>
    rw [List.getElem?_cons_succ, mem_getElem?_freeRounds hround hP i, Nat.zero_add, Nat.add_comm]

end LayerSearch

end LayeredPlanning
