import LayeredPlanning.Proofs.Layers.Termination
import LayeredPlanning.Proofs.Run.Meetings

/-!
# Runs end

No counter ends the loop of a run.  It ends since each turn closes a layer in one direction, at a
cost above those at which layers are closed there and within the horizon
(`Frontiers.Underway.advances`): so the number of turns is that of the layers (`TurnsIn.count`), and
there is not room for many.
-/

namespace LayeredPlanning

open Relation

variable {task : Task} {horizon : Int} {policy : RunPolicy}

/-! ## One layer -/

namespace Frontiers

variable {frontiers next : Frontiers task horizon} {cuts : List Cut} {d : Direction} {k : Int}

/-- A layer is closed in a direction, at a cost above those before it and within the horizon. -/
structure Advances (frontiers next : Frontiers task horizon) (d : Direction) (k : Int) : Prop where
  nonneg : 0 ≤ k
  le_horizon : k ≤ horizon
  above : ∀ c ∈ frontiers.closedCosts d, c < k
  closedCosts : next.closedCosts d = frontiers.closedCosts d ++ [k]
  opposite : next.closedCosts d.opposite = frontiers.closedCosts d.opposite

theorem closedCosts_of_some {search : LayerSearch task d horizon}
    (h : frontiers.search? d = some search) :
    frontiers.closedCosts d = search.closed.closedCosts := by
  rw [closedCosts, h]
  rfl

theorem Underway.advances (h : frontiers.Underway)
    (hclose : frontiers.closeNext? = some (cuts, next)) : ∃ d k, frontiers.Advances next d k := by
  obtain ⟨d, search, k, layer, search', hsearch, hnext, hnew, hold⟩ :=
    exists_closeNext?_search hclose
  have hunderway := h d search hsearch
  obtain ⟨hnonneg, hle, habove⟩ := hunderway.bounds_of_closeNext? hnext
  refine ⟨d, k, hnonneg, hle, ?_, ?_, ?_⟩
  · rwa [closedCosts_of_some hsearch]
  · rw [closedCosts_of_some hnew, closedCosts_of_some hsearch, (hunderway.grows hnext).closedCosts]
  · rw [Frontiers.closedCosts, hold, Frontiers.closedCosts]

/-- A layer more is closed, whichever side it is on. -/
theorem Advances.length (h : frontiers.Advances next d k) :
    (next.closedCosts .forward).length + (next.closedCosts .backward).length =
      (frontiers.closedCosts .forward).length + (frontiers.closedCosts .backward).length + 1 := by
  have hown := congrArg List.length h.closedCosts
  have hother := congrArg List.length h.opposite
  rw [List.length_append, List.length_singleton] at hown
  cases d with
  | forward =>
    rw [Direction.opposite] at hother
    omega
  | backward =>
    rw [Direction.opposite] at hother
    omega

theorem Underway.length_closedCosts_le (h : frontiers.Underway) (hhorizon : 0 ≤ horizon)
    (d : Direction) : ((frontiers.closedCosts d).length : Int) ≤ horizon + 1 := by
  cases hsearch : frontiers.search? d with
  | none =>
    rw [closedCosts, hsearch]
    exact Int.le_add_one hhorizon
  | some search =>
    rw [closedCosts_of_some hsearch]
    exact (h d search hsearch).length_closedCosts_le hhorizon

/-- No direction has more layers than there are costs up to the horizon, and no search has to do
with a cost that cannot be represented. -/
structure Bounded (frontiers : Frontiers task horizon) : Prop where
  length : ∀ d, ((frontiers.closedCosts d).length : Int) ≤ horizon + 1
  computable : ∀ d search, frontiers.search? d = some search → search.Computable

theorem Underway.bounded (h : frontiers.Underway) (hhorizon : 0 ≤ horizon)
    (hmax : horizon ≤ Cost.max) : frontiers.Bounded :=
  ⟨h.length_closedCosts_le hhorizon,
    fun d search hsearch ↦ (h d search hsearch).computable hmax⟩

theorem closedCosts_start (task : Task) (policy : RunPolicy) (d : Direction) :
    (Frontiers.start task policy).closedCosts d = [] := by
  cases hsearch : (Frontiers.start task policy).search? d with
  | none => rw [closedCosts, hsearch, Option.map_none, Option.getD_none]
  | some search =>
    rw [closedCosts_of_some hsearch]
    have hstart : search = .start task d policy.maxCost := by
      cases d with
      | forward => exact (Option.some.inj (Option.ite_none_right_eq_some.mp hsearch).2).symm
      | backward => exact (Option.some.inj (Option.ite_none_right_eq_some.mp hsearch).2).symm
    rw [hstart, LayerSearch.start]
    split <;> rfl

end Frontiers

/-! ## Counting turns -/

/-- What the loop of a run comes to by a number of turns. -/
inductive TurnsIn (frontiers : Frontiers task horizon) (progress : Progress) :
    Nat → Frontiers task horizon → Progress → Prop where
  | zero : TurnsIn frontiers progress 0 frontiers progress
  | succ {n : Nat} {cuts : List Cut} {current next : Frontiers task horizon}
      {reached raised : Progress} :
      TurnsIn frontiers progress n current reached → Turn current reached cuts next raised →
        TurnsIn frontiers progress (n + 1) next raised

section Turns

variable {frontiers current : Frontiers task horizon} {progress reached : Progress} {n : Nat}

theorem Turns.exists_turnsIn {made : List Cut} (h : Turns frontiers progress made current reached) :
    ∃ n, TurnsIn frontiers progress n current reached := by
  induction h with
  | refl => exact ⟨0, .zero⟩
  | snoc _ hlast ih =>
    obtain ⟨n, hn⟩ := ih
    exact ⟨n + 1, hn.succ hlast⟩

theorem TurnsIn.closes (h : TurnsIn frontiers progress n current reached) :
    ReflTransGen Frontiers.Closes frontiers current := by
  induction h with
  | zero => exact .refl
  | succ _ hlast ih => exact ih.tail ⟨_, hlast.closes⟩

/-- The turns of a run are the layers that it has closed. -/
theorem TurnsIn.count {current : Frontiers task policy.maxCost} (hpolicy : 0 ≤ policy.maxCost)
    (h : TurnsIn (Frontiers.start task policy) progress n current reached) :
    n = (current.closedCosts .forward).length + (current.closedCosts .backward).length := by
  induction h with
  | zero => rw [Frontiers.closedCosts_start, Frontiers.closedCosts_start]; rfl
  | succ hturns hlast ih =>
    have hunderway := Frontiers.underway_of_closes hpolicy hturns.closes
    obtain ⟨d, k, hadvances⟩ := hunderway.advances hlast.closes
    rw [hadvances.length, ih]

end Turns

/-- The costs of the cuts that a layer makes can be represented. -/
theorem Frontiers.inRange_of_mem_cuts {frontiers next : Frontiers task policy.maxCost}
    {cuts : List Cut} {cut : Cut} (hrange : policy.maxCost ≤ Cost.max) (hexact : next.Exact)
    (hwithin : next.Within) (hclose : frontiers.closeNext? = some (cuts, next))
    (hcut : cut ∈ cuts) : Cost.InRange cut.g ∧ Cost.InRange cut.h := by
  obtain ⟨⟨s, hs⟩, hall⟩ := meets_of_mem_cuts hclose hcut
  obtain ⟨hg, hh⟩ := hall s hs
  have hzero : Cost.min ≤ 0 := by decide
  exact ⟨⟨hzero.trans (hg.cost_nonneg hexact.forward), (hwithin.forward s _ hg).trans hrange⟩,
    ⟨hzero.trans (hh.cost_nonneg hexact.backward), (hwithin.backward s _ hh).trans hrange⟩⟩

/-! ## Runs -/

/-- A run under a policy without a fault takes turns until it ends.  Each turn closes a layer of one
direction, and so does a last one that fails, at a cost above those at which layers are closed there
and within the horizon.  So a direction has no more layers than there are costs up to the horizon,
and there are no more turns than layers.  Within a layer, the loop over the free steps passes not
more often than once for each state of the task, and once.  All costs can be represented. -/
theorem run_ends (task : Task) (policy : RunPolicy) (hfault : policy.fault? = none)
    (hrange : policy.maxCost ≤ Cost.max) :
    ∃ database, policy.database? = .ok database ∧
      (∃ n current reached result,
        TurnsIn (.start task policy) (.start database policy) n current reached ∧
          Ends current reached result ∧
          run task policy = result.map fun last ↦ .ofLast last.1 last.2) ∧
      (∀ n current reached,
        TurnsIn (.start task policy) (.start database policy) n current reached →
        n = (current.closedCosts .forward).length + (current.closedCosts .backward).length ∧
        current.Bounded ∧
        ∀ cuts next, current.closeNext? = some (cuts, next) →
          (∃ d k, current.Advances next d k) ∧ next.Bounded ∧
            ∀ cut ∈ cuts, Cost.InRange cut.g ∧ Cost.InRange cut.h) ∧
      ∀ d frontier, freePasses task.transitions d frontier ≤ task.states.size + 1 := by
  obtain ⟨hpolicy, -⟩ := RunPolicy.exists_database hfault
  obtain ⟨database, made, frontiers, reached, result, hdatabase, hturns, hends, hrun⟩ :=
    exists_turns_of_run task hfault
  obtain ⟨n, hn⟩ := hturns.exists_turnsIn
  refine ⟨database, hdatabase, ⟨n, frontiers, reached, result, hn, hends, hrun⟩, ?_, ?_⟩
  · intro n current reached hn
    have hcloses := hn.closes
    have hunderway := Frontiers.underway_of_closes hpolicy hcloses
    obtain ⟨hexact, hwithin⟩ := Frontiers.exact_and_within hpolicy hcloses
    refine ⟨hn.count hpolicy, hunderway.bounded hpolicy hrange, ?_⟩
    intro cuts next hclose
    refine ⟨hunderway.advances hclose, (hunderway.closeNext hclose).bounded hpolicy hrange, ?_⟩
    intro cut hcut
    exact Frontiers.inRange_of_mem_cuts hrange (hexact.closeNext hclose) (hwithin.closeNext hclose)
      hclose hcut
  · exact freePasses_le task

/-- On the cycle a run with horizon two ends after at most six turns, and no layer takes more than
four passes over its free steps. -/
theorem cycle_run_ends :
    ∃ database n current reached result,
      TurnsIn (.start cycle.toTask { maxCost := 2 })
        (.start database { maxCost := 2 }) n current reached ∧
        Ends current reached result ∧ n ≤ 6 ∧
        ∀ d frontier, freePasses cycle.transitions d frontier ≤ 4 := by
  obtain ⟨database, -, ⟨n, current, reached, result, hturns, hends, -⟩, hall, hrounds⟩ :=
    run_ends cycle.toTask { maxCost := 2 } (by decide) (by decide)
  obtain ⟨hcount, hbounded, -⟩ := hall n current reached hturns
  have hforward := hbounded.length .forward
  have hbackward := hbounded.length .backward
  dsimp only at hforward hbackward
  have hstates : cycle.toTask.states.size = 3 := by decide +kernel
  rw [hstates] at hrounds
  exact ⟨database, n, current, reached, result, hturns, hends, by omega, hrounds⟩

end LayeredPlanning
