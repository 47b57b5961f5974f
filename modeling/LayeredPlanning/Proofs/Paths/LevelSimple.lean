import LayeredPlanning.Proofs.Paths.Basic

/-!
# Level-simple paths

Free actions may form cycles, so there can be infinitely many paths of one cost.  The plans that are
wanted are those of *level-simple* paths, which never visit a state twice at the same accumulated
cost.  Nothing is lost by this as far as costs go: `exists_levelSimple` turns every path into a
level-simple one between the same states, of the same cost.
-/

namespace LayeredPlanning

variable {table : TransitionTable}

/-- No state is visited twice at the same accumulated cost. -/
def LevelSimple (s : State) (es : List (Step table)) : Prop := (visits s 0 es).Nodup

section LevelSimple

variable {s t : State} {c : Int} {e : Step table} {es fs : List (Step table)}

/-- It does not matter from which cost on the cost is accumulated. -/
theorem nodup_visits_iff : (visits s c es).Nodup ↔ LevelSimple s es := by
  have hinj : Function.Injective fun v : State × Int ↦ (v.1, v.2 + c) := fun v w h ↦ by
    obtain ⟨h₁, h₂⟩ := Prod.mk.inj h
    exact Prod.ext h₁ (by omega)
  have hadd := visits_add s 0 c es
  rw [Int.zero_add] at hadd
  rw [LevelSimple, hadd, List.nodup_map_iff hinj]

theorem levelSimple_cons_iff :
    LevelSimple s (e :: es) ↔
      (s, 0) ∉ visits e.target e.cost es ∧ LevelSimple e.target es := by
  rw [LevelSimple, visits_cons, List.nodup_cons, Int.zero_add, nodup_visits_iff]

/-- The rest of a level-simple path is level-simple. -/
theorem LevelSimple.of_append (hfs : Leads s fs t) (h : LevelSimple s (fs ++ es)) :
    LevelSimple t es := by
  induction hfs with
  | nil => exact h
  | cons _ _ ih => exact ih (levelSimple_cons_iff.mp h).2

/-- Between two states that a path connects there is a level-simple path of the same cost: cycles of
free actions are cut out. -/
theorem exists_levelSimple (h : Leads s es t) :
    ∃ fs : List (Step table), Leads s fs t ∧ pathCost fs = pathCost es ∧
      LevelSimple s fs := by
  induction h with
  | nil s => exact ⟨[], .nil s, rfl, List.nodup_singleton _⟩
  | @cons s t e es he _ ih =>
    obtain ⟨fs, hfs, hcost, hsimple⟩ := ih
    by_cases hs : (s, 0) ∈ visits e.target e.cost fs
    · -- The rest comes back to `s` without paying: it goes on from there.
      obtain ⟨gs, ks, rfl, hgs, hks, hback⟩ := exists_split_of_mem_visits hfs hs
      refine ⟨ks, hks, ?_, hsimple.of_append hgs⟩
      have hcut : e.cost + pathCost gs = 0 := hback.symm
      rw [pathCost_cons, ← hcost, pathCost_append]
      omega
    · exact ⟨e :: fs, .cons he hfs, by rw [pathCost_cons, pathCost_cons, hcost],
        levelSimple_cons_iff.mpr ⟨hs, hsimple⟩⟩

end LevelSimple

/-- The paths for which plans are wanted: level-simple paths from the initial state to a goal, and
only those that repeat no state where simple plans are asked for. -/
structure Task.Eligible (task : Task) (simpleOnly : Bool) (es : List (Step task.transitions)) :
    Prop where
  goal : ∃ t, Leads task.initial es t ∧ task.isGoal t = true
  levelSimple : LevelSimple task.initial es
  simple : simpleOnly = true → (pathStates task.initial es).Nodup

/-! ## Small tasks -/

theorem TransitionTable.consistent_empty :
    ∀ r ∈ (∅ : TransitionTable).relations, r.Consistent :=
  fun _ hr ↦ absurd hr List.not_mem_nil

/-- The task with one goal and no transitions. -/
def ExplicitTask.ofGoal (name : String) (initial goal : State) : ExplicitTask where
  name := name
  initial := initial
  goals := .singleton goal
  goals_ne_empty := rfl
  transitions := ∅
  consistent := TransitionTable.consistent_empty

/-- The initial state is the goal, and there is nothing to do. -/
def arrived : ExplicitTask := .ofGoal "arrived" (.single 0) (.single 0)

/-- One paid step enters a cycle of two free steps. -/
def cycle : ExplicitTask :=
  ((ExplicitTask.ofGoal "cycle" (.single 0) (.single 2)).addEdges
      ⟨0, "enter", 1, by decide⟩ [(.single 0, .single 1)]).addEdges
    ⟨1, "turn", 0, by decide⟩ [(.single 1, .single 2), (.single 2, .single 1)]

namespace cycle

/-- The paid step. -/
def enter : Step cycle.toTask.transitions := ⟨⟨1, by decide +kernel⟩, .single 1⟩

/-- The free step to `s`. -/
def turn (s : State) : Step cycle.toTask.transitions := ⟨⟨0, by decide +kernel⟩, s⟩

theorem eq_of_hasEdge {e : Step cycle.toTask.transitions} {s : State}
    (h : e.transition.HasEdge s e.target) :
    s = .single 0 ∧ e = enter ∨ s = .single 1 ∧ e = turn (.single 2) ∨
      s = .single 2 ∧ e = turn (.single 1) := by
  obtain ⟨⟨k, hk⟩, t⟩ := e
  match k, hk with
  | 0, _ =>
    have hedge := Transition.hasEdge_ofEdges.mp h
    rcases List.mem_pair.mp hedge with heq | heq
    · obtain ⟨rfl, rfl⟩ := Prod.mk.inj heq
      exact .inr (.inl ⟨rfl, rfl⟩)
    · obtain ⟨rfl, rfl⟩ := Prod.mk.inj heq
      exact .inr (.inr ⟨rfl, rfl⟩)
  | 1, _ =>
    have hedge := Transition.hasEdge_ofEdges.mp h
    obtain ⟨rfl, rfl⟩ := Prod.mk.inj (List.mem_singleton.mp hedge)
    exact .inl ⟨rfl, rfl⟩
  | k + 2, hk => exact absurd hk (Nat.not_lt.mpr (Nat.le_add_left 2 k))

/-- The cycle has one level-simple path to its goal. -/
theorem eq_of_eligible {simpleOnly : Bool} {es : List (Step cycle.toTask.transitions)}
    (h : cycle.toTask.Eligible simpleOnly es) : es = [enter, turn (.single 2)] := by
  obtain ⟨t, hleads, hgoal⟩ := h.goal
  have ht : t = .single 2 := StateSet.mem_singleton.mp (ExplicitTask.isGoal_toTask.mp hgoal)
  have hlevel := h.levelSimple
  change Leads (.single 0) es t at hleads
  change LevelSimple (.single 0) es at hlevel
  subst ht
  cases hleads with
  | cons he hleads =>
    obtain ⟨-, rfl⟩ | ⟨hs, -⟩ | ⟨hs, -⟩ := eq_of_hasEdge he
    · cases hleads with
      | cons he hleads =>
        obtain ⟨hs, -⟩ | ⟨-, rfl⟩ | ⟨hs, -⟩ := eq_of_hasEdge he
        · cases hs
        · cases hleads with
          | nil => rfl
          | cons he hleads =>
            obtain ⟨hs, -⟩ | ⟨hs, -⟩ | ⟨-, rfl⟩ := eq_of_hasEdge he
            · cases hs
            · cases hs
            · -- The state after the paid step is visited again, at the same cost.
              have hrest := (List.nodup_cons.mp (List.nodup_cons.mp hlevel).2).1
              exact absurd (List.mem_cons_of_mem _ List.mem_cons_self) hrest
        · cases hs
    · cases hs
    · cases hs

theorem eligible (simpleOnly : Bool) :
    cycle.toTask.Eligible simpleOnly [enter, turn (.single 2)] := by
  have henter : enter.transition.HasEdge (.single 0) (.single 1) :=
    Transition.hasEdge_ofEdges.mpr List.mem_cons_self
  have hturn : (turn (.single 2)).transition.HasEdge (.single 1) (.single 2) :=
    Transition.hasEdge_ofEdges.mpr List.mem_cons_self
  refine ⟨⟨.single 2, .cons henter (.cons hturn (.nil _)), ?_⟩, ?_, fun _ ↦ ?_⟩
  · exact ExplicitTask.isGoal_toTask.mpr (StateSet.mem_singleton.mpr rfl)
  · rw [LevelSimple]
    decide +kernel
  · decide +kernel

end cycle

end LayeredPlanning
