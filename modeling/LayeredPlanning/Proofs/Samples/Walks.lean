import LayeredPlanning.Proofs.Layers.Reached
import LayeredPlanning.Proofs.Paths.LevelSimple
import LayeredPlanning.Proofs.Plans.Labels
import LayeredPlanning.Samples.EdgeWorld
import Mathlib.Algebra.Group.Nat.Defs

/-!
# Walks in edge worlds

A walk takes actions of an edge world along their edges (`EdgeWorld.Walks`).  A trail on the stack
of the enumeration stands for all walks that it begins (`EdgeWorld.Trail.Completes`): following it
leaves its extensions to stand for them, apart from the one that ends there.  So the enumeration
lists the action sequences of the walks to a goal: `EdgeWorld.exists_plansUpTo`.

The paths of the task that the world builds are its walks (`EdgeWorld.Builds.walks_of_leads`,
`EdgeWorld.Builds.exists_leads`), and where every action costs something they never come to a state
twice at the same cost.
-/

namespace LayeredPlanning

/-! ## Tasks from data -/

theorem Action.ofCost?_eq_ok_iff {id : UInt32} {name : String} {cost : Int} {action : Action} :
    ofCost? id name cost = .ok action ↔ ∃ h : 0 ≤ cost, action = ⟨id, name, cost, h⟩ := by
  rw [ofCost?]
  split
  · next h =>
    rw [Except.ok.injEq, eq_comm]
    exact ⟨fun heq ↦ ⟨h, heq⟩, fun ⟨_, heq⟩ ↦ heq⟩
  · next h => exact iff_of_false nofun fun ⟨hcost, _⟩ ↦ h hcost

namespace ExplicitTask

variable {task built : ExplicitTask} {name : String} {initial : State} {goals : StateSet}
  {relations : List RelationData}

/-- Data that are not refused make one relation each. -/
theorem addRelations?_eq_ok (h : task.addRelations? relations = .ok built) :
    built.initial = task.initial ∧ built.goals = task.goals ∧
      ∀ r, r ∈ built.transitions.relations ↔
        r ∈ task.transitions.relations ∨ ∃ data ∈ relations, ∃ action,
          Action.ofCost? data.id data.name data.cost = .ok action ∧
          r = .ofEdges action data.edges := by
  induction relations generalizing task with
  | nil =>
    cases h
    exact ⟨rfl, rfl, by simp⟩
  | cons data rest ih =>
    rw [addRelations?] at h
    split at h
    · cases h
    · next action haction =>
      obtain ⟨hinitial, hgoals, hrelations⟩ := ih h
      refine ⟨hinitial, hgoals, fun r ↦ ?_⟩
      rw [hrelations, addEdges, addTransition, TransitionTable.mem_insert, or_assoc, or_left_comm]
      simp only [List.mem_cons, exists_eq_or_imp, haction, Except.ok.injEq, exists_eq_left']

theorem ofData?_eq_ok (h : ofData? name initial goals relations = .ok built) :
    built.initial = initial ∧ built.goals = goals ∧
      ∀ r, r ∈ built.transitions.relations ↔ ∃ data ∈ relations, ∃ action,
        Action.ofCost? data.id data.name data.cost = .ok action ∧
        r = .ofEdges action data.edges := by
  rw [ofData?, ofGoals?] at h
  split at h
  · cases h
  · next hstart =>
    split at hstart
    · cases hstart
      obtain ⟨hinitial, hgoals, hrelations⟩ := addRelations?_eq_ok h
      refine ⟨hinitial, hgoals, fun r ↦ ?_⟩
      rw [hrelations]
      exact or_iff_right List.not_mem_nil
    · cases hstart

end ExplicitTask

namespace EdgeWorld

/-- The actions of these identifiers lead from state to state along edges of the world, at this
cost. -/
inductive Walks (world : EdgeWorld) : UInt32 → List UInt32 → Int → UInt32 → Prop where
  | nil (s : UInt32) : Walks world s [] 0 s
  | cons {s t u : UInt32} {i : Nat} {a : EdgeAction} {ids : List UInt32} {c : Int} :
      world.actions[i]? = some a → (s, t) ∈ a.edges → Walks world t ids c u →
        Walks world s (actionId i :: ids) (a.cost + c) u

variable {world : EdgeWorld} {s t : UInt32} {ids : List UInt32} {c maxCost : Int} {i : Nat}
  {a : EdgeAction}

theorem Walks.cost_nonneg (hpositive : world.isPositive = true) (h : world.Walks s ids c t) :
    0 ≤ c := by
  induction h with
  | nil => exact Int.le_refl 0
  | cons ha _ _ ih =>
    have hcost := one_le_cost hpositive ha
    omega

/-! ## The enumeration -/

/-- The actions of these identifiers lead to a goal for at most `maxCost`. -/
def Solves (world : EdgeWorld) (maxCost : Int) (ids : List UInt32) : Prop :=
  ∃ c t, world.Walks 0 ids c t ∧ world.isGoal t = true ∧ c ≤ maxCost

/-- On every walk within `maxCost` the cost of every action can be added to what has been paid. -/
def SumsFit (world : EdgeWorld) (maxCost : Int) : Prop :=
  ∀ ids c t, world.Walks 0 ids c t → c ≤ maxCost →
    ∀ a ∈ world.actions, c + a.cost ≤ Cost.max

namespace Trail

variable {trail next : Trail}

/-- The actions of these identifiers begin with the trail and lead to a goal for at most
`maxCost`. -/
def Completes (world : EdgeWorld) (maxCost : Int) (trail : Trail) (ids : List UInt32) : Prop :=
  ∃ rest c t, world.Walks trail.state rest c t ∧ world.isGoal t = true ∧
    trail.cost + c ≤ maxCost ∧ ids = trail.ids ++ rest

/-- The trail is within `maxCost`, and on every walk that begins with it the sums of costs fit. -/
structure Fits (world : EdgeWorld) (maxCost : Int) (trail : Trail) : Prop where
  cost_le : trail.cost ≤ maxCost
  sums : ∀ rest c t, world.Walks trail.state rest c t → trail.cost + c ≤ maxCost →
    ∀ a ∈ world.actions, trail.cost + c + a.cost ≤ Cost.max

theorem mem_record_iff {found : List (List UInt32)} :
    ids ∈ trail.record world found ↔
      (world.isGoal trail.state = true ∧ ids = trail.ids) ∨ ids ∈ found := by
  rw [record]
  split
  · next hgoal => rw [List.mem_cons, and_iff_right hgoal]
  · next hgoal => exact (or_iff_right fun h ↦ hgoal h.1).symm

/-- A walk that begins with the trail ends there, or begins with one of its extensions. -/
theorem completes_iff (hpositive : world.isPositive = true) (hwithin : trail.cost ≤ maxCost) :
    trail.Completes world maxCost ids ↔
      (world.isGoal trail.state = true ∧ ids = trail.ids) ∨
        ∃ next ∈ trail.extensions world maxCost, next.Completes world maxCost ids := by
  constructor
  · rintro ⟨_, _, u, hwalk, hgoal, hle, rfl⟩
    cases hwalk with
    | nil => exact .inl ⟨hgoal, List.append_nil _⟩
    | @cons _ t _ i a rest c ha hedge hwalk =>
      have hnonneg := hwalk.cost_nonneg hpositive
      refine .inr ⟨_, mem_extensions_iff.mpr ⟨i, a, t, ha, by omega, hedge, rfl⟩, ?_⟩
      refine ⟨rest, c, u, hwalk, hgoal, ?_, List.append_cons _ _ _⟩
      rwa [Int.add_assoc]
  · rintro (⟨hgoal, rfl⟩ | ⟨next, hnext, rest, c, u, hwalk, hgoal, hle, rfl⟩)
    · exact ⟨[], 0, trail.state, .nil _, hgoal, by omega, (List.append_nil _).symm⟩
    · obtain ⟨i, a, t, ha, -, hedge, rfl⟩ := mem_extensions_iff.mp hnext
      rw [Int.add_assoc] at hle
      exact ⟨_, _, u, .cons ha hedge hwalk, hgoal, hle, (List.append_cons _ _ _).symm⟩

theorem Fits.extension (h : trail.Fits world maxCost)
    (hnext : next ∈ trail.extensions world maxCost) : next.Fits world maxCost := by
  obtain ⟨i, a, t, ha, hle, hedge, rfl⟩ := mem_extensions_iff.mp hnext
  refine ⟨hle, fun rest c u hwalk hle b hb ↦ ?_⟩
  rw [Int.add_assoc trail.cost] at hle ⊢
  exact h.sums _ _ u (.cons ha hedge hwalk) hle b hb

theorem Fits.overflows_eq_false (h : trail.Fits world maxCost) : trail.overflows world = false := by
  refine List.any_eq_false.mpr fun a ha ↦ ?_
  have hsum := h.sums [] 0 trail.state (.nil _) (by rw [Int.add_zero]; exact h.cost_le) a ha
  rw [Int.add_zero] at hsum
  rw [decide_eq_true_eq]
  exact Int.not_lt.mpr hsum

end Trail

theorem completes_start : (⟨0, 0, []⟩ : Trail).Completes world maxCost ids ↔
    world.Solves maxCost ids := by
  simp only [Trail.Completes, Solves, Int.zero_add, List.nil_append]
  exact ⟨fun ⟨_, c, t, hwalk, hgoal, hle, heq⟩ ↦ ⟨c, t, heq ▸ hwalk, hgoal, hle⟩,
    fun ⟨c, t, hwalk, hgoal, hle⟩ ↦ ⟨ids, c, t, hwalk, hgoal, hle, rfl⟩⟩

theorem fits_start (hfit : world.SumsFit maxCost) (hcost : 0 ≤ maxCost) :
    (⟨0, 0, []⟩ : Trail).Fits world maxCost := by
  refine ⟨hcost, fun ids c t hwalk hle ↦ ?_⟩
  rw [Int.zero_add] at hle ⊢
  exact hfit ids c t hwalk hle

/-- Following the trails on the stack finds what they begin. -/
theorem exists_enumerate (hpositive : world.isPositive = true) (stack : List Trail)
    (found : List (List UInt32)) (hfits : ∀ trail ∈ stack, trail.Fits world maxCost) :
    ∃ listed, world.enumerate hpositive maxCost stack found = .ok listed ∧
      ∀ ids, ids ∈ listed ↔
        ids ∈ found ∨ ∃ trail ∈ stack, trail.Completes world maxCost ids := by
  -- By the loop.  What is found together with what the stack stands for does not change.
  fun_induction enumerate world hpositive maxCost stack found with
  | case1 found => exact ⟨found, rfl, by simp⟩
  | case2 found trail rest hoverflows =>
    rw [(hfits trail List.mem_cons_self).overflows_eq_false] at hoverflows
    cases hoverflows
  | case3 found trail rest _ ih =>
    obtain ⟨htrail, hrest⟩ := List.forall_mem_cons.mp hfits
    have hnext : ∀ next ∈ (trail.extensions world maxCost).reverse ++ rest,
        next.Fits world maxCost :=
      List.forall_mem_append.mpr
        ⟨fun next hnext ↦ htrail.extension (List.mem_reverse.mp hnext), hrest⟩
    obtain ⟨listed, hlisted, hmem⟩ := ih hnext
    refine ⟨listed, hlisted, fun ids ↦ ?_⟩
    rw [hmem, Trail.mem_record_iff, List.exists_mem_cons_iff,
      Trail.completes_iff hpositive htrail.cost_le]
    simp only [List.mem_append, List.mem_reverse, or_and_right, exists_or]
    rw [or_comm (b := ids ∈ found), or_assoc, or_assoc]

/-- Where the sums of costs fit, the enumeration lists the action sequences that lead to a goal. -/
theorem exists_plansUpTo (hpositive : world.isPositive = true) (hfit : world.SumsFit maxCost)
    (hcost : 0 ≤ maxCost) : ∃ found, world.plansUpTo maxCost = .ok found ∧
      ∀ ids, ids ∈ found ↔ world.Solves maxCost ids := by
  obtain ⟨listed, hlisted, hmem⟩ := exists_enumerate hpositive [⟨0, 0, []⟩] []
    (List.forall_mem_singleton.mpr (fits_start hfit hcost))
  refine ⟨sortAscending listed.eraseDups, ?_, fun ids ↦ ?_⟩
  · rw [plansUpTo, dif_pos hpositive, hlisted]
    rfl
  · rw [sortAscending, List.mem_mergeSort, List.mem_eraseDups, hmem, or_iff_right List.not_mem_nil]
    simp only [List.mem_singleton, exists_eq_left, completes_start]

/-! ## The task of a world -/

/-- The task is made of the goals and the actions of the world. -/
structure Builds (world : EdgeWorld) (task : ExplicitTask) : Prop where
  initial : task.initial = .single 0
  mem_goals_iff : ∀ s, s ∈ task.goals ↔ ∃ v, world.isGoal v = true ∧ s = .single v
  mem_relations_iff : ∀ r, r ∈ task.transitions.relations ↔
    ∃ i a, world.actions[i]? = some a ∧ ∃ hcost : 0 ≤ a.cost,
      r = .ofEdges ⟨actionId i, actionName i, a.cost, hcost⟩ (a.edges.map Samples.edge)

theorem builds_of_toTask? {task : ExplicitTask} (h : world.toTask? = .ok task) :
    world.Builds task := by
  obtain ⟨hinitial, hgoals, hrelations⟩ := ExplicitTask.ofData?_eq_ok h
  constructor
  case initial => exact hinitial
  case mem_goals_iff =>
    intro s
    rw [hgoals, StateSet.mem_ofList, List.mem_map]
    exact exists_congr fun v ↦ and_congr decide_eq_true_iff.symm eq_comm
  case mem_relations_iff =>
    intro r
    rw [hrelations]
    constructor
    · rintro ⟨_, hdata, action, haction, rfl⟩
      obtain ⟨⟨a, i⟩, ha, rfl⟩ := List.mem_map.mp hdata
      obtain ⟨hcost, rfl⟩ := Action.ofCost?_eq_ok_iff.mp haction
      exact ⟨i, a, List.mem_zipIdx_iff_getElem?.mp ha, hcost, rfl⟩
    · rintro ⟨i, a, ha, hcost, rfl⟩
      exact ⟨_, List.mem_map.mpr ⟨(a, i), List.mem_zipIdx_iff_getElem?.mpr ha, rfl⟩, _,
        Action.ofCost?_eq_ok_iff.mpr ⟨hcost, rfl⟩, rfl⟩

/-- The identifier is the position, as long as that can be represented. -/
theorem toNat_actionId (hi : i < 2 ^ 32) : (actionId i).toNat = i := by
  have hmin : Nat.min i 4294967295 = i := Nat.min_eq_left (by omega)
  rw [actionId, hmin, UInt32.toNat_ofNat_of_lt' hi]

namespace Builds

variable {task : ExplicitTask} {es : List (Step task.toTask.transitions)} {v : UInt32} {s : State}

/-- A step takes an action of the world along one of its edges. -/
theorem exists_action (h : world.Builds task) (e : Step task.toTask.transitions) :
    ∃ i a, world.actions[i]? = some a ∧ e.action.id = actionId i ∧
      e.action.name = actionName i ∧ e.cost = a.cost ∧
      ∀ s t, e.transition.HasEdge s t ↔
        ∃ edge ∈ a.edges, s = .single edge.1 ∧ t = .single edge.2 := by
  obtain ⟨i, a, ha, hcost, htransition⟩ :=
    (h.mem_relations_iff e.transition).mp e.transition_mem
  have haction : e.action = ⟨actionId i, actionName i, a.cost, hcost⟩ := by
    rw [Step.action, htransition, Transition.action_ofEdges]
  refine ⟨i, a, ha, by rw [haction], by rw [haction], by rw [Step.cost, haction], ?_⟩
  intro s t
  rw [htransition, Transition.hasEdge_ofEdges, List.mem_map]
  refine exists_congr fun edge ↦ and_congr_right fun _ ↦ ?_
  rw [Samples.edge, Prod.mk.injEq, eq_comm, @eq_comm _ _ t]

/-- The paths of the task are walks. -/
theorem walks_of_leads (h : world.Builds task) (hes : Leads (.single v) es s) :
    ∃ w, s = .single w ∧ world.Walks v (es.map fun e ↦ e.action.id) (pathCost es) w := by
  generalize hstart : State.single v = u at hes
  induction hes generalizing v with
  | nil => exact ⟨v, hstart.symm, .nil v⟩
  | @cons _ _ e es hedge _ ih =>
    subst hstart
    obtain ⟨i, a, ha, hid, -, hcost, hedges⟩ := h.exists_action e
    obtain ⟨⟨v', t⟩, hmem, hv, ht⟩ := (hedges _ _).mp hedge
    obtain rfl : v = v' := by simpa [State.single] using hv
    obtain ⟨w, rfl, hwalk⟩ := ih ht.symm
    refine ⟨w, rfl, ?_⟩
    rw [List.map_cons, pathCost_cons, hid, hcost]
    exact .cons ha hmem hwalk

/-- The walks are paths of the task. -/
theorem exists_leads (h : world.Builds task) (hpositive : world.isPositive = true)
    (hwalk : world.Walks v ids c t) :
    ∃ es : List (Step task.toTask.transitions), Leads (.single v) es (.single t) ∧
      (es.map fun e ↦ e.action.id) = ids ∧ pathCost es = c := by
  induction hwalk with
  | nil s => exact ⟨[], .nil _, rfl, rfl⟩
  | @cons s t u i a ids c ha hedge _ ih =>
    obtain ⟨es, hes, rfl, rfl⟩ := ih
    have hcost : 0 ≤ a.cost := Int.le_trans Int.one_nonneg (one_le_cost hpositive ha)
    have hrelation : Transition.ofEdges ⟨actionId i, actionName i, a.cost, hcost⟩
        (a.edges.map Samples.edge) ∈ task.toTask.transitions.relations :=
      (h.mem_relations_iff _).mpr ⟨i, a, ha, hcost, rfl⟩
    obtain ⟨e, htransition, htarget⟩ := exists_step hrelation (.single t)
    have haction : e.action = ⟨actionId i, actionName i, a.cost, hcost⟩ := by
      rw [Step.action, htransition, Transition.action_ofEdges]
    refine ⟨e :: es, .cons ?_ (htarget ▸ hes), ?_, ?_⟩
    · rw [htransition, htarget, Transition.hasEdge_ofEdges]
      exact List.mem_map_of_mem hedge
    · rw [List.map_cons, haction]
    · rw [pathCost_cons, Step.cost, haction]

/-- Where every action costs something, no path comes to a state twice at the same cost. -/
theorem levelSimple (h : world.Builds task) (hpositive : world.isPositive = true) (s : State)
    (es : List (Step task.toTask.transitions)) : LevelSimple s es := by
  induction es generalizing s with
  | nil => exact List.nodup_singleton _
  | cons e es ih =>
    refine levelSimple_cons_iff.mpr ⟨fun hback ↦ ?_, ih e.target⟩
    obtain ⟨i, a, ha, -, -, hcost, -⟩ := h.exists_action e
    have hpaid : e.cost ≤ 0 := (cost_of_mem_visits hback).1
    have hprice := one_le_cost hpositive ha
    omega

/-- Identifiers tell the actions apart. -/
theorem action_eq_of_id (h : world.Builds task) (hlength : world.actions.length < 2 ^ 32)
    {e f : Step task.toTask.transitions} (hid : e.action.id = f.action.id) :
    e.action = f.action := by
  obtain ⟨i, a, ha, hi, hname, hcost, -⟩ := h.exists_action e
  obtain ⟨j, b, hb, hj, hname', hcost', -⟩ := h.exists_action f
  have hilt := (List.getElem?_eq_some_iff.mp ha).1
  have hjlt := (List.getElem?_eq_some_iff.mp hb).1
  have hsame : i = j := by
    rw [← toNat_actionId (i := i) (by omega), ← toNat_actionId (i := j) (by omega),
      ← hi, ← hj, hid]
  subst hsame
  obtain rfl := Option.some.inj (ha.symm.trans hb)
  exact Action.ext hid (hname.trans hname'.symm) (hcost.trans hcost'.symm)

/-- So do labels, which tell more. -/
theorem labelsDetermineCosts (h : world.Builds task) (hlength : world.actions.length < 2 ^ 32) :
    task.toTask.LabelsDetermineCosts := by
  intro r hr q hq hlabel
  obtain ⟨e, rfl, -⟩ := exists_step hr (.single 0)
  obtain ⟨f, rfl, -⟩ := exists_step hq (.single 0)
  exact congrArg Action.cost (h.action_eq_of_id hlength (Prod.mk.inj hlabel).1)

end Builds

end EdgeWorld

end LayeredPlanning
