import LayeredPlanning.Reconstruction.Branch
import Mathlib.Data.List.FinRange

/-!
# The tree of branches

The ways to go on from a branch, as `Move`s: to turn round, or to follow a relation of the table to
a state.  Different moves are different ways to go on even where they lead to equal branches,
because a move names its relation by the place in the table.

`courses` lists the sequences of moves that lead from a branch to the branches below it, in the
order of a depth-first walk.  The list has no repetitions (`nodup_courses`) and holds exactly the
sequences of allowed moves (`mem_courses`).
-/

namespace LayeredPlanning

/-- A way to go on from a branch. -/
inductive Move (table : TransitionTable) where
  /-- The branch turns round at its meeting state. -/
  | turn
  /-- The end moves to `p` along the relation at `place`. -/
  | step (place : Fin table.relations.length) (p : State)
deriving DecidableEq

namespace Branch

variable {table : TransitionTable} {closed : ClosedLayers} {view : LayerView} {h : Int}

/-- The branch after a move. -/
def make (h : Int) (b : Branch) : Move table → Branch
  | .turn => b.turn h
  | .step k p =>
    if (table.relationAt k).action.isZeroCost then b.freeStep (table.relationAt k).action p
    else b.paidStep (table.relationAt k).action p

def freeMoves (table : TransitionTable) (closed : ClosedLayers) (b : Branch) : List (Move table) :=
  ((closed.rankedAt b.cost).filter fun p ↦ decide (p ∉ b.trail)).flatMap fun p ↦
    ((List.finRange table.relations.length).filter fun k ↦
      (b.neighbours (table.relationAt k)).contains p &&
        (table.relationAt k).action.isZeroCost).map (.step · p)

def paidMoves (table : TransitionTable) (closed : ClosedLayers) (b : Branch) : List (Move table) :=
  ((List.finRange table.relations.length).filter fun k ↦
    decide ((table.relationAt k).action.cost ≤ b.cost) &&
      !(table.relationAt k).action.isZeroCost).flatMap fun k ↦
    (b.neighbours (table.relationAt k) ∩
      closed.closedAt (b.cost - (table.relationAt k).action.cost)).toList.map (.step k)

/-- The moves of a branch, in the order in which they are explored. -/
def moves (view : LayerView) (b : Branch) : List (Move view.task.transitions) :=
  (if b.hasArrived view.task && b.direction == .forward then [.turn] else []) ++
    match view.layers? b.direction with
    | none => []
    | some closed =>
      b.freeMoves view.task.transitions closed ++ b.paidMoves view.task.transitions closed

/-- A filter on relations, through their places. -/
theorem filter_relations (q : Transition → Bool) :
    table.relations.filter q =
      ((List.finRange table.relations.length).filter fun k ↦ q (table.relationAt k)).map
        table.relationAt := by
  conv_lhs => rw [← List.map_get_finRange table.relations]
  exact List.filter_map

theorem map_make_freeMoves (b : Branch) :
    (b.freeMoves table closed).map (b.make h) = b.freeSteps table closed := by
  rw [freeMoves, freeSteps, List.map_flatMap]
  congr 1
  funext p
  rw [TransitionTable.zeroCost, List.filter_filter, filter_relations, List.map_map, List.map_map]
  apply List.map_congr_left
  intro k hk
  have hfree := (Bool.and_eq_true_iff.mp (List.mem_filter.mp hk).2).2
  rw [Function.comp_apply, Function.comp_apply, make, if_pos hfree]

theorem map_make_paidMoves (b : Branch) :
    (b.paidMoves table closed).map (b.make h) = b.paidSteps table closed := by
  rw [paidMoves, paidSteps, List.map_flatMap, TransitionTable.paid, List.filter_filter,
    filter_relations, List.flatMap_map]
  apply List.flatMap_congr
  intro k hk
  have hpaid := (Bool.and_eq_true_iff.mp (List.mem_filter.mp hk).2).2
  rw [List.map_map]
  apply List.map_congr_left
  intro p _
  rw [Bool.not_eq_true'] at hpaid
  rw [Function.comp_apply, make, hpaid, if_neg Bool.false_ne_true]

theorem mem_freeMoves {b : Branch} {mv : Move table} :
    mv ∈ b.freeMoves table closed ↔
      ∃ k p, mv = .step k p ∧ p ∈ closed.closedAt b.cost ∧ p ∉ b.trail ∧
        p ∈ b.neighbours (table.relationAt k) ∧ (table.relationAt k).action.cost = 0 := by
  simp only [freeMoves, List.mem_flatMap, List.mem_filter, ClosedLayers.mem_rankedAt,
    decide_eq_true_eq, List.mem_map, List.mem_finRange, true_and, Bool.and_eq_true,
    StateSet.contains_eq_true, Action.isZeroCost_iff]
  constructor
  · rintro ⟨p, ⟨hp, hpt⟩, k, ⟨hpk, hk⟩, rfl⟩
    exact ⟨k, p, rfl, hp, hpt, hpk, hk⟩
  · rintro ⟨k, p, rfl, hp, hpt, hpk, hk⟩
    exact ⟨p, ⟨hp, hpt⟩, k, ⟨hpk, hk⟩, rfl⟩

theorem mem_paidMoves {b : Branch} {mv : Move table} :
    mv ∈ b.paidMoves table closed ↔
      ∃ k p, mv = .step k p ∧
        p ∈ closed.closedAt (b.cost - (table.relationAt k).action.cost) ∧
        p ∈ b.neighbours (table.relationAt k) ∧ 0 < (table.relationAt k).action.cost ∧
          (table.relationAt k).action.cost ≤ b.cost := by
  have hpos : ∀ k, (table.relationAt k).action.isZeroCost = false ↔
      0 < (table.relationAt k).action.cost := fun k ↦ by
    have := (table.relationAt k).action.cost_nonneg
    rw [← Bool.not_eq_true, Action.isZeroCost_iff]
    omega
  simp only [paidMoves, List.mem_flatMap, List.mem_filter, List.mem_finRange, true_and,
    Bool.and_eq_true, decide_eq_true_eq, Bool.not_eq_true', hpos, List.mem_map,
    StateSet.mem_toList, StateSet.mem_inter]
  constructor
  · rintro ⟨k, ⟨hle, hk⟩, p, ⟨hpk, hp⟩, rfl⟩
    exact ⟨k, p, rfl, hp, hpk, hk, hle⟩
  · rintro ⟨k, p, rfl, hp, hpk, hk, hle⟩
    exact ⟨k, ⟨hle, hk⟩, p, ⟨hpk, hp⟩, rfl⟩

theorem nodup_freeMoves (b : Branch) : (b.freeMoves table closed).Nodup := by
  refine List.nodup_flatMap.mpr ⟨?_, ?_⟩
  · intro p _
    refine ((List.nodup_finRange _).filter _).map ?_
    intro k l hkl
    exact (Move.step.inj hkl).1
  · refine ((ClosedLayers.nodup_ranked _).filter _).imp fun {p q} hpq ↦ ?_
    intro mv hp hq
    obtain ⟨k, _, rfl⟩ := List.mem_map.mp hp
    obtain ⟨l, _, hl⟩ := List.mem_map.mp hq
    exact hpq (Move.step.inj hl).2.symm

theorem nodup_paidMoves (b : Branch) : (b.paidMoves table closed).Nodup := by
  refine List.nodup_flatMap.mpr ⟨?_, ?_⟩
  · intro k _
    exact (StateSet.nodup_toList _).map fun p q hpq ↦ (Move.step.inj hpq).2
  · refine ((List.nodup_finRange _).filter _).imp fun {k l} hkl ↦ ?_
    intro mv hk hl
    obtain ⟨p, _, rfl⟩ := List.mem_map.mp hk
    obtain ⟨q, _, hq⟩ := List.mem_map.mp hl
    exact hkl (Move.step.inj hq).1.symm

/-- What it takes to make a move: to turn, the branch has arrived at the initial state; to step, the
state is closed at what the step leaves of the cost, and, if the step is free, new to the layer. -/
theorem mem_moves {b : Branch} {mv : Move view.task.transitions} :
    mv ∈ b.moves view ↔
      mv = .turn ∧ b.hasArrived view.task = true ∧ b.direction = .forward ∨
      ∃ k p, mv = .step k p ∧ p ∈ b.neighbours (view.task.transitions.relationAt k) ∧
        p ∈ view.closedAt b.direction
          (b.cost - (view.task.transitions.relationAt k).action.cost) ∧
        ((view.task.transitions.relationAt k).action.cost = 0 ∧ p ∉ b.trail ∨
          0 < (view.task.transitions.relationAt k).action.cost ∧
            (view.task.transitions.relationAt k).action.cost ≤ b.cost) := by
  rw [moves, List.mem_append]
  refine or_congr ?_ ?_
  · split
    · next harr =>
      simp only [Bool.and_eq_true, beq_iff_eq] at harr
      simp [harr]
    · next harr =>
      simp only [Bool.and_eq_true, beq_iff_eq] at harr
      simp only [List.not_mem_nil, false_iff]
      rintro ⟨_, h⟩
      exact harr h
  · cases hl : view.layers? b.direction with
    | none => simp [LayerView.closedAt_of_none hl]
    | some closed =>
      simp only [LayerView.closedAt_of_some hl, List.mem_append, mem_freeMoves, mem_paidMoves]
      constructor
      · rintro (⟨k, p, rfl, hp, hpt, hpk, hk⟩ | ⟨k, p, rfl, hp, hpk, hk, hle⟩)
        · exact ⟨k, p, rfl, hpk, by rwa [hk, Int.sub_zero], .inl ⟨hk, hpt⟩⟩
        · exact ⟨k, p, rfl, hpk, hp, .inr ⟨hk, hle⟩⟩
      · rintro ⟨k, p, rfl, hpk, hp, ⟨hk, hpt⟩ | ⟨hk, hle⟩⟩
        · rw [hk, Int.sub_zero] at hp
          exact .inl ⟨k, p, rfl, hp, hpt, hpk, hk⟩
        · exact .inr ⟨k, p, rfl, hp, hpk, hk, hle⟩

theorem nodup_moves (b : Branch) : (b.moves view).Nodup := by
  rw [moves]
  refine List.nodup_append.mpr ⟨?_, ?_, ?_⟩
  · split
    · exact List.nodup_singleton _
    · exact .nil
  · split
    · exact .nil
    · refine List.nodup_append.mpr ⟨b.nodup_freeMoves, b.nodup_paidMoves, ?_⟩
      rintro _ hfree _ hpaid rfl
      obtain ⟨k, p, rfl, _, _, _, hk⟩ := mem_freeMoves.mp hfree
      obtain ⟨l, q, hl, _, _, hpos, _⟩ := mem_paidMoves.mp hpaid
      obtain rfl := (Move.step.inj hl).1
      omega
  · rintro _ hturn mv hstep rfl
    split at hturn
    · obtain rfl := List.mem_singleton.mp hturn
      split at hstep
      · exact List.not_mem_nil hstep
      · rcases List.mem_append.mp hstep with h | h
        · obtain ⟨_, _, h, _⟩ := mem_freeMoves.mp h
          cases h
        · obtain ⟨_, _, h, _⟩ := mem_paidMoves.mp h
          cases h
    · exact List.not_mem_nil hturn

/-- A branch with a free way to go on is justified. -/
theorem isFreelyJustified_of_mem_freeSteps {b c : Branch} (hc : c ∈ b.freeSteps table closed) :
    b.isFreelyJustified table closed = true := by
  obtain ⟨p, hp, _, r, hr, hpr, _⟩ := mem_freeSteps.mp hc
  refine List.any_eq_true.mpr ⟨r, hr, ?_⟩
  rw [Bool.not_eq_true']
  exact StateSet.isEmpty_eq_false_iff.mpr ⟨p, StateSet.mem_inter.mpr ⟨hpr, hp⟩⟩

/-- Moves make the ways to go on.  A branch that cannot be justified has none of either. -/
theorem map_make_moves (b : Branch) : (b.moves view).map (b.make h) = b.children view h := by
  have hturn : (if b.hasArrived view.task && b.direction == .forward then
      [(.turn : Move view.task.transitions)] else []).map (b.make h) =
        if b.hasArrived view.task && b.direction == .forward then [b.turn h] else [] := by
    split <;> rfl
  rw [moves, List.map_append, hturn, children, expand]
  cases view.layers? b.direction with
  | none =>
    by_cases harr : b.hasArrived view.task = true <;> simp [harr]
  | some closed =>
    simp only [List.map_append, map_make_freeMoves, map_make_paidMoves]
    by_cases hjust : (b.hasArrived view.task || b.isFreelyJustified view.task.transitions closed ||
        !(b.paidSteps view.task.transitions closed).isEmpty) = true
    · rw [if_pos hjust, List.append_assoc]
    · rw [if_neg hjust]
      simp only [Bool.or_eq_true, Bool.not_eq_true', not_or, Bool.not_eq_true,
        Bool.not_eq_false, List.isEmpty_iff] at hjust
      obtain ⟨⟨harr, hfree⟩, hpaid⟩ := hjust
      have hnone : b.freeSteps view.task.transitions closed = [] := by
        apply List.eq_nil_iff_forall_not_mem.mpr
        intro c hc
        rw [isFreelyJustified_of_mem_freeSteps hc] at hfree
        cases hfree
      rw [harr, hnone, hpaid]
      rfl

/-! ## Courses -/

/-- The sequences of moves that lead from a branch to itself and to the branches below it. -/
def courses (view : LayerView) (h : Int) (b : Branch) : List (List (Move view.task.transitions)) :=
  [] :: (b.moves view).attach.flatMap fun ⟨mv, _⟩ ↦
    ((b.make h mv).courses view h).map (mv :: ·)
termination_by b.rank view h
decreasing_by
  next hmv =>
    apply rank_lt_of_mem_children
    rw [← map_make_moves]
    exact List.mem_map_of_mem hmv

/-- The branch after a sequence of moves. -/
def follow (h : Int) (b : Branch) (ms : List (Move table)) : Branch := ms.foldl (make h) b

/-- Each move of the sequence is one of the branch at which it is made. -/
def Follows (view : LayerView) (h : Int) (b : Branch) :
    List (Move view.task.transitions) → Prop
  | [] => True
  | mv :: ms => mv ∈ b.moves view ∧ (b.make h mv).Follows view h ms

theorem courses_eq (b : Branch) :
    b.courses view h =
      [] :: (b.moves view).flatMap fun mv ↦ ((b.make h mv).courses view h).map (mv :: ·) := by
  rw [courses]
  conv_rhs => rw [← List.attach_map_subtype_val (b.moves view), List.flatMap_map]

@[simp] theorem follow_nil (b : Branch) : b.follow h ([] : List (Move table)) = b := rfl

@[simp] theorem follow_cons (b : Branch) (mv : Move table) (ms : List (Move table)) :
    b.follow h (mv :: ms) = (b.make h mv).follow h ms := rfl

theorem follow_concat (b : Branch) (ms : List (Move table)) (mv : Move table) :
    b.follow h (ms ++ [mv]) = (b.follow h ms).make h mv := by
  rw [follow, List.foldl_append]
  rfl

theorem follows_concat {b : Branch} {ms : List (Move view.task.transitions)}
    {mv : Move view.task.transitions} :
    b.Follows view h (ms ++ [mv]) ↔
      b.Follows view h ms ∧ mv ∈ (b.follow h ms).moves view := by
  induction ms generalizing b with
  | nil => simp [Follows]
  | cons _ ms ih =>
    rw [List.cons_append, Follows, Follows, ih, follow_cons, and_assoc]

/-- The ways to go on from where moves lead are where one move more leads. -/
theorem exists_follow_of_mem_children {b c : Branch} {ms : List (Move view.task.transitions)}
    (hms : b.Follows view h ms) (hc : c ∈ (b.follow h ms).children view h) :
    ∃ ms', b.Follows view h ms' ∧ c = b.follow h ms' := by
  rw [← map_make_moves] at hc
  obtain ⟨mv, hmv, rfl⟩ := List.mem_map.mp hc
  exact ⟨ms ++ [mv], follows_concat.mpr ⟨hms, hmv⟩, (follow_concat b ms mv).symm⟩

/-- A branch below is reached by allowed moves, and allowed moves reach a branch below. -/
theorem mem_courses {b : Branch} {ms : List (Move view.task.transitions)} :
    ms ∈ b.courses view h ↔ b.Follows view h ms := by
  induction ms generalizing b with
  | nil =>
    rw [courses_eq]
    simp [Follows]
  | cons mv ms ih =>
    rw [courses_eq, Follows, ← ih]
    simp only [List.mem_cons, reduceCtorEq, List.mem_flatMap, List.mem_map, false_or]
    constructor
    · rintro ⟨_, hmv, _, hms, heq⟩
      obtain ⟨rfl, rfl⟩ := List.cons.inj heq
      exact ⟨hmv, hms⟩
    · rintro ⟨hmv, hms⟩
      exact ⟨mv, hmv, ms, hms, rfl⟩

/-- No sequence of moves is listed twice. -/
theorem nodup_courses (b : Branch) : (b.courses view h).Nodup := by
  rw [courses_eq]
  refine List.nodup_cons.mpr ⟨?_, List.nodup_flatMap.mpr ⟨?_, ?_⟩⟩
  · simp
  · intro mv hmv
    exact ((b.make h mv).nodup_courses).map List.cons_injective
  · refine b.nodup_moves.imp fun {mv mv'} hne ms hms hms' ↦ ?_
    obtain ⟨_, _, rfl⟩ := List.mem_map.mp hms
    obtain ⟨_, _, heq⟩ := List.mem_map.mp hms'
    exact hne (List.cons.inj heq).1.symm
termination_by b.rank view h
decreasing_by
  apply rank_lt_of_mem_children
  rw [← map_make_moves]
  exact List.mem_map_of_mem hmv

end Branch

end LayeredPlanning
