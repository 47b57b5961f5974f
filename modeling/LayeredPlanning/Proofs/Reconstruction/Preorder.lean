import LayeredPlanning.Proofs.Reconstruction.Submissions
import Mathlib.Data.List.Sort

/-!
# The order of a reconstruction

`Branch.Tours` says what a depth-first walk below a branch comes across, and in which order.  It is
a recursive relation that knows of no stack, and it describes the moves of a branch by what they are
(`Branch.Allows`) and by which comes before which (`Branch.Precedes`):

* a turn comes before all steps;
* free steps come before paid ones, and go by first sub-layer, then state, then place in the table;
* paid steps go by cost, then place in the table, then state.

There is one such tour from every branch (`Branch.tours_iff`).  `Walk.Delivers` says which plans of
a tour a store is offered, and how that ends.  `reconstruct_delivers_tour` puts both together: the
walk with its stack offers the plans of the tour of its cut, up to the first error or until its
budget is used up.
-/

namespace LayeredPlanning

namespace ClosedLayers

/-- Ranking goes by the first sub-layer that has a state, then by state. -/
theorem pairwise_ranked (Ls : List StateSet) :
    (ranked Ls).Pairwise fun s t ↦
      (Ls.findIdx? (·.contains s)).getD 0 < (Ls.findIdx? (·.contains t)).getD 0 ∨
        (Ls.findIdx? (·.contains s)).getD 0 = (Ls.findIdx? (·.contains t)).getD 0 ∧ s < t := by
  induction Ls with
  | nil => exact .nil
  | cons L Ls ih =>
    have hfirst : ∀ s ∈ L, ((L :: Ls).findIdx? (·.contains s)).getD 0 = 0 := by
      intro s hs
      rw [List.findIdx?_cons, if_pos (StateSet.contains_eq_true.mpr hs), Option.getD_some]
    have hlater : ∀ s ∈ (ranked Ls).filter fun s ↦ !L.contains s,
        ((L :: Ls).findIdx? (·.contains s)).getD 0 = (Ls.findIdx? (·.contains s)).getD 0 + 1 := by
      intro s hs
      obtain ⟨hranked, hnew⟩ := List.mem_filter.mp hs
      rw [Bool.not_eq_true'] at hnew
      obtain ⟨T, hT, hsT⟩ := mem_ranked.mp hranked
      have hsome : (Ls.findIdx? (·.contains s)).isSome :=
        List.findIdx?_isSome ▸ List.any_eq_true.mpr ⟨T, hT, StateSet.contains_eq_true.mpr hsT⟩
      obtain ⟨i, hi⟩ := Option.isSome_iff_exists.mp hsome
      rw [List.findIdx?_cons, hnew, if_neg Bool.false_ne_true, hi]
      rfl
    rw [ranked]
    refine List.pairwise_append.mpr ⟨?_, ?_, ?_⟩
    · refine L.ascending.imp_of_mem fun {s t} hs ht hlt ↦ .inr ⟨?_, hlt⟩
      rw [hfirst s hs, hfirst t ht]
    · refine (ih.filter _).imp_of_mem fun {s t} hs ht hlt ↦ ?_
      rw [hlater s hs, hlater t ht, Nat.add_lt_add_iff_right, Nat.add_right_cancel_iff]
      exact hlt
    · intro s hs t ht
      rw [hfirst s hs, hlater t ht]
      exact .inl (Nat.succ_pos _)

end ClosedLayers

namespace Branch

/-! ## Moves and their order -/

/-- The relation at place `k` explains the end of the branch by `p`: it leads from `p` to the end,
or from the end to `p` on the way to a goal, and `p` is closed at what the action leaves of the
cost. -/
structure Explains (view : LayerView) (b : Branch)
    (k : Fin view.task.transitions.relations.length) (p : State) : Prop where
  neighbour : p ∈ b.neighbours (view.task.transitions.relationAt k)
  closed : p ∈ view.closedAt b.direction
    (b.cost - (view.task.transitions.relationAt k).action.cost)
  paid : 0 < (view.task.transitions.relationAt k).action.cost →
    (view.task.transitions.relationAt k).action.cost ≤ b.cost

/-- A branch that has arrived at the initial state turns.  A step follows an explanation; a free one
does not go back to where the branch has been in the layer. -/
inductive Allows (view : LayerView) (b : Branch) : Move view.task.transitions → Prop where
  | turn : b.hasArrived view.task = true → b.direction = .forward → Allows view b .turn
  | step {k : Fin view.task.transitions.relations.length} {p : State} : b.Explains view k p →
      ((view.task.transitions.relationAt k).action.cost = 0 → p ∉ b.trail) →
        Allows view b (.step k p)

/-- The position of the first sub-layer that has `p`, in the layer of the end. -/
def sublayerOf (view : LayerView) (b : Branch) (p : State) : Nat :=
  ((view.layers? b.direction).bind fun closed ↦ closed.sublayerIndex? b.cost p).getD 0

/-- Which of two moves comes first. -/
inductive Precedes (view : LayerView) (b : Branch) :
    Move view.task.transitions → Move view.task.transitions → Prop where
  | turn {k p} : Precedes view b .turn (.step k p)
  | free {k l p q} : (view.task.transitions.relationAt k).action.cost = 0 →
      0 < (view.task.transitions.relationAt l).action.cost →
        Precedes view b (.step k p) (.step l q)
  | freeSublayer {k l p q} : (view.task.transitions.relationAt k).action.cost = 0 →
      (view.task.transitions.relationAt l).action.cost = 0 →
        b.sublayerOf view p < b.sublayerOf view q → Precedes view b (.step k p) (.step l q)
  | freeState {k l p q} : (view.task.transitions.relationAt k).action.cost = 0 →
      (view.task.transitions.relationAt l).action.cost = 0 →
        b.sublayerOf view p = b.sublayerOf view q → p < q →
          Precedes view b (.step k p) (.step l q)
  | freePlace {k l p} : (view.task.transitions.relationAt k).action.cost = 0 →
      (view.task.transitions.relationAt l).action.cost = 0 → k < l →
        Precedes view b (.step k p) (.step l p)
  | paidCost {k l p q} : 0 < (view.task.transitions.relationAt k).action.cost →
      (view.task.transitions.relationAt k).action.cost <
        (view.task.transitions.relationAt l).action.cost → Precedes view b (.step k p) (.step l q)
  | paidPlace {k l p q} : 0 < (view.task.transitions.relationAt k).action.cost →
      (view.task.transitions.relationAt k).action.cost =
        (view.task.transitions.relationAt l).action.cost → k < l →
          Precedes view b (.step k p) (.step l q)
  | paidState {k p q} : 0 < (view.task.transitions.relationAt k).action.cost → p < q →
      Precedes view b (.step k p) (.step k q)

variable {view : LayerView} {h : Int} {b : Branch} {closed : ClosedLayers}
  {items : List (Except ReconstructionError Plan)}

instance instAsymmPrecedes (view : LayerView) (b : Branch) : Std.Asymm (b.Precedes view) where
  asymm _ _ hab hba := by
    -- Costs, sub-layers and places compare as numbers, which leaves two states.
    cases hab <;> cases hba <;> first | omega | exact absurd ‹_ < _› (StrictOrder.asymm ‹_›)

theorem mem_moves_iff_allows {mv : Move view.task.transitions} :
    mv ∈ b.moves view ↔ b.Allows view mv := by
  rw [mem_moves]
  constructor
  · rintro (⟨rfl, harr, hd⟩ |
      ⟨k, p, rfl, hp, hclosed, ⟨hfree, hnew⟩ | ⟨hpos, hle⟩⟩)
    · exact .turn harr hd
    · exact .step ⟨hp, hclosed, fun hpos ↦ absurd hfree (by omega)⟩ fun _ ↦ hnew
    · exact .step ⟨hp, hclosed, fun _ ↦ hle⟩ fun hfree ↦ absurd hfree (by omega)
  · rintro (⟨harr, hd⟩ | @⟨k, p, ⟨hp, hclosed, hpaid⟩, hnew⟩)
    · exact .inl ⟨rfl, harr, hd⟩
    · refine .inr ⟨k, p, rfl, hp, hclosed, ?_⟩
      rcases Int.lt_or_eq_of_le (view.task.transitions.relationAt k).action.cost_nonneg with
        hpos | hfree
      · exact .inr ⟨hpos, hpaid hpos⟩
      · exact .inl ⟨hfree.symm, hnew hfree.symm⟩

/-- Cheaper actions stand before dearer ones. -/
theorem cost_le_of_place_lt {table : TransitionTable}
    {k l : Fin table.relations.length} (hkl : k < l) :
    (table.relationAt k).action.cost ≤ (table.relationAt l).action.cost :=
  List.pairwise_iff_get.mp table.ascending k l hkl

theorem pairwise_freeMoves (hl : view.layers? b.direction = some closed) :
    (b.freeMoves view.task.transitions closed).Pairwise (b.Precedes view) := by
  have hsublayer : ∀ p, b.sublayerOf view p =
      ((closed.sublayers b.cost).findIdx? (·.contains p)).getD 0 := by
    intro p
    rw [sublayerOf, hl]
    rfl
  have hfree : ∀ {p mv},
      mv ∈ ((List.finRange view.task.transitions.relations.length).filter fun k ↦
        (b.neighbours (view.task.transitions.relationAt k)).contains p &&
        (view.task.transitions.relationAt k).action.isZeroCost).map (Move.step · p) →
      ∃ k, mv = .step k p ∧ (view.task.transitions.relationAt k).action.cost = 0 := by
    intro p mv hmv
    obtain ⟨k, hk, rfl⟩ := List.mem_map.mp hmv
    have hzero := (Bool.and_eq_true_iff.mp (List.mem_filter.mp hk).2).2
    exact ⟨k, rfl, Action.isZeroCost_iff.mp hzero⟩
  rw [freeMoves]
  refine List.pairwise_flatMap.mpr ⟨fun p _ ↦ ?_, ?_⟩
  · refine List.pairwise_map.mpr (((List.sortedLT_finRange _).pairwise.filter _).imp_of_mem ?_)
    intro k l hk hl hkl
    obtain ⟨_, heq, hk⟩ := hfree (List.mem_map_of_mem hk)
    obtain ⟨_, heq', hl⟩ := hfree (List.mem_map_of_mem hl)
    obtain rfl := (Move.step.inj heq).1
    obtain rfl := (Move.step.inj heq').1
    exact .freePlace hk hl hkl
  · refine ((ClosedLayers.pairwise_ranked _).filter _).imp fun {p q} hpq ↦ ?_
    intro mv hmv mv' hmv'
    obtain ⟨k, rfl, hk⟩ := hfree hmv
    obtain ⟨l, rfl, hl⟩ := hfree hmv'
    rw [← hsublayer, ← hsublayer] at hpq
    rcases hpq with hlt | ⟨heq, hlt⟩
    · exact .freeSublayer hk hl hlt
    · exact .freeState hk hl heq hlt

theorem pairwise_paidMoves (b : Branch) :
    (b.paidMoves view.task.transitions closed).Pairwise (b.Precedes view) := by
  have hpaid : ∀ {k},
      k ∈ ((List.finRange view.task.transitions.relations.length).filter fun k ↦
        decide ((view.task.transitions.relationAt k).action.cost ≤ b.cost) &&
        !(view.task.transitions.relationAt k).action.isZeroCost) →
      0 < (view.task.transitions.relationAt k).action.cost := by
    intro k hk
    have hnonneg := (view.task.transitions.relationAt k).action.cost_nonneg
    have hnonzero := (Bool.and_eq_true_iff.mp (List.mem_filter.mp hk).2).2
    rw [Bool.not_eq_true', ← Bool.not_eq_true, Action.isZeroCost_iff] at hnonzero
    omega
  rw [paidMoves]
  refine List.pairwise_flatMap.mpr ⟨fun k hk ↦ ?_, ?_⟩
  · exact List.pairwise_map.mpr ((StateSet.ascending _).imp fun hlt ↦ .paidState (hpaid hk) hlt)
  · refine ((List.sortedLT_finRange _).pairwise.filter _).imp_of_mem fun {k l} hk hl hkl ↦ ?_
    intro mv hmv mv' hmv'
    obtain ⟨p, _, rfl⟩ := List.mem_map.mp hmv
    obtain ⟨q, _, rfl⟩ := List.mem_map.mp hmv'
    rcases Int.lt_or_eq_of_le (cost_le_of_place_lt hkl) with hlt | heq
    · exact .paidCost (hpaid hk) hlt
    · exact .paidPlace (hpaid hk) heq hkl

/-- The moves of a branch are listed in their order. -/
theorem pairwise_moves (b : Branch) : (b.moves view).Pairwise (b.Precedes view) := by
  rw [moves]
  refine List.pairwise_append.mpr ⟨?_, ?_, ?_⟩
  · split
    · exact List.pairwise_singleton _ _
    · exact .nil
  · split
    · exact .nil
    · next hl =>
      refine List.pairwise_append.mpr ⟨pairwise_freeMoves hl, b.pairwise_paidMoves, ?_⟩
      intro mv hfree mv' hpaid
      obtain ⟨k, p, rfl, _, _, _, hk⟩ := mem_freeMoves.mp hfree
      obtain ⟨l, q, rfl, _, _, hpos, _⟩ := mem_paidMoves.mp hpaid
      exact .free hk hpos
  · intro mv hturn mv' hstep
    split at hturn
    · obtain rfl := List.mem_singleton.mp hturn
      split at hstep
      · exact absurd hstep List.not_mem_nil
      · rcases List.mem_append.mp hstep with hfree | hpaid
        · obtain ⟨k, p, rfl, _⟩ := mem_freeMoves.mp hfree
          exact .turn
        · obtain ⟨k, p, rfl, _⟩ := mem_paidMoves.mp hpaid
          exact .turn
    · exact absurd hturn List.not_mem_nil

/-- There is one list of the moves of a branch in their order. -/
theorem eq_moves_iff {moves : List (Move view.task.transitions)} :
    moves = b.moves view ↔
      moves.Pairwise (b.Precedes view) ∧ ∀ mv, mv ∈ moves ↔ b.Allows view mv := by
  constructor
  · rintro rfl
    exact ⟨b.pairwise_moves, fun _ ↦ mem_moves_iff_allows⟩
  · rintro ⟨horder, hmem⟩
    refine horder.eq_of_mem_iff b.pairwise_moves fun mv ↦ ?_
    rw [hmem, mem_moves_iff_allows]

/-! ## Tours -/

/-- The plan of a branch that has arrived at a goal. -/
def completion (view : LayerView) (b : Branch) : List (Except ReconstructionError Plan) :=
  if b.hasArrived view.task && b.direction == .backward then [.ok b.toPlan] else []

/-- A depth-first walk below `b` comes across `items`.  A branch that has arrived, or whose end is
explained, comes to its plan, if it has one, and then to what lies below its moves, one after the
other.  Any other branch comes to an error. -/
inductive Tours (view : LayerView) (h : Int) :
    Branch → List (Except ReconstructionError Plan) → Prop where
  | missing {b : Branch} : b.hasArrived view.task = false → view.layers? b.direction = none →
      Tours view h b [.error (.missingLayers b.direction b.cost)]
  | unjustified {b : Branch} {closed : ClosedLayers} : b.hasArrived view.task = false →
      view.layers? b.direction = some closed → (∀ k p, ¬ b.Explains view k p) →
        Tours view h b [.error (.unjustifiedState b.direction b.cost b.state.text)]
  | visit {b : Branch} {moves : List (Move view.task.transitions)}
      {below : Move view.task.transitions → List (Except ReconstructionError Plan)} :
      (b.hasArrived view.task = true ∨ ∃ k p, b.Explains view k p) →
        moves.Pairwise (b.Precedes view) → (∀ mv, mv ∈ moves ↔ b.Allows view mv) →
          (∀ mv ∈ moves, Tours view h (b.make h mv) (below mv)) →
            Tours view h b (b.completion view ++ moves.flatMap below)

/-- An explanation is a free one within the layer, or one of the paid steps. -/
theorem exists_explains_iff (hl : view.layers? b.direction = some closed) :
    (∃ k p, b.Explains view k p) ↔
      b.isFreelyJustified view.task.transitions closed = true ∨
        (b.paidSteps view.task.transitions closed).isEmpty = false := by
  have hplace : ∀ r ∈ view.task.transitions.relations,
      ∃ k, view.task.transitions.relationAt k = r :=
    fun r hr ↦ List.mem_iff_get.mp hr
  constructor
  · rintro ⟨k, p, hp, hclosed, hpaid⟩
    have hr := view.task.transitions.relationAt_mem k
    rw [LayerView.closedAt_of_some hl] at hclosed
    rcases Int.lt_or_eq_of_le (view.task.transitions.relationAt k).action.cost_nonneg with
      hpos | hfree
    · right
      rw [← Bool.not_eq_true, List.isEmpty_iff]
      refine List.ne_nil_of_mem (mem_paidSteps.mpr
        ⟨_, TransitionTable.mem_paid.mpr ⟨hr, hpos⟩, hpaid hpos, p, hclosed, hp, rfl⟩)
    · left
      rw [← hfree, Int.sub_zero] at hclosed
      refine List.any_eq_true.mpr ⟨_, TransitionTable.mem_zeroCost.mpr ⟨hr, hfree.symm⟩, ?_⟩
      rw [Bool.not_eq_true']
      exact StateSet.isEmpty_eq_false_iff.mpr ⟨p, StateSet.mem_inter.mpr ⟨hp, hclosed⟩⟩
  · rintro (hfree | hpaid)
    · obtain ⟨r, hr, hmeet⟩ := List.any_eq_true.mp hfree
      obtain ⟨hr, hzero⟩ := TransitionTable.mem_zeroCost.mp hr
      obtain ⟨k, rfl⟩ := hplace r hr
      rw [Bool.not_eq_true'] at hmeet
      obtain ⟨p, hmem⟩ := StateSet.isEmpty_eq_false_iff.mp hmeet
      obtain ⟨hp, hclosed⟩ := StateSet.mem_inter.mp hmem
      refine ⟨k, p, hp, ?_, fun hpos ↦ absurd hzero (by omega)⟩
      rwa [LayerView.closedAt_of_some hl, hzero, Int.sub_zero]
    · rw [← Bool.not_eq_true, List.isEmpty_iff] at hpaid
      obtain ⟨c, hc⟩ := List.exists_mem_of_ne_nil _ hpaid
      obtain ⟨r, hr, hle, p, hclosed, hp, -⟩ := mem_paidSteps.mp hc
      obtain ⟨k, rfl⟩ := hplace r (TransitionTable.mem_paid.mp hr).1
      refine ⟨k, p, hp, ?_, fun _ ↦ hle⟩
      rwa [LayerView.closedAt_of_some hl]

/-- Without layers nothing is explained. -/
theorem Explains.exists_layers {k : Fin view.task.transitions.relations.length} {p : State}
    (hexplains : b.Explains view k p) : ∃ closed, view.layers? b.direction = some closed := by
  refine Option.ne_none_iff_exists'.mp fun hl ↦ ?_
  have hclosed := hexplains.closed
  rw [LayerView.closedAt_of_none hl] at hclosed
  exact StateSet.notMem_empty p hclosed

theorem expand_missing (harr : b.hasArrived view.task = false)
    (hl : view.layers? b.direction = none) (h : Int) :
    b.expand view h = .error (.missingLayers b.direction b.cost) := by
  rw [expand, hl]
  dsimp only
  rw [harr, if_neg Bool.false_ne_true]

theorem expand_unjustified (harr : b.hasArrived view.task = false)
    (hl : view.layers? b.direction = some closed)
    (hnone : ∀ k p, ¬ b.Explains view k p) (h : Int) :
    b.expand view h = .error (.unjustifiedState b.direction b.cost b.state.text) := by
  have hunexplained : ¬ ∃ k p, b.Explains view k p := by
    rintro ⟨k, p, hexplains⟩
    exact hnone k p hexplains
  rw [exists_explains_iff hl, not_or, Bool.not_eq_true, Bool.not_eq_false] at hunexplained
  rw [expand, hl]
  dsimp only
  rw [harr, hunexplained.1, hunexplained.2]
  exact if_neg Bool.false_ne_true

theorem yields_visit
    (hvisit : b.hasArrived view.task = true ∨ ∃ k p, b.Explains view k p) (h : Int) :
    b.yields view h = b.completion view := by
  have hcompletion : ∀ arrived : Bool,
      ((if arrived && b.direction == .backward then some b.toPlan else none).toList.map Except.ok :
        List (Except ReconstructionError Plan)) =
          if arrived && b.direction == .backward then [.ok b.toPlan] else [] := by
    intro arrived
    split <;> rfl
  rw [yields, expand, completion]
  cases hl : view.layers? b.direction with
  | none =>
    have harr : b.hasArrived view.task = true := by
      refine hvisit.resolve_right ?_
      rintro ⟨k, p, hexplains⟩
      obtain ⟨closed, hsome⟩ := hexplains.exists_layers
      rw [hl] at hsome
      cases hsome
    rw [harr]
    exact hcompletion true
  | some closed =>
    have hjust : (b.hasArrived view.task || b.isFreelyJustified view.task.transitions closed ||
        !(b.paidSteps view.task.transitions closed).isEmpty) = true := by
      rw [exists_explains_iff hl] at hvisit
      rwa [Bool.or_eq_true, Bool.or_eq_true, Bool.not_eq_true', or_assoc]
    dsimp only
    rw [if_pos hjust]
    exact hcompletion _

theorem preorder_of_error {e : ReconstructionError} (hexpand : b.expand view h = .error e) :
    b.preorder view h = [.error e] := by
  rw [preorder_eq, yields, children, hexpand]
  rfl

theorem preorder_visit (hvisit : b.hasArrived view.task = true ∨ ∃ k p, b.Explains view k p) :
    b.preorder view h =
      b.completion view ++ (b.moves view).flatMap fun mv ↦ (b.make h mv).preorder view h := by
  rw [preorder_eq, yields_visit hvisit, ← map_make_moves, List.flatMap_map]

theorem Tours.eq_preorder (htours : b.Tours view h items) : items = b.preorder view h := by
  induction htours with
  | missing harr hl => exact (preorder_of_error (expand_missing harr hl h)).symm
  | unjustified harr hl hnone => exact (preorder_of_error (expand_unjustified harr hl hnone h)).symm
  | visit hvisit horder hmem _ ih =>
    obtain rfl := eq_moves_iff.mpr ⟨horder, hmem⟩
    rw [preorder_visit hvisit]
    exact congrArg _ (List.flatMap_congr ih)

theorem tours_preorder (b : Branch) : b.Tours view h (b.preorder view h) := by
  by_cases hvisit : b.hasArrived view.task = true ∨ ∃ k p, b.Explains view k p
  · rw [preorder_visit hvisit]
    obtain ⟨horder, hmem⟩ := eq_moves_iff.mp (rfl : b.moves view = b.moves view)
    exact .visit hvisit horder hmem fun mv hmv ↦ tours_preorder (b.make h mv)
  · obtain ⟨harr, hnone⟩ := not_or.mp hvisit
    rw [Bool.not_eq_true] at harr
    simp only [not_exists] at hnone
    cases hl : view.layers? b.direction with
    | none =>
      rw [preorder_of_error (expand_missing harr hl h)]
      exact .missing harr hl
    | some closed =>
      rw [preorder_of_error (expand_unjustified harr hl hnone h)]
      exact .unjustified harr hl hnone
termination_by b.rank view h
decreasing_by
  apply rank_lt_of_mem_children
  rw [← map_make_moves]
  exact List.mem_map_of_mem hmv

/-- There is one tour from every branch. -/
theorem tours_iff : b.Tours view h items ↔ items = b.preorder view h :=
  ⟨Tours.eq_preorder, fun heq ↦ heq ▸ b.tours_preorder⟩

end Branch

/-- A depth-first walk through a cut comes across `items`: it takes the meeting states in ascending
order, and each one with all that lies below. -/
def Cut.Tours (view : LayerView) (cut : Cut) (items : List (Except ReconstructionError Plan)) :
    Prop :=
  ∃ (ms : List State) (below : State → List (Except ReconstructionError Plan)),
    ms.Pairwise (· < ·) ∧ (∀ m, m ∈ ms ↔ m ∈ cut.states) ∧
      (∀ m ∈ ms, (Branch.ofMeeting cut.g m).Tours view cut.h (below m)) ∧
      items = ms.flatMap below

theorem Cut.tours_iff {view : LayerView} {cut : Cut}
    {items : List (Except ReconstructionError Plan)} :
    cut.Tours view items ↔ items = cut.preorder view := by
  constructor
  · rintro ⟨ms, below, horder, hmem, htours, rfl⟩
    obtain rfl : ms = cut.states.toList :=
      StateSet.eq_of_pairwise_of_mem_iff horder cut.states.ascending hmem
    exact List.flatMap_congr fun m hm ↦ Branch.tours_iff.mp (htours m hm)
  · rintro rfl
    exact ⟨cut.states.toList, _, cut.states.ascending, fun _ ↦ StateSet.mem_toList,
      fun m _ ↦ Branch.tours_iff.mpr rfl, rfl⟩

/-! ## Deliveries -/

namespace Walk

variable {σ : Type} [PlanStore σ] {cut : Cut} {budget : Nat} {tally : Tally} {store : σ}
  {items : List (Except ReconstructionError Plan)} {item : Except ReconstructionError Plan}
  {plan : Plan} {plans : List Plan} {last : Walk.End σ}

/-- The error at which a delivery is given up: one that comes up, or that of a plan which does not
cost what the cut promises. -/
def fault? (cut : Cut) : Except ReconstructionError Plan → Option ReconstructionError
  | .error e => some e
  | .ok plan => if plan.cost = cut.f then none else some (.costMismatch cut.f plan.cost)

/-- The store is offered `plans`, which are the first items, until it has accepted `budget` of them
or there is a fault.  In any case the store is what the plans make of it, and without a fault the
tally is theirs. -/
structure Delivers (cut : Cut) (budget : Nat) (tally : Tally) (store : σ)
    (items : List (Except ReconstructionError Plan)) (plans : List Plan)
    (last : Walk.End σ) : Prop where
  offered : plans.map .ok <+: items
  cost : ∀ plan ∈ plans, plan.cost = cut.f
  missing : ∀ front, front <+: plans → front ≠ plans →
    (submitAll tally store front).1.accepted < budget
  final : last.2 = (submitAll tally store plans).2
  answer :
    (last.1 = .ok (submitAll tally store plans).1 ∧
      (budget ≤ (submitAll tally store plans).1.accepted ∨ items = plans.map .ok)) ∨
    ((submitAll tally store plans).1.accepted < budget ∧
      ∃ e item, last.1 = .error e ∧ plans.map .ok ++ [item] <+: items ∧
        fault? cut item = some e)

namespace Delivers

/-- Nothing is offered where the first item has a fault. -/
theorem fault {e : ReconstructionError} (hlt : tally.accepted < budget)
    (hfault : fault? cut item = some e) :
    Delivers cut budget tally store (item :: items) [] (.error e, store) where
  offered := List.nil_prefix
  cost := List.forall_mem_nil _
  missing _ hfront hne := absurd (List.prefix_nil.mp hfront) hne
  final := rfl
  answer := .inr ⟨hlt, e, item, rfl, ⟨items, rfl⟩, hfault⟩

/-- A plan that does not use up the budget is offered first. -/
theorem submit (hlt : tally.accepted < budget) (hcost : plan.cost = cut.f)
    (h : Delivers cut budget (tally.record (PlanStore.submit store plan).1 plan)
      (PlanStore.submit store plan).2 items plans last) :
    Delivers cut budget tally store (.ok plan :: items) (plan :: plans) last where
  offered := List.cons_prefix_cons.mpr ⟨rfl, h.offered⟩
  cost := List.forall_mem_cons.mpr ⟨hcost, h.cost⟩
  missing front hfront hne := by
    rcases List.prefix_cons_iff.mp hfront with rfl | ⟨front, rfl, hrest⟩
    · exact hlt
    · exact h.missing front hrest fun heq ↦ hne (congrArg _ heq)
  final := h.final
  answer := by
    rcases h.answer with ⟨hok, hend⟩ | ⟨hopen, e, item, herror, hnext, hfault⟩
    · exact .inl ⟨hok, hend.imp_right (congrArg _)⟩
    · exact .inr ⟨hopen, e, item, herror, List.cons_prefix_cons.mpr ⟨rfl, hnext⟩, hfault⟩

end Delivers

theorem delivers_deliver (hlt : tally.accepted < budget)
    (items : List (Except ReconstructionError Plan)) :
    Delivers cut budget tally store items (submissions cut budget tally store items)
      (deliver cut budget tally store items) := by
  fun_induction submissions cut budget tally store items with
  | case1 tally store =>
    refine ⟨List.prefix_refl _, List.forall_mem_nil _, ?_, rfl, .inl ⟨rfl, .inr rfl⟩⟩
    exact fun front hfront hne ↦ absurd (List.prefix_nil.mp hfront) hne
  | case2 tally store e rest => exact .fault hlt rfl
  | case3 tally store plan rest hcost verdict store' hsubmit tally' hfull =>
    have hlast : deliver cut budget tally store (.ok plan :: rest) = (.ok tally', store') := by
      rw [deliver, if_pos hcost, hsubmit]
      exact if_pos hfull
    have hall : submitAll tally store [plan] = (tally', store') := by
      rw [submitAll, hsubmit]
      rfl
    rw [hlast]
    refine ⟨⟨rest, rfl⟩, List.forall_mem_singleton.mpr hcost, ?_, ?_, ?_⟩
    · intro front hfront hne
      rcases List.prefix_cons_iff.mp hfront with rfl | ⟨front, rfl, hrest⟩
      · exact hlt
      · exact absurd (congrArg _ (List.prefix_nil.mp hrest)) hne
    · rw [hall]
    · rw [hall]
      exact .inl ⟨rfl, .inl hfull⟩
  | case4 tally store plan rest hcost verdict store' hsubmit tally' hfull ih =>
    have hlast : deliver cut budget tally store (.ok plan :: rest) =
        deliver cut budget tally' store' rest := by
      rw [deliver, if_pos hcost, hsubmit]
      exact if_neg hfull
    rw [hlast]
    refine .submit hlt hcost ?_
    rw [hsubmit]
    exact ih (Nat.not_le.mp hfull)
  | case5 tally store plan rest hcost =>
    rw [deliver, if_neg hcost]
    exact .fault hlt (if_neg hcost)

end Walk

/-- A reconstruction offers its store the plans of the tour of its cut, in their order, up to the
first error or until `budget` plans are accepted, and answers that error or the tally of what it has
offered.  This holds of any store, whatever it says; a store with a record has recorded what was
offered. -/
theorem reconstruct_delivers_tour {σ : Type} [PlanStore σ] (view : LayerView)
    (cut : Cut) (budget : Nat) (store : σ) :
    ∃ items plans, cut.Tours view items ∧
      (∀ items', cut.Tours view items' → items' = items) ∧
      Walk.Delivers cut budget .zero store items plans (reconstruct view cut budget store) ∧
      reconstruct view cut budget (Recorder.ofStore store) =
        ((reconstruct view cut budget store).1,
          ⟨(reconstruct view cut budget store).2, plans⟩) := by
  have htour : cut.Tours view (cut.preorder view) := Cut.tours_iff.mpr rfl
  by_cases hbudget : budget = 0
  · refine ⟨_, [], htour, fun _ ↦ Cut.tours_iff.mp, ?_, ?_⟩
    · rw [reconstruct, if_pos hbudget]
      refine ⟨List.nil_prefix, List.forall_mem_nil _, ?_, rfl, .inl ⟨rfl, .inl ?_⟩⟩
      · exact fun front hfront hne ↦ absurd (List.prefix_nil.mp hfront) hne
      · exact Nat.le_of_eq hbudget
    · rw [reconstruct, reconstruct, if_pos hbudget, if_pos hbudget]
      rfl
  · refine ⟨_, Walk.submissions cut budget .zero store (cut.preorder view), htour,
      fun _ ↦ Cut.tours_iff.mp, ?_, ?_⟩
    · rw [reconstruct_eq_deliver hbudget]
      exact Walk.delivers_deliver (Nat.pos_of_ne_zero hbudget) _
    · rw [reconstruct_eq_deliver hbudget, reconstruct_eq_deliver hbudget, Recorder.ofStore,
        Recorder.deliver_recorder, List.nil_append]

end LayeredPlanning
