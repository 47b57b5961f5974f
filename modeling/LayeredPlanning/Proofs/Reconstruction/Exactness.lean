import LayeredPlanning.Plans.ScriptedStore
import LayeredPlanning.Proofs.Reconstruction.Submissions
import LayeredPlanning.Proofs.Reconstruction.Tracks

/-!
# Reconstruction is exact

The moves of a reconstruction spell witnesses: those up to the turn read the first half of the path
backwards, those after it read the second half forwards.  `Witness.moves` and `Witness.ofMoves`
translate between the two, and a sequence of moves comes to a plan exactly if it spells a witness.
So `witnesses`, read off the tree of branches, lists every witness of a cut once, and their plans
are what a reconstruction submits.
-/

namespace LayeredPlanning

namespace Witness

variable {table : TransitionTable} {s m : State}

/-- The moves that lead from the end of a path back to its start `s`. -/
def movesBack (s : State) : List (Step table) → List (Move table)
  | [] => []
  | e :: es => movesBack e.target es ++ [.step e.place s]

/-- The moves that lead from the start of a path to its end. -/
def movesOn (es : List (Step table)) : List (Move table) := es.map fun e ↦ .step e.place e.target

/-- The moves that spell a path from `s`: back to its start, round, and on to its end. -/
def moves (s : State) (w : Witness table) : List (Move table) :=
  movesBack s w.before ++ .turn :: movesOn w.after

theorem moves_concat (s : State) (w : Witness table) (e : Step table) :
    (w.concat e).moves s = w.moves s ++ [.step e.place e.target] := by
  rw [moves, concat, moves, movesOn, movesOn, List.map_append, List.append_assoc]
  rfl

/-- The step that a move on the way on takes. -/
def stepOf? : Move table → Option (Step table)
  | .turn => none
  | .step k p => some ⟨k, p⟩

/-- The path that moves spell, where `before` leads from `s` to the meeting state. -/
def ofMovesFrom (s : State) (before : List (Step table)) : List (Move table) → Witness table
  | [] => ⟨before, []⟩
  | .turn :: ms => ⟨before, ms.filterMap stepOf?⟩
  | .step k p :: ms => ofMovesFrom p (⟨k, s⟩ :: before) ms

/-- The path that moves from a meeting state spell. -/
def ofMoves (m : State) (ms : List (Move table)) : Witness table := ofMovesFrom m [] ms

theorem ofMovesFrom_movesBack_append {before es : List (Step table)} (h : Leads s es m)
    (ms : List (Move table)) :
    ofMovesFrom m before (movesBack s es ++ ms) = ofMovesFrom s (es ++ before) ms := by
  induction h generalizing ms with
  | nil => rfl
  | cons _ _ ih =>
    rw [movesBack, List.append_assoc, ih]
    rfl

/-- A path can be read off the moves that spell it. -/
theorem ofMoves_moves {w : Witness table} (h : Leads s w.before m) :
    ofMoves m (w.moves s) = w := by
  have hafter : (movesOn w.after).filterMap stepOf? = w.after := by
    rw [movesOn, List.filterMap_map]
    exact List.filterMap_some
  rw [ofMoves, moves, ofMovesFrom_movesBack_append h, ofMovesFrom, List.append_nil, hafter]

end Witness

section Witnesses

variable {view : LayerView} {cut : Cut} {m : State}

open Branch Witness

/-- Whether the branch completes a plan. -/
def Branch.completes (view : LayerView) (b : Branch) : Bool :=
  b.hasArrived view.task && b.direction == .backward

/-- The witnesses of a cut, in the order in which a reconstruction comes across them. -/
def Cut.witnesses (view : LayerView) (cut : Cut) : List (Witness view.task.transitions) :=
  cut.states.toList.flatMap fun m ↦
    (((Branch.ofMeeting cut.g m).courses view cut.h).filter fun ms ↦
      ((Branch.ofMeeting cut.g m).follow cut.h ms).completes view).map (ofMoves m)

/-- Allowed moves spell a part of a path, which the branch tracks. -/
theorem tracks_of_follows (hcons : ∀ r ∈ view.task.transitions.relations, r.Consistent)
    {ms : List (Move view.task.transitions)} (h : (ofMeeting cut.g m).Follows view cut.h ms) :
    (∃ before, ((ofMeeting cut.g m).follow cut.h ms).TracksBefore view cut.g m before ∧
        ms = movesBack ((ofMeeting cut.g m).follow cut.h ms).state before) ∨
      ∃ w, ((ofMeeting cut.g m).follow cut.h ms).TracksAfter view cut w ∧
        ((ofMeeting cut.g m).follow cut.h ms).meeting = m ∧ ms = w.moves view.task.initial := by
  induction ms using List.reverseRecOn with
  | nil => exact .inl ⟨[], tracksBefore_ofMeeting view cut.g m, rfl⟩
  | append_singleton ms mv ih =>
    obtain ⟨hms, hmv⟩ := follows_concat.mp h
    rw [follow_concat]
    generalize (ofMeeting cut.g m).follow cut.h ms = b at ih hmv
    rcases ih hms with ⟨before, hb, heq⟩ | ⟨w, hb, hmeet, heq⟩
    · cases mv with
      | turn =>
        obtain ⟨_, harr, _⟩ | ⟨_, _, hstep, _⟩ := mem_moves.mp hmv
        · refine .inr ⟨⟨before, []⟩, hb.turn harr, hb.meeting, ?_⟩
          have hinit : b.state = view.task.initial := by
            rw [hasArrived, hb.direction, Bool.and_eq_true] at harr
            exact beq_iff_eq.mp harr.2
          rw [heq, hinit]
          rfl
        · cases hstep
      | step k p =>
        refine .inl ⟨⟨k, b.state⟩ :: before, hb.step hcons hmv, ?_⟩
        rw [heq, state_make_step, movesBack, ← heq]
    · cases mv with
      | turn =>
        obtain ⟨_, _, hd⟩ | ⟨_, _, hstep, _⟩ := mem_moves.mp hmv
        · rw [hb.direction] at hd
          cases hd
        · cases hstep
      | step k p =>
        refine .inr ⟨w.concat ⟨k, p⟩, hb.step (e := ⟨k, p⟩) hmv, ?_, ?_⟩
        · rw [meeting_make_step, hmeet]
        · rw [moves_concat, heq]

/-- The way back along a path through the forward layers is allowed, and tracks the path. -/
theorem follows_movesBack (hcons : ∀ r ∈ view.task.transitions.relations, r.Consistent)
    {s : State} {g c h : Int} {before : List (Step view.task.transitions)}
    (hleads : Leads s before m) (hc : 0 ≤ c) (hg : c + pathCost before = g)
    (hnodup : (visits s c before).Nodup)
    (hclosed : ∀ v ∈ departures s c before, v.1 ∈ view.closedAt .forward v.2) :
    (ofMeeting g m).Follows view h (movesBack s before) ∧
      ((ofMeeting g m).follow h (movesBack s before)).TracksBefore view g m before ∧
        ((ofMeeting g m).follow h (movesBack s before)).state = s := by
  induction hleads generalizing c with
  | nil s => exact ⟨trivial, tracksBefore_ofMeeting view g s, rfl⟩
  | @cons s m e es hedge _ ih =>
    rw [pathCost_cons, ← Int.add_assoc] at hg
    rw [visits_cons, List.nodup_cons] at hnodup
    have he := e.cost_nonneg
    obtain ⟨hfollows, htracks, hstate⟩ := ih (by omega) hg hnodup.2 fun v hv ↦
      hclosed v (List.mem_cons_of_mem _ hv)
    generalize hb : (ofMeeting g m).follow h (movesBack e.target es) = b at htracks hstate
    have hcost : b.cost - e.cost = c := by
      have := htracks.cost
      omega
    have hback : b.cost = c + e.cost := by omega
    have hmv : .step e.place s ∈ b.moves view := by
      refine htracks.mem_moves_of_cons hcons ?_ ?_ ?_ ?_
      · rw [hstate]
        exact hedge
      · rw [hcost]
        exact hc
      · rw [hcost, hback, hstate]
        exact hnodup.1
      · rw [hcost]
        exact hclosed (s, c) List.mem_cons_self
    have hstep := htracks.step (h := h) hcons hmv
    rw [hstate] at hstep
    rw [movesBack, follow_concat, hb]
    exact ⟨follows_concat.mpr ⟨hfollows, hb ▸ hmv⟩, hstep, state_make_step _ _ _ _⟩

/-- Once it has come all the way back, the branch turns round. -/
theorem follows_turn (hcons : ∀ r ∈ view.task.transitions.relations, r.Consistent)
    {before : List (Step view.task.transitions)} (hleads : Leads view.task.initial before m)
    (hcost : pathCost before = cut.g) (hsimple : LevelSimple view.task.initial before)
    (hclosed : ∀ v ∈ departures view.task.initial 0 before,
      v.1 ∈ view.closedAt .forward v.2) :
    (ofMeeting cut.g m).Follows view cut.h (Witness.moves view.task.initial ⟨before, []⟩) ∧
      ((ofMeeting cut.g m).follow cut.h
        (Witness.moves view.task.initial ⟨before, []⟩)).TracksAfter
          view cut ⟨before, []⟩ := by
  obtain ⟨hfollows, htracks, hstate⟩ :=
    follows_movesBack (h := cut.h) hcons hleads (Int.le_refl 0)
      ((Int.zero_add _).trans hcost) hsimple hclosed
  have harr : ((ofMeeting cut.g m).follow cut.h
      (movesBack view.task.initial before)).hasArrived view.task = true := by
    have hzero := htracks.cost
    rw [hasArrived, htracks.direction, Bool.and_eq_true, beq_iff_eq]
    exact ⟨by omega, beq_iff_eq.mpr hstate⟩
  rw [Witness.moves, movesOn, List.map_nil, follow_concat, follows_concat]
  exact ⟨⟨hfollows, mem_moves.mpr (.inl ⟨rfl, harr, htracks.direction⟩)⟩,
    htracks.turn harr⟩

/-- The moves that spell a path through the layers are allowed, and track the path. -/
theorem follows_moves (hcons : ∀ r ∈ view.task.transitions.relations, r.Consistent)
    {before after : List (Step view.task.transitions)} {t : State}
    (hbefore : Leads view.task.initial before m) (hafter : Leads m after t)
    (hg : pathCost before = cut.g) (hh : pathCost after ≤ cut.h)
    (hsimple : LevelSimple view.task.initial (before ++ after))
    (hclosed : ∀ v ∈ departures view.task.initial 0 before, v.1 ∈ view.closedAt .forward v.2)
    (hclosed' : ∀ v ∈ arrivals cut.g after,
      v.1 ∈ view.closedAt .backward (cut.g + cut.h - v.2)) :
    (ofMeeting cut.g m).Follows view cut.h
        (Witness.moves view.task.initial ⟨before, after⟩) ∧
      ((ofMeeting cut.g m).follow cut.h
        (Witness.moves view.task.initial ⟨before, after⟩)).TracksAfter
          view cut ⟨before, after⟩ := by
  induction after using List.reverseRecOn generalizing t with
  | nil =>
    rw [List.append_nil] at hsimple
    exact follows_turn hcons hbefore hg hsimple hclosed
  | append_singleton after e ih =>
    obtain ⟨u, hu, hlast⟩ := Leads.append_iff.mp hafter
    obtain ⟨hedge, -⟩ := Leads.cons_iff.mp hlast
    have harrivals : arrivals cut.g (after ++ [e]) =
        arrivals cut.g after ++ [(e.target, cut.g + pathCost after + e.cost)] := arrivals_append ..
    rw [pathCost_concat] at hh
    rw [← List.append_assoc, LevelSimple, visits_concat, pathCost_append, hg, Int.zero_add,
      List.nodup_append] at hsimple
    rw [harrivals] at hclosed'
    have he := e.cost_nonneg
    obtain ⟨hfollows, htracks⟩ := ih hu (by omega) hsimple.1 fun v hv ↦
      hclosed' v (List.mem_append_left _ hv)
    show (ofMeeting cut.g m).Follows view cut.h
        (Witness.moves _ (Witness.concat ⟨before, after⟩ e)) ∧
      ((ofMeeting cut.g m).follow cut.h
        (Witness.moves _ (Witness.concat ⟨before, after⟩ e))).TracksAfter view cut _
    rw [moves_concat, follow_concat, follows_concat]
    generalize (ofMeeting cut.g m).follow cut.h
      (Witness.moves view.task.initial ⟨before, after⟩) = b at hfollows htracks
    have hcost := htracks.cost
    dsimp only at hcost
    have hstate : b.state = u := by
      have hleads := htracks.leads_after
      rw [htracks.leads_before.unique hbefore] at hleads
      exact hleads.unique hu
    have hmv : .step e.place e.target ∈ b.moves view := by
      refine htracks.mem_moves_of_concat ?_ (by omega) ?_ ?_
      · rw [hstate]
        exact hedge
      · exact fun hmem ↦ hsimple.2.2 _ hmem _ List.mem_cons_self rfl
      · have hrest : cut.g + cut.h - (cut.g + pathCost after + e.cost) = b.cost - e.cost := by
          omega
        rw [← hrest]
        exact hclosed' (e.target, cut.g + pathCost after + e.cost)
          (List.mem_append_right _ List.mem_cons_self)
    exact ⟨⟨hfollows, hmv⟩, htracks.step hmv⟩

/-- Moves after which a branch completes a plan spell a witness. -/
theorem exists_witness_of_completes
    (hcons : ∀ r ∈ view.task.transitions.relations, r.Consistent) (hm : m ∈ cut.states)
    {ms : List (Move view.task.transitions)} (hms : (ofMeeting cut.g m).Follows view cut.h ms)
    (hdone : ((ofMeeting cut.g m).follow cut.h ms).completes view = true) :
    ∃ w, cut.HasWitness view w ∧ Leads view.task.initial w.before m ∧
      ms = w.moves view.task.initial ∧
      ((ofMeeting cut.g m).follow cut.h ms).toPlan = w.plan view.task.initial := by
  rw [completes, Bool.and_eq_true, beq_iff_eq] at hdone
  obtain ⟨harr, hd⟩ := hdone
  rcases tracks_of_follows hcons hms with ⟨before, hb, _⟩ | ⟨w, hb, hmeet, heq⟩
  · rw [hb.direction] at hd
    cases hd
  · rw [hasArrived, hd, Bool.and_eq_true, beq_iff_eq] at harr
    obtain ⟨hzero, hgoal⟩ := harr
    have hbefore := hmeet ▸ hb.leads_before
    have hafter := hmeet ▸ hb.leads_after
    have hcost := hb.cost
    refine ⟨w, ⟨⟨m, hm, hbefore, _, hafter, hgoal⟩, hb.cost_before, by omega,
      hb.closed_before, hb.closed_after, hb.levelSimple⟩, hbefore, heq, ?_⟩
    exact (part_of_backward hd).symm.trans hb.part

/-- The moves that spell a witness complete a plan. -/
theorem completes_of_witness (hcons : ∀ r ∈ view.task.transitions.relations, r.Consistent)
    {w : Witness view.task.transitions} (hw : cut.HasWitness view w)
    (hm : Leads view.task.initial w.before m) :
    (ofMeeting cut.g m).Follows view cut.h (w.moves view.task.initial) ∧
      ((ofMeeting cut.g m).follow cut.h (w.moves view.task.initial)).completes view = true := by
  obtain ⟨m', _, hm', t, ht, hgoal⟩ := hw.meets
  obtain rfl := hm.unique hm'
  obtain ⟨hfollows, hb⟩ := follows_moves hcons hm ht hw.cost_before (Int.le_of_eq hw.cost_after)
    hw.levelSimple hw.closed_before hw.closed_after
  refine ⟨hfollows, ?_⟩
  generalize (ofMeeting cut.g m).follow cut.h (w.moves view.task.initial) = b at hb
  have hcost := hb.cost
  rw [hw.cost_after] at hcost
  have hstate : b.state = t := by
    have hafter := hb.leads_after
    rw [hb.leads_before.unique hm] at hafter
    exact hafter.unique ht
  rw [completes, hasArrived, hb.direction, Bool.and_eq_true, Bool.and_eq_true, beq_iff_eq, hstate]
  exact ⟨⟨by omega, hgoal⟩, rfl⟩

/-- The list of witnesses holds every witness. -/
theorem mem_witnesses (hcons : ∀ r ∈ view.task.transitions.relations, r.Consistent)
    {w : Witness view.task.transitions} : w ∈ cut.witnesses view ↔ cut.HasWitness view w := by
  simp only [Cut.witnesses, List.mem_flatMap, List.mem_map, List.mem_filter, mem_courses]
  constructor
  · rintro ⟨m, hm, ms, ⟨hms, hdone⟩, rfl⟩
    obtain ⟨w, hw, hbefore, rfl, _⟩ := exists_witness_of_completes hcons hm hms hdone
    rw [ofMoves_moves hbefore]
    exact hw
  · intro hw
    obtain ⟨m, hm, hbefore, _⟩ := hw.meets
    exact ⟨m, hm, w.moves view.task.initial, completes_of_witness hcons hw hbefore,
      ofMoves_moves hbefore⟩

/-- The list of witnesses holds no witness twice. -/
theorem nodup_witnesses (hcons : ∀ r ∈ view.task.transitions.relations, r.Consistent) :
    (cut.witnesses view).Nodup := by
  have hspell : ∀ m ∈ cut.states.toList,
      ∀ ms ∈ ((ofMeeting cut.g m).courses view cut.h).filter
        (fun ms ↦ ((ofMeeting cut.g m).follow cut.h ms).completes view),
      Leads view.task.initial (ofMoves m ms).before m ∧
        ms = (ofMoves m ms).moves view.task.initial := by
    intro m hm ms hms
    obtain ⟨hms, hdone⟩ := List.mem_filter.mp hms
    obtain ⟨w, _, hbefore, rfl, _⟩ :=
      exists_witness_of_completes hcons hm (mem_courses.mp hms) hdone
    rw [ofMoves_moves hbefore]
    exact ⟨hbefore, rfl⟩
  refine List.nodup_flatMap.mpr ⟨?_, ?_⟩
  · intro m hm
    refine List.Nodup.map_on ?_ ((nodup_courses _).filter _)
    intro ms hms ms' hms' heq
    rw [(hspell m hm ms hms).2, (hspell m hm ms' hms').2, heq]
  · refine List.Pairwise.imp_of_mem (fun {m m'} hm hm' hne w hw hw' ↦ ?_) cut.states.nodup_toList
    obtain ⟨ms, hms, rfl⟩ := List.mem_map.mp hw
    obtain ⟨ms', hms', heq⟩ := List.mem_map.mp hw'
    have hlead := (hspell m' hm' ms' hms').1
    rw [heq] at hlead
    exact hne ((hspell m hm ms hms).1.unique hlead)

/-- By itself a branch comes to its plan if it completes one, and to no plan otherwise. -/
theorem filterMap_yields (b : Branch) (h : Int) :
    (b.yields view h).filterMap Except.toOption =
      if b.completes view then [b.toPlan] else [] := by
  rw [yields, completes, expand]
  cases view.layers? b.direction with
  | none =>
    by_cases harr : b.hasArrived view.task = true
    · by_cases hd : b.direction = .backward <;> simp [harr, hd, Except.toOption]
    · simp [harr, Except.toOption]
  | some closed =>
    by_cases harr : b.hasArrived view.task = true
    · by_cases hd : b.direction = .backward <;> simp [harr, hd, Except.toOption]
    · simp only [harr, Bool.false_and, Bool.false_or]
      split
      · next e he =>
        simp [Except.toOption]
      · next x hx =>
        split at hx
        · cases hx
          rfl
        · cases hx

/-- The plans that a depth-first walk comes across are those of the witnesses. -/
theorem filterMap_preorder (hcons : ∀ r ∈ view.task.transitions.relations, r.Consistent) :
    (cut.preorder view).filterMap Except.toOption =
      (cut.witnesses view).map (·.plan view.task.initial) := by
  rw [Cut.preorder, Cut.witnesses, List.filterMap_flatMap, List.map_flatMap]
  apply List.flatMap_congr
  intro m hm
  have hpick : ∀ mss : List (List (Move view.task.transitions)),
      (mss.flatMap fun ms ↦ (((ofMeeting cut.g m).follow cut.h ms).yields view cut.h).filterMap
        Except.toOption) =
          (mss.filter fun ms ↦ ((ofMeeting cut.g m).follow cut.h ms).completes view).map
            fun ms ↦ ((ofMeeting cut.g m).follow cut.h ms).toPlan := by
    intro mss
    induction mss with
    | nil => rfl
    | cons ms mss ih =>
      rw [List.flatMap_cons, ih, filterMap_yields]
      by_cases hdone : ((ofMeeting cut.g m).follow cut.h ms).completes view = true <;> simp [hdone]
  rw [preorder, List.filterMap_flatMap, hpick, List.map_map]
  apply List.map_congr_left
  intro ms hms
  obtain ⟨hms, hdone⟩ := List.mem_filter.mp hms
  obtain ⟨w, _, hbefore, rfl, hplan⟩ :=
    exists_witness_of_completes hcons hm (mem_courses.mp hms) hdone
  rw [Function.comp_apply, ofMoves_moves hbefore]
  exact hplan

/-- What is submitted are plans of witnesses, and they cost what the cut promises. -/
theorem witness_of_mem_submissions {σ : Type} [PlanStore σ]
    (hcons : ∀ r ∈ view.task.transitions.relations, r.Consistent) {budget : Nat} {tally : Tally}
    {store : σ} {plan : Plan}
    (h : plan ∈ Walk.submissions cut budget tally store (cut.preorder view)) :
    plan.cost = cut.f ∧ ∃ w, cut.HasWitness view w ∧ plan = w.plan view.task.initial := by
  refine ⟨Walk.cost_of_mem_submissions h, ?_⟩
  have hmem : plan ∈ (cut.preorder view).filterMap Except.toOption :=
    List.mem_filterMap.mpr
      ⟨.ok plan, Walk.submissions_prefix.subset (List.mem_map_of_mem h), rfl⟩
  rw [filterMap_preorder hcons] at hmem
  obtain ⟨w, hw, rfl⟩ := List.mem_map.mp hmem
  exact ⟨w, (mem_witnesses hcons).mp hw, rfl⟩

/-- A reconstruction that ends without an error submits plans of witnesses only.  If it has been
accepted less than its budget, it submits the plan of each witness. -/
theorem submissions_of_reconstruct {σ : Type} [PlanStore σ]
    (hcons : ∀ r ∈ view.task.transitions.relations, r.Consistent) {budget : Nat}
    {store store' : σ} {tally : Tally}
    (h : reconstruct view cut budget store = (.ok tally, store')) :
    ∃ plans : List Plan, Walk.submitAll .zero store plans = (tally, store') ∧
      (∀ plan ∈ plans, plan.cost = cut.f ∧
        ∃ w, cut.HasWitness view w ∧ plan = w.plan view.task.initial) ∧
      (tally.accepted < budget →
        plans = (cut.witnesses view).map (·.plan view.task.initial)) := by
  by_cases hbudget : budget = 0
  · rw [reconstruct, if_pos hbudget] at h
    cases h
    exact ⟨[], rfl, fun _ hp ↦ absurd hp List.not_mem_nil, fun hlt ↦ absurd hlt (by omega)⟩
  rw [reconstruct_eq_deliver hbudget] at h
  obtain ⟨htally, hall⟩ := Walk.deliver_fst (congrArg Prod.fst h)
  have hstore : (Walk.deliver cut budget .zero store (cut.preorder view)).2 = _ := Walk.deliver_snd
  rw [h] at hstore
  refine ⟨Walk.submissions cut budget .zero store (cut.preorder view),
    Prod.ext htally.symm hstore.symm,
    fun plan hplan ↦ witness_of_mem_submissions hcons hplan, ?_⟩
  intro hlt
  rw [← filterMap_preorder hcons]
  conv_rhs => rw [hall hlt, List.filterMap_map]
  exact List.filterMap_some.symm

/-- What a reconstruction submits that ends without an error and has been accepted less than its
budget: the plan of each witness of the cut, once for each witness.  The store with a record does
what the store does. -/
theorem reconstruct_submits_witnesses {σ : Type} [PlanStore σ] {budget : Nat} {store store' : σ}
    {tally : Tally} (hcons : ∀ r ∈ view.task.transitions.relations, r.Consistent)
    (h : reconstruct view cut budget store = (.ok tally, store')) (hlt : tally.accepted < budget) :
    ∃ ws : List (Witness view.task.transitions),
      ws.Nodup ∧ (∀ w, w ∈ ws ↔ cut.HasWitness view w) ∧
        reconstruct view cut budget (Recorder.ofStore store) =
          (.ok tally, ⟨store', ws.map fun w ↦ w.plan view.task.initial⟩) := by
  refine ⟨cut.witnesses view, nodup_witnesses hcons, fun w ↦ mem_witnesses hcons, ?_⟩
  have hbudget : budget ≠ 0 := by omega
  rw [reconstruct_eq_deliver hbudget] at h
  have hall := (Walk.deliver_fst (congrArg Prod.fst h)).2 hlt
  rw [reconstruct_eq_deliver hbudget, Recorder.ofStore, Recorder.deliver_recorder, h,
    List.nil_append, ← filterMap_preorder hcons]
  conv_rhs => rw [hall, List.filterMap_map]
  rw [show Except.toOption ∘ Except.ok = some from rfl, List.filterMap_some]

end Witnesses

/-- The layers of the cycle, up to cost one from its initial state. -/
def cycleView : LayerView where
  task := cycle.toTask
  forward? := some
    (((∅ : ClosedLayers).pushSublayer 0 (.singleton (.single 0))).pushSublayers 1
      [.singleton (.single 1), .singleton (.single 2)])
  backward? := some
    ((∅ : ClosedLayers).pushSublayers 0 [.singleton (.single 2), .singleton (.single 1)])

/-- The one plan of the cycle has two witnesses, one for each meeting state. -/
theorem cycle_submits_witnesses :
    ∃ ws : List (Witness cycleView.task.transitions),
      ws.Nodup ∧
        (∀ w, w ∈ ws ↔
          Cut.HasWitness cycleView ⟨1, 0, .ofList [.single 1, .single 2]⟩ w) ∧
        reconstruct cycleView ⟨1, 0, .ofList [.single 1, .single 2]⟩ 3
            (Recorder.ofStore (ScriptedStore.ofScript 3 [] none)) =
          (.ok ⟨2, 0, 0, .ofList [.single 0, .single 1, .single 2]⟩,
            ⟨(reconstruct cycleView ⟨1, 0, .ofList [.single 1, .single 2]⟩ 3
                (ScriptedStore.ofScript 3 [] none)).2,
              ws.map fun w ↦ w.plan (.single 0)⟩) := by
  refine reconstruct_submits_witnesses cycle.consistent ?_ (by decide)
  decide +kernel

end LayeredPlanning
