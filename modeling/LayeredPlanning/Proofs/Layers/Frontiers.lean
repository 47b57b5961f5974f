import LayeredPlanning.Layers.Meeting
import LayeredPlanning.Proofs.Layers.Closing
import LayeredPlanning.Proofs.Reconstruction.Witness

/-!
# Searches that meet

Two searches meet in a state if one has closed it at a cost `g` and the other at a cost `h`; a
search that a run does without counts as having closed its root at cost zero (`ClosedBy`,
`Frontiers.Meets`).

* Each new meeting is in one of the cuts that closing a layer answers: `meets_of_closeNext?`.
* Once all searches have started, a path to a goal that costs less than the proven bound has a part
  after which they meet, and its states are closed on either side: `exists_meeting`.
-/

namespace LayeredPlanning

/-! ## Saturation -/

namespace Cost

/-- Saturation raises a sum only where it is below all costs. -/
theorem lt_of_lt_satAdd {a b c : Int} (hc : 0 ≤ c) (h : c < satAdd a b) : c < a + b := by
  grind [satAdd, saturate, min, max]

theorem lt_of_lt_satSub {a b c m : Int} (hc : 0 ≤ c) (hm : 0 ≤ m)
    (h : c < satSub (satAdd (satAdd a b) 2) m) : c < a + b + 2 - m := by
  grind [satAdd, satSub, saturate, min, max]

end Cost

variable {task : Task} {d : Direction} {horizon : Int}

/-- A search has closed a state at a cost.  Without a search the root counts as closed. -/
def ClosedBy (search? : Option (LayerSearch task d horizon)) (s : State) (c : Int) : Prop :=
  match search? with
  | some search => s ∈ search.closed.closedAt c
  | none => c = 0 ∧ s ∈ task.root d

namespace Frontiers

variable {frontiers next : Frontiers task horizon} {cuts : List Cut} {g h c : Int} {s : State}

/-- The two sides have closed a state at costs `g` and `h`. -/
def Meets (frontiers : Frontiers task horizon) (g h : Int) (s : State) : Prop :=
  ClosedBy frontiers.forward? s g ∧ ClosedBy frontiers.backward? s h

/-- Every search has closed its layers up to some cost, and at least one direction is searched. -/
structure Exact (frontiers : Frontiers task horizon) : Prop where
  forward : ∀ search, frontiers.forward? = some search →
    ∃ done, -1 ≤ done ∧ search.Exact done
  backward : ∀ search, frontiers.backward? = some search →
    ∃ done, -1 ≤ done ∧ search.Exact done
  searched : frontiers.forward?.isSome ∨ frontiers.backward?.isSome

/-- Every search has closed the layer of its root. -/
structure Started (frontiers : Frontiers task horizon) : Prop where
  forward : ∀ search, frontiers.forward? = some search → 0 ≤ search.closedThrough
  backward : ∀ search, frontiers.backward? = some search → 0 ≤ search.closedThrough

/-! ## Closing a layer -/

theorem mem_meetings {own other : Int} {layer : StateSet} {closed : ClosedLayers}
    (hown : s ∈ layer) (hother : s ∈ closed.closedAt other) :
    ∃ states, .ofMeeting d own other states ∈ meetings d own layer closed ∧ s ∈ states := by
  have hs : s ∈ layer ∩ closed.closedAt other := StateSet.mem_inter.mpr ⟨hown, hother⟩
  refine ⟨_, List.mem_filterMap.mpr
    ⟨other, ClosedLayers.mem_closedCosts_of_mem_closedAt hother, ?_⟩, hs⟩
  exact if_neg fun hempty ↦ StateSet.isEmpty_iff.mp hempty s hs

/-- A state of the new layer that the other side has closed is in a cut. -/
theorem mem_cutsWith {other : Int} {layer : StateSet} (own : Int)
    (other? : Option (LayerSearch task d.opposite horizon)) (hown : s ∈ layer)
    (hother : ClosedBy other? s other) :
    ∃ states, .ofMeeting d own other states ∈
        cutsWith task d own layer (other?.map (·.closed)) ∧ s ∈ states := by
  cases other? with
  | none =>
    obtain ⟨rfl, hroot⟩ := hother
    have hs : s ∈ layer ∩ task.root d.opposite := StateSet.mem_inter.mpr ⟨hown, hroot⟩
    refine ⟨_, ?_, hs⟩
    rw [Option.map_none, cutsWith, if_neg fun hempty ↦ StateSet.isEmpty_iff.mp hempty s hs]
    exact List.mem_singleton.mpr rfl
  | some search => exact mem_meetings hown hother

/-- What a search has closed after a layer: what it had closed before, and the layer. -/
theorem closedBy_of_closeNext? {search search' : LayerSearch task d horizon} {k : Int}
    {layer : StateSet} (hclose : search.closeNext? = some ((k, layer), search'))
    (hs : ClosedBy (some search') s c) : ClosedBy (some search) s c ∨ c = k ∧ s ∈ layer := by
  obtain ⟨frontier, rest, _, rfl, _, hclosed⟩ := LayerSearch.closeNext?_eq_some hclose
  rw [ClosedBy, hclosed, ClosedLayers.mem_closedAt_pushSublayers] at hs
  exact hs

/-- A meeting after a layer is one from before, or in a cut that the layer makes. -/
theorem meets_of_closeNext? (hclose : frontiers.closeNext? = some (cuts, next))
    (hmeets : next.Meets g h s) :
    frontiers.Meets g h s ∨ ∃ cut ∈ cuts, cut.g = g ∧ cut.h = h ∧ s ∈ cut.states := by
  obtain ⟨hg, hh⟩ := hmeets
  rcases closeNext?_eq_some hclose with
    ⟨search, k, layer, search', _, hsearch, hnext, rfl, rfl⟩ |
    ⟨search, k, layer, search', _, hsearch, hnext, rfl, rfl⟩
  · rcases closedBy_of_closeNext? hnext hg with hg | ⟨rfl, hs⟩
    · exact .inl ⟨hsearch ▸ hg, hh⟩
    · obtain ⟨states, hmem, hs⟩ :=
        mem_cutsWith (d := .forward) g frontiers.backward? hs hh
      exact .inr ⟨_, hmem, rfl, rfl, hs⟩
  · rcases closedBy_of_closeNext? hnext hh with hh | ⟨rfl, hs⟩
    · exact .inl ⟨hg, hsearch ▸ hh⟩
    · obtain ⟨states, hmem, hs⟩ :=
        mem_cutsWith (d := .backward) h frontiers.forward? hs hg
      exact .inr ⟨_, hmem, rfl, rfl, hs⟩

theorem Exact.closeNext (hexact : frontiers.Exact)
    (hclose : frontiers.closeNext? = some (cuts, next)) : next.Exact := by
  rcases closeNext?_eq_some hclose with
    ⟨search, k, layer, search', _, hsearch, hnext, _, rfl⟩ |
    ⟨search, k, layer, search', _, hsearch, hnext, _, rfl⟩
  · obtain ⟨done, hone, hdone⟩ := hexact.forward search hsearch
    obtain ⟨hnext, hlt, _⟩ := hdone.closeNext hnext
    refine ⟨?_, hexact.backward, .inl rfl⟩
    intro last hlast
    obtain rfl := Option.some.inj hlast
    exact ⟨k, by omega, hnext⟩
  · obtain ⟨done, hone, hdone⟩ := hexact.backward search hsearch
    obtain ⟨hnext, hlt, _⟩ := hdone.closeNext hnext
    refine ⟨hexact.forward, ?_, .inr rfl⟩
    intro last hlast
    obtain rfl := Option.some.inj hlast
    exact ⟨k, by omega, hnext⟩

/-- A search that has closed a layer has started. -/
theorem closedThrough_nonneg {search search' : LayerSearch task d horizon} {done k : Int}
    {layer : StateSet} (hone : -1 ≤ done) (hexact : search.Exact done)
    (hclose : search.closeNext? = some ((k, layer), search')) : 0 ≤ search'.closedThrough := by
  obtain ⟨hnext, hlt, _⟩ := hexact.closeNext hclose
  have hk := LayerSearch.nextCost?_of_closeNext? hclose
  have hle := hnext.le_closedThrough (LayerSearch.le_horizon_of_nextCost? hk)
  omega

theorem Started.closeNext (hstarted : frontiers.Started) (hexact : frontiers.Exact)
    (hclose : frontiers.closeNext? = some (cuts, next)) : next.Started := by
  rcases closeNext?_eq_some hclose with
    ⟨search, k, layer, search', _, hsearch, hnext, _, rfl⟩ |
    ⟨search, k, layer, search', _, hsearch, hnext, _, rfl⟩
  · obtain ⟨done, hone, hdone⟩ := hexact.forward search hsearch
    refine ⟨?_, hstarted.backward⟩
    intro last hlast
    obtain rfl := Option.some.inj hlast
    exact closedThrough_nonneg hone hdone hnext
  · obtain ⟨done, hone, hdone⟩ := hexact.backward search hsearch
    refine ⟨hstarted.forward, ?_⟩
    intro last hlast
    obtain rfl := Option.some.inj hlast
    exact closedThrough_nonneg hone hdone hnext

/-- A direction of which no layer is closed has none waiting. -/
theorem nextCost?_of_closeLayer?_eq_none {search? : Option (LayerSearch task d horizon)}
    {other? : Option ClosedLayers} (h : closeLayer? search? other? = none) :
    search?.bind (·.nextCost?) = none := by
  cases search? with
  | none => rfl
  | some search =>
    rw [Option.bind_some, ← LayerSearch.closeNext?_eq_none_iff]
    rw [closeLayer?] at h
    split at h
    · assumption
    · cases h

/-- No layer can be closed only if nothing waits on either side. -/
theorem closeNext?_eq_none (h : frontiers.closeNext? = none) :
    frontiers.forward?.bind (·.nextCost?) = none ∧
      frontiers.backward?.bind (·.nextCost?) = none := by
  -- The search whose turn it is has a layer waiting, so it is nobody's turn.
  cases hdir : frontiers.nextDirection? with
  | some dir =>
    exfalso
    rw [closeNext?, hdir] at h
    cases dir with
    | forward =>
      have hf := nextCost?_of_closeLayer?_eq_none (Option.map_eq_none_iff.mp h)
      rw [nextDirection?, hf] at hdir
      cases hb : frontiers.backward?.bind (·.nextCost?) <;> rw [hb] at hdir <;> cases hdir
    | backward =>
      have hb := nextCost?_of_closeLayer?_eq_none (Option.map_eq_none_iff.mp h)
      rw [nextDirection?, hb] at hdir
      cases hf : frontiers.forward?.bind (·.nextCost?) <;> rw [hf] at hdir <;> cases hdir
  | none =>
    rw [nextDirection?] at hdir
    split at hdir
    · split at hdir <;> cases hdir
    · cases hdir
    · cases hdir
    · next hf hb => exact ⟨hf, hb⟩

/-! ## The proven bound -/

theorem provenBound_of_both {f : LayerSearch task .forward horizon}
    {b : LayerSearch task .backward horizon} (hf : frontiers.forward? = some f)
    (hb : frontiers.backward? = some b) (most : Int) :
    frontiers.provenBound most =
      Cost.satSub (Cost.satAdd (Cost.satAdd f.closedThrough b.closedThrough) 2) most := by
  rw [provenBound, hf, hb]
  rfl

section Bound

variable {es fs gs : List (Step task.transitions)} {m t : State} {done : Int}

/-- The states before the end of a path are closed forward, if that is done up to its cost. -/
theorem closed_departures {search : LayerSearch task .forward horizon} (hexact : search.Exact done)
    (hfs : Leads task.initial fs m) (hcost : pathCost fs ≤ search.closedThrough) :
    ∀ v ∈ visits task.initial 0 fs, v.1 ∈ search.closed.closedAt v.2 := by
  intro v hv
  have hle := (cost_of_mem_visits hv).2
  obtain ⟨es, _, _, hes, _, hv⟩ := exists_split_of_mem_visits hfs hv
  rw [hexact.mem_closedAt_iff (by omega), reachedAt_forward_iff]
  exact ⟨es, hes, by omega⟩

/-- The states of a path to a goal are closed backward, if that is done up to its cost. -/
theorem closed_arrivals (hcons : ∀ r ∈ task.transitions.relations, r.Consistent)
    {search : LayerSearch task .backward horizon} (hexact : search.Exact done)
    (hgs : Leads m gs t) (ht : t ∈ task.goals) (hcost : pathCost gs ≤ search.closedThrough) :
    ∀ v ∈ visits m g gs, v.1 ∈ search.closed.closedAt (g + pathCost gs - v.2) := by
  intro v hv
  have hge := (cost_of_mem_visits hv).1
  obtain ⟨_, es, rfl, _, hes, hv⟩ := exists_split_of_mem_visits hgs hv
  rw [pathCost_append] at hcost ⊢
  rw [hexact.mem_closedAt_iff (by omega), reachedAt_backward_iff hcons]
  exact ⟨es, t, hes, ht, by omega⟩

/-- Both parts of a path lie within what the searches have closed.  A part is empty where there is
no search. -/
structure Reaches (frontiers : Frontiers task horizon) (fs gs : List (Step task.transitions)) :
    Prop where
  forward : ∀ search, frontiers.forward? = some search → pathCost fs ≤ search.closedThrough
  backward : ∀ search, frontiers.backward? = some search → pathCost gs ≤ search.closedThrough
  forward_none : frontiers.forward? = none → fs = []
  backward_none : frontiers.backward? = none → gs = []

/-- A path below the proven bound has a part after which the searches have closed enough: the
longest one that the forward search has closed. -/
theorem exists_reaches (hstarted : frontiers.Started) {most : Int}
    (hmost : ∀ r ∈ task.transitions.relations, r.action.cost ≤ most) (hzero : 0 ≤ most)
    (hlt : pathCost es < frontiers.provenBound most) :
    ∃ fs gs, es = fs ++ gs ∧ frontiers.Reaches fs gs := by
  have hes := pathCost_nonneg es
  obtain ⟨_ | f, _ | b⟩ := frontiers
  · exact absurd hes (Int.not_le.mpr hlt)
  · refine ⟨[], es, rfl, nofun, ?_, fun _ ↦ rfl, nofun⟩
    rintro _ ⟨⟩
    exact Int.le_of_lt_add_one (Cost.lt_of_lt_satAdd hes hlt)
  · refine ⟨es, [], (List.append_nil es).symm, ?_, nofun, nofun, fun _ ↦ rfl⟩
    rintro _ ⟨⟩
    exact Int.le_of_lt_add_one (Cost.lt_of_lt_satAdd hes hlt)
  · have hbound : pathCost es < f.closedThrough + b.closedThrough + 2 - most :=
      Cost.lt_of_lt_satSub hes hzero hlt
    obtain ⟨fs, gs, rfl, hfs, hgs⟩ := exists_split_of_cost es (hstarted.forward f rfl)
    refine ⟨fs, gs, rfl, ?_, ?_, nofun, nofun⟩
    · rintro _ ⟨⟩
      exact hfs
    · rintro _ ⟨⟩
      cases gs with
      | nil => exact hstarted.backward b rfl
      | cons e gs =>
        -- The next step is beyond the forward search, and costs no more than `most`.
        have hnext := hgs e gs rfl
        have he : e.cost ≤ most := hmost _ e.transition_mem
        rw [pathCost_append] at hbound
        omega

/-- The search from the initial state has closed the states of the first part. -/
theorem Reaches.closed_before (hreaches : frontiers.Reaches fs gs) (hexact : frontiers.Exact)
    (hfs : Leads task.initial fs m) :
    ClosedBy frontiers.forward? m (pathCost fs) ∧
      ∀ v ∈ departures task.initial 0 fs, v.1 ∈ frontiers.view.closedAt .forward v.2 := by
  cases hf : frontiers.forward? with
  | none =>
    obtain rfl := hreaches.forward_none hf
    obtain rfl := Leads.nil_iff.mp hfs
    exact ⟨⟨rfl, StateSet.mem_singleton.mpr rfl⟩, fun v hv ↦ absurd hv List.not_mem_nil⟩
  | some f =>
    obtain ⟨done, _, hdone⟩ := hexact.forward f hf
    have hclosed := closed_departures hdone hfs (hreaches.forward f hf)
    rw [visits_eq_departures_append hfs] at hclosed
    constructor
    · have hlast := hclosed _ (List.mem_append_right _ List.mem_cons_self)
      rwa [Int.zero_add] at hlast
    · intro v hv
      have hlayers : frontiers.view.layers? .forward = some f.closed := by
        rw [view, LayerView.layers?, hf]
        rfl
      rw [LayerView.closedAt_of_some hlayers]
      exact hclosed v (List.mem_append_left _ hv)

/-- The search from the goals has closed the states of the second part. -/
theorem Reaches.closed_after (hreaches : frontiers.Reaches fs gs) (hexact : frontiers.Exact)
    (hcons : ∀ r ∈ task.transitions.relations, r.Consistent) (hgs : Leads m gs t)
    (ht : t ∈ task.goals) :
    ClosedBy frontiers.backward? m (pathCost gs) ∧
      ∀ v ∈ arrivals g gs,
        v.1 ∈ frontiers.view.closedAt .backward (g + pathCost gs - v.2) := by
  cases hb : frontiers.backward? with
  | none =>
    obtain rfl := hreaches.backward_none hb
    obtain rfl := Leads.nil_iff.mp hgs
    exact ⟨⟨rfl, ht⟩, fun v hv ↦ absurd hv List.not_mem_nil⟩
  | some b =>
    obtain ⟨done, _, hdone⟩ := hexact.backward b hb
    have hclosed := closed_arrivals (g := g) hcons hdone hgs ht (hreaches.backward b hb)
    constructor
    · have hfirst := hclosed _ List.mem_cons_self
      rwa [Int.add_comm, Int.add_sub_cancel] at hfirst
    · intro v hv
      have hlayers : frontiers.view.layers? .backward = some b.closed := by
        rw [view, LayerView.layers?, hb]
        rfl
      rw [LayerView.closedAt_of_some hlayers]
      exact hclosed v (List.mem_cons_of_mem _ hv)

/-- The two parts of a path make a meeting, and are a witness of every cut that has it. -/
theorem Reaches.hasWitness (hreaches : frontiers.Reaches fs gs) (hexact : frontiers.Exact)
    (hcons : ∀ r ∈ task.transitions.relations, r.Consistent)
    (hgoal : ∀ s, task.isGoal s = true ↔ s ∈ task.goals) (hfs : Leads task.initial fs m)
    (hgs : Leads m gs t) (ht : task.isGoal t = true)
    (hsimple : LevelSimple task.initial (fs ++ gs)) :
    frontiers.Meets (pathCost fs) (pathCost gs) m ∧
      ∀ cut : Cut, cut.g = pathCost fs → cut.h = pathCost gs → m ∈ cut.states →
        cut.HasWitness frontiers.view (⟨fs, gs⟩ : Witness task.transitions) := by
  obtain ⟨hforward, hbefore⟩ := hreaches.closed_before hexact hfs
  obtain ⟨hbackward, hafter⟩ :=
    hreaches.closed_after (g := pathCost fs) hexact hcons hgs ((hgoal t).mp ht)
  refine ⟨⟨hforward, hbackward⟩, ?_⟩
  intro cut hg hh hm
  refine ⟨⟨m, hm, hfs, t, hgs, ht⟩, hg.symm, hh.symm, hbefore, ?_, hsimple⟩
  intro v hv
  rw [hg] at hv
  rw [hg, hh]
  exact hafter v hv

end Bound

end Frontiers

end LayeredPlanning
