import LayeredPlanning.Proofs.Run.Invariant

/-!
# The opening of a run

A run from both ends first closes a layer from the initial state, when the search from the goals has
closed nothing yet and the bound proves nothing (`Frontiers.Opening`).

* If a layer is left to that search, it is one action away, and the bound promises nothing:
  `Opening.provenBound_nonpos`.
* If none is left the bound promises too much, but it rises with the next layer, unless it is at the
  largest cost: `Opening.provenBound_lt`.  Then the run stalls (`Task.Stalls`).
-/

namespace LayeredPlanning

/-- A saturated bound that promises something rises with the second of two searches, as long as
there is room above the sum. -/
theorem Cost.satSub_lt_satSub {a b c m : Int} (hm : 0 ≤ m) (ha : -1 ≤ a)
    (hb : -1 ≤ b) (hlt : b < c) (hroom : a + b + 2 < max)
    (hpos : 0 < satSub (satAdd (satAdd a b) 2) m) :
    satSub (satAdd (satAdd a b) 2) m < satSub (satAdd (satAdd a c) 2) m := by
  grind [satAdd, satSub, saturate, min, max]

theorem Cost.satSub_nonpos {k m : Int} (hk : 0 < k) (h : k ≤ m) :
    satSub (satAdd (satAdd (k - 1) (-1)) 2) m ≤ 0 := by
  grind [satAdd, satSub, saturate, min, max]

/-- Within the horizon the initial state can only be left for free. -/
def Task.Confined (task : Task) (horizon : Int) : Prop :=
  ∀ (es : List (Step task.transitions)) (t : State), Leads task.initial es t →
    0 < pathCost es → horizon < pathCost es

/-- The run promises all it ever will before it has closed a layer from the goals. -/
def Task.Stalls (task : Task) (policy : RunPolicy) : Prop :=
  policy.mode = .bidirectional ∧ Cost.max - 1 ≤ policy.maxCost ∧ task.Confined policy.maxCost

/-- Runs with a sensible horizon do not stall. -/
theorem Task.not_stalls {task : Task} {policy : RunPolicy}
    (h : policy.maxCost ≤ (Cost.max - 2) / 2) : ¬ task.Stalls policy := by
  rintro ⟨-, hfar, -⟩
  unfold Cost.max at h hfar
  omega

variable {task : Task} {horizon : Int}

namespace Frontiers

variable {frontiers next : Frontiers task horizon} {cuts : List Cut} {policy : RunPolicy}

/-- The search from the initial state has closed its first layer, and that from the goals has closed
nothing. -/
def Opening (frontiers : Frontiers task horizon) : Prop :=
  ∃ f b, frontiers.forward? = some f ∧ frontiers.backward? = some b ∧ f.Exact 0 ∧
    0 ≤ f.closedThrough ∧ b.nextCost? = some 0

/-- The searches of a run start where its mode says. -/
theorem start_cases (task : Task) (policy : RunPolicy) :
    (policy.mode = .forward ∧
      Frontiers.start task policy = ⟨some (.start task .forward policy.maxCost), none⟩) ∨
    (policy.mode = .backward ∧
      Frontiers.start task policy = ⟨none, some (.start task .backward policy.maxCost)⟩) ∨
    (policy.mode = .bidirectional ∧
      Frontiers.start task policy = ⟨some (.start task .forward policy.maxCost),
        some (.start task .backward policy.maxCost)⟩) := by
  rw [Frontiers.start]
  cases policy.mode
  · exact .inl ⟨rfl, rfl⟩
  · exact .inr (.inl ⟨rfl, rfl⟩)
  · exact .inr (.inr ⟨rfl, rfl⟩)

theorem exact_start (task : Task) (hpolicy : 0 ≤ policy.maxCost) :
    (Frontiers.start task policy).Exact := by
  have hsearch : ∀ (d : Direction) (search : LayerSearch task d policy.maxCost),
      some (LayerSearch.start task d policy.maxCost) = some search →
        ∃ done, -1 ≤ done ∧ search.Exact done := by
    rintro d search ⟨⟩
    exact ⟨-1, Int.le_refl _, LayerSearch.exact_start task d hpolicy⟩
  rcases start_cases task policy with ⟨_, h⟩ | ⟨_, h⟩ | ⟨_, h⟩
  · rw [h]
    exact ⟨hsearch .forward, nofun, .inl rfl⟩
  · rw [h]
    exact ⟨nofun, hsearch .backward, .inr rfl⟩
  · rw [h]
    exact ⟨hsearch .forward, hsearch .backward, .inl rfl⟩

/-- At first the searches meet nowhere. -/
theorem not_meets_start (task : Task) (hpolicy : 0 ≤ policy.maxCost) (g h : Int) (s : State) :
    ¬ (Frontiers.start task policy).Meets g h s := by
  have hclosed : ∀ (d : Direction) (c : Int),
      ¬ ClosedBy (some (LayerSearch.start task d policy.maxCost)) s c := by
    intro d c hs
    rw [ClosedBy, LayerSearch.start, dif_pos hpolicy] at hs
    exact ClosedLayers.notMem_closedAt_empty hs
  rintro ⟨hg, hh⟩
  rcases start_cases task policy with ⟨_, heq⟩ | ⟨_, heq⟩ | ⟨_, heq⟩
  · rw [heq] at hg
    exact hclosed .forward g hg
  · rw [heq] at hh
    exact hclosed .backward h hh
  · rw [heq] at hg
    exact hclosed .forward g hg

theorem isEmpty_root (hlawful : task.Lawful) (d : Direction) : (task.root d).isEmpty = false := by
  cases d with
  | forward => rfl
  | backward => exact hlawful.goals_ne_empty

theorem closeNext?_start_ne_none (hlawful : task.Lawful) (hpolicy : 0 ≤ policy.maxCost) :
    (Frontiers.start task policy).closeNext? ≠ none := by
  intro hnone
  obtain ⟨hf, hb⟩ := closeNext?_eq_none hnone
  have hwaits := fun d ↦ LayerSearch.nextCost?_start (isEmpty_root hlawful d) hpolicy
  rcases start_cases task policy with ⟨_, heq⟩ | ⟨_, heq⟩ | ⟨_, heq⟩
  · rw [heq, Option.bind_some, hwaits] at hf
    cases hf
  · rw [heq, Option.bind_some, hwaits] at hb
    cases hb
  · rw [heq, Option.bind_some, hwaits] at hf
    cases hf

/-- After the first layer the only search has started, or the run is at its opening. -/
theorem started_or_opening (hlawful : task.Lawful) (hpolicy : 0 ≤ policy.maxCost)
    {next : Frontiers task policy.maxCost}
    (hclose : (Frontiers.start task policy).closeNext? = some (cuts, next)) :
    policy.mode ≠ .bidirectional ∧ next.Started ∨
      policy.mode = .bidirectional ∧ next.Opening ∧ cuts = [] := by
  have hwaits := fun d ↦ LayerSearch.nextCost?_start (isEmpty_root hlawful d) hpolicy
  have hexact := fun d ↦ LayerSearch.exact_start task d hpolicy
  rcases start_cases task policy with ⟨hmode, heq⟩ | ⟨hmode, heq⟩ | ⟨hmode, heq⟩
  · rw [heq] at hclose
    rcases closeNext?_eq_some hclose with
      ⟨search, k, layer, search', _, hsearch, hnext, _, rfl⟩ | ⟨_, _, _, _, _, hnone, _⟩
    · cases hsearch
      refine .inl ⟨by rw [hmode]; decide, ?_, nofun⟩
      rintro last ⟨⟩
      exact closedThrough_nonneg (Int.le_refl _) (hexact .forward) hnext
    · cases hnone
  · rw [heq] at hclose
    rcases closeNext?_eq_some hclose with
      ⟨_, _, _, _, _, hnone, _⟩ | ⟨search, k, layer, search', _, hsearch, hnext, _, rfl⟩
    · cases hnone
    · cases hsearch
      refine .inl ⟨by rw [hmode]; decide, nofun, ?_⟩
      rintro last ⟨⟩
      exact closedThrough_nonneg (Int.le_refl _) (hexact .backward) hnext
  · rw [heq] at hclose
    rcases closeNext?_eq_some hclose with
      ⟨search, k, layer, search', _, hsearch, hnext, rfl, rfl⟩ | ⟨_, _, _, _, hdirection, _⟩
    · cases hsearch
      have hzero := closedThrough_nonneg (Int.le_refl _) (hexact .forward) hnext
      have hcost := LayerSearch.nextCost?_of_closeNext? hnext
      rw [hwaits] at hcost
      obtain rfl := Option.some.inj hcost
      have hfirst := ((hexact .forward).closeNext hnext).1
      refine .inr ⟨hmode, ⟨search', _, rfl, rfl, hfirst, hzero, hwaits .backward⟩, ?_⟩
      rw [Option.map_some, LayerSearch.start, dif_pos hpolicy]
      rfl
    · rw [nextDirection?, Option.bind_some, Option.bind_some, hwaits, hwaits] at hdirection
      cases hdirection

namespace Opening

/-- At the opening it is the turn of the search from the goals. -/
theorem nextDirection? (h : frontiers.Opening) :
    frontiers.nextDirection? = some .backward := by
  obtain ⟨f, b, hf, hb, hfirst, hzero, hwaits⟩ := h
  rw [Frontiers.nextDirection?, hf, hb, Option.bind_some, Option.bind_some, hwaits]
  cases hk : f.nextCost? with
  | none => rfl
  | some k =>
    rw [LayerSearch.closedThrough, hk] at hzero
    exact if_pos (Int.lt_of_lt_of_le Int.zero_lt_one (Int.le_of_sub_nonneg hzero))

theorem closeNext?_ne_none (h : frontiers.Opening) : frontiers.closeNext? ≠ none := by
  intro hnone
  obtain ⟨f, b, hf, hb, hfirst, hzero, hwaits⟩ := h
  have hb' := (closeNext?_eq_none hnone).2
  rw [hb, Option.bind_some, hwaits] at hb'
  cases hb'

/-- The bound at the opening: the search from the goals lags behind. -/
theorem provenBound_eq (h : frontiers.Opening) :
    ∃ f, frontiers.forward? = some f ∧ f.Exact 0 ∧ 0 ≤ f.closedThrough ∧
      ∀ most, frontiers.provenBound most =
        Cost.satSub (Cost.satAdd (Cost.satAdd f.closedThrough (-1)) 2) most := by
  obtain ⟨f, b, hf, hb, hfirst, hzero, hwaits⟩ := h
  refine ⟨f, hf, hfirst, hzero, ?_⟩
  intro most
  have hlag : b.closedThrough = -1 := by
    rw [LayerSearch.closedThrough, hwaits]
    rfl
  rw [provenBound_of_both hf hb, hlag]

/-- The search from the initial state is at its end if all paths within the horizon are free. -/
theorem nextCost?_eq_none_iff (h : frontiers.Opening) :
    frontiers.forward?.bind (·.nextCost?) = none ↔ task.Confined horizon := by
  obtain ⟨f, hf, hfirst, -⟩ := h.provenBound_eq
  rw [hf, Option.bind_some, hfirst.nextCost?_eq_none_iff]
  constructor
  · intro hall es t hes hpos
    by_contra hle
    exact hall (pathCost es) t hpos (Int.not_lt.mp hle)
      (reachedAt_forward_iff.mpr ⟨es, hes, rfl⟩)
  · intro hconfined c s hc hhorizon hs
    obtain ⟨es, hes, rfl⟩ := reachedAt_forward_iff.mp hs
    exact absurd (hconfined es s hes hc) (Int.not_lt.mpr hhorizon)

/-- As long as the search from the initial state is not at its end, the bound promises nothing: the
next layer is one action away. -/
theorem provenBound_nonpos (h : frontiers.Opening) (hconfined : ¬ task.Confined horizon) :
    frontiers.provenBound task.maxActionCost ≤ 0 := by
  rw [← h.nextCost?_eq_none_iff] at hconfined
  obtain ⟨f, hf, hfirst, -, hbound⟩ := h.provenBound_eq
  rw [hf, Option.bind_some] at hconfined
  obtain ⟨k, hk⟩ := Option.ne_none_iff_exists'.mp hconfined
  obtain ⟨hlt, s, hs⟩ := hfirst.exists_entered hk
  have hnear : k ≤ task.maxActionCost := by
    rcases hs with ⟨rfl, _⟩ | ⟨t, b, ht, hb, r, hr, rfl, _⟩
    · exact absurd hlt (Int.lt_irrefl 0)
    · have hcost := Task.cost_le_maxActionCost (TransitionTable.mem_paid.mp hr).1
      omega
  have hthrough : f.closedThrough = k - 1 := by
    rw [LayerSearch.closedThrough, hk]
  rw [hbound, hthrough]
  exact Cost.satSub_nonpos hlt hnear

/-- After the opening both searches have started. -/
theorem started (h : frontiers.Opening) (hexact : frontiers.Exact)
    (hclose : frontiers.closeNext? = some (cuts, next)) :
    ∃ search, next.Started ∧ next.forward? = frontiers.forward? ∧
      next.backward? = some search ∧ 0 ≤ search.closedThrough := by
  have hdirection := h.nextDirection?
  obtain ⟨f, hf, -, hzero, -⟩ := h.provenBound_eq
  rcases closeNext?_eq_some hclose with
    ⟨_, _, _, _, hforward, _⟩ | ⟨search, k, layer, search', _, hsearch, hnext, _, rfl⟩
  · rw [hdirection] at hforward
    cases hforward
  · obtain ⟨done, hone, hdone⟩ := hexact.backward search hsearch
    have hback := closedThrough_nonneg hone hdone hnext
    refine ⟨search', ⟨?_, ?_⟩, rfl, rfl, hback⟩
    · intro last hlast
      obtain rfl := Option.some.inj (hf.symm.trans hlast)
      exact hzero
    · rintro last ⟨⟩
      exact hback

/-- A bound that promised something at the opening has risen after it. -/
theorem provenBound_lt (h : frontiers.Opening) (hexact : frontiers.Exact)
    (hclose : frontiers.closeNext? = some (cuts, next)) (hhorizon : horizon ≤ Cost.max - 2)
    {most : Int} (hmost : 0 ≤ most) (hpos : 0 < frontiers.provenBound most) :
    frontiers.provenBound most < next.provenBound most := by
  obtain ⟨f, hf, -, hzero, hbound⟩ := h.provenBound_eq
  obtain ⟨search, -, hf', hb', hback⟩ := h.started hexact hclose
  have hle := f.closedThrough_le_horizon
  rw [hbound] at hpos ⊢
  rw [provenBound_of_both (hf'.trans hf) hb']
  exact Cost.satSub_lt_satSub hmost (by omega) (Int.le_refl _) (by omega) (by omega) hpos

end Opening

end Frontiers

end LayeredPlanning
