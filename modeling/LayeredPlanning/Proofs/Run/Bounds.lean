import LayeredPlanning.Proofs.Run.Consistency
import LayeredPlanning.Proofs.Run.NoSolution

/-!
# How the bound rises

In a run from both ends the bound rises with each layer, as soon as it promises something, until the
sum of what the searches have closed saturates: `Exact.provenBound_lt`.  In a run from one end no
new cut costs less than the bound before it: `provenBound_le_of_mem_cuts`.

So if closing a layer leaves the bound where it is, the cuts of the layer are not below it, unless
the searches were saturated: `Exact.le_of_mem_cuts`.
-/

namespace LayeredPlanning

open Relation

variable {task : Task} {horizon : Int}

theorem Cost.satAdd_comm (a b : Int) : satAdd a b = satAdd b a :=
  congrArg saturate (Int.add_comm a b)

/-- Closing a layer raises the cost up to which all layers are closed. -/
theorem LayerSearch.Exact.closedThrough_lt {d : Direction}
    {search next : LayerSearch task d horizon} {done k : Int} {layer : StateSet}
    (h : search.Exact done) (hclose : search.closeNext? = some ((k, layer), next)) :
    search.closedThrough = k - 1 ∧ search.closedThrough < next.closedThrough := by
  have hk := nextCost?_of_closeNext? hclose
  have hbefore : search.closedThrough = k - 1 := by
    rw [closedThrough, hk]
  have hafter := (h.closeNext hclose).1.le_closedThrough (le_horizon_of_nextCost? hk)
  exact ⟨hbefore, by omega⟩

namespace Frontiers

variable {frontiers next : Frontiers task horizon} {cuts : List Cut} {cut : Cut} {most : Int}
  {policy : RunPolicy}

/-- What closing a layer does to the costs up to which all layers are closed: one rises, and the
other stays. -/
theorem Exact.closedThrough_closeNext? (hexact : frontiers.Exact)
    (hclose : frontiers.closeNext? = some (cuts, next)) :
    (∃ f f', frontiers.forward? = some f ∧ next.forward? = some f' ∧
      f.closedThrough < f'.closedThrough ∧ next.backward? = frontiers.backward?) ∨
    (∃ b b', frontiers.backward? = some b ∧ next.backward? = some b' ∧
      b.closedThrough < b'.closedThrough ∧ next.forward? = frontiers.forward?) := by
  rcases closeNext?_eq_some hclose with
    ⟨search, k, layer, search', _, hsearch, hnext, _, rfl⟩ |
    ⟨search, k, layer, search', _, hsearch, hnext, _, rfl⟩
  · obtain ⟨done, -, hdone⟩ := hexact.forward search hsearch
    exact .inl ⟨search, search', hsearch, rfl, (hdone.closedThrough_lt hnext).2, rfl⟩
  · obtain ⟨done, -, hdone⟩ := hexact.backward search hsearch
    exact .inr ⟨search, search', hsearch, rfl, (hdone.closedThrough_lt hnext).2, rfl⟩

/-- The bound never falls. -/
theorem Exact.provenBound_le (hexact : frontiers.Exact)
    (hclose : frontiers.closeNext? = some (cuts, next)) (most : Int) :
    frontiers.provenBound most ≤ next.provenBound most := by
  rcases hexact.closedThrough_closeNext? hclose with
    ⟨f, f', hf, hf', hlt, hb'⟩ | ⟨b, b', hb, hb', hlt, hf'⟩
  · have hle := Int.le_of_lt hlt
    rw [provenBound, provenBound, hf, hf', hb']
    cases frontiers.backward? with
    | none => exact Cost.satAdd_le_satAdd hle (Int.le_refl 1)
    | some b =>
      exact Cost.satSub_le_satSub (Cost.satAdd_le_satAdd
        (Cost.satAdd_le_satAdd hle (Int.le_refl b.closedThrough)) (Int.le_refl 2))
  · have hle := Int.le_of_lt hlt
    rw [provenBound, provenBound, hb, hb', hf']
    cases frontiers.forward? with
    | none => exact Cost.satAdd_le_satAdd hle (Int.le_refl 1)
    | some f =>
      exact Cost.satSub_le_satSub (Cost.satAdd_le_satAdd
        (Cost.satAdd_le_satAdd (Int.le_refl f.closedThrough) hle) (Int.le_refl 2))

/-- A bound that promises something rises with each layer, unless the searches are saturated. -/
theorem Exact.provenBound_lt (hexact : frontiers.Exact) (hhorizon : 0 ≤ horizon)
    (hclose : frontiers.closeNext? = some (cuts, next)) (hmost : 0 ≤ most)
    {f : LayerSearch task .forward horizon} {b : LayerSearch task .backward horizon}
    (hf : frontiers.forward? = some f) (hb : frontiers.backward? = some b)
    (hroom : ¬ frontiers.Saturated) (hpos : 0 < frontiers.provenBound most) :
    frontiers.provenBound most < next.provenBound most := by
  obtain ⟨_, hfone, hfdone⟩ := hexact.forward f hf
  obtain ⟨_, hbone, hbdone⟩ := hexact.backward b hb
  have hfge := hfdone.neg_one_le_closedThrough hfone hhorizon
  have hbge := hbdone.neg_one_le_closedThrough hbone hhorizon
  have hsum : f.closedThrough + b.closedThrough + 2 < Cost.max := by
    by_contra hle
    exact hroom ⟨f, b, hf, hb, Int.not_lt.mp hle⟩
  rw [provenBound_of_both hf hb] at hpos ⊢
  rcases hexact.closedThrough_closeNext? hclose with
    ⟨_, f', hf₂, hf', hlt, hb'⟩ | ⟨_, b', hb₂, hb', hlt, hf'⟩
  · obtain rfl := Option.some.inj (hf.symm.trans hf₂)
    rw [provenBound_of_both hf' (hb'.trans hb), Cost.satAdd_comm f.closedThrough,
      Cost.satAdd_comm f'.closedThrough]
    rw [Cost.satAdd_comm f.closedThrough] at hpos
    exact Cost.satSub_lt_satSub hmost hbge hfge hlt (by omega) hpos
  · obtain rfl := Option.some.inj (hb.symm.trans hb₂)
    rw [provenBound_of_both (hf'.trans hf) hb']
    exact Cost.satSub_lt_satSub hmost hfge hbge hlt hsum hpos

/-- The cut of a layer with a root costs what the layer costs. -/
theorem exists_of_mem_cutsWith_none {d : Direction} {own : Int} {layer : StateSet}
    (hcut : cut ∈ cutsWith task d own layer none) :
    ∃ states, cut = .ofMeeting d own 0 states := by
  obtain ⟨other, states, rfl, ⟨s, hs⟩, hall⟩ :=
    of_mem_cutsWith (none : Option (LayerSearch task d.opposite 0)) hcut
  obtain ⟨-, rfl, -⟩ := hall s hs
  exact ⟨states, rfl⟩

/-- Where there is one search only, the cuts of a new layer are not below the bound. -/
theorem provenBound_le_of_mem_cuts (hexact : frontiers.Exact)
    (hclose : frontiers.closeNext? = some (cuts, next)) (hcut : cut ∈ cuts)
    (hone : frontiers.forward? = none ∨ frontiers.backward? = none) (most : Int) :
    frontiers.provenBound most ≤ cut.f := by
  have hcost : ∀ k, Cost.satAdd (k - 1) 1 = Cost.saturate k := fun k ↦
    congrArg Cost.saturate (Int.sub_add_cancel k 1)
  rcases closeNext?_eq_some hclose with
    ⟨search, k, layer, search', _, hsearch, hnext, rfl, rfl⟩ |
    ⟨search, k, layer, search', _, hsearch, hnext, rfl, rfl⟩
  · have hnone : frontiers.backward? = none :=
      hone.resolve_left (by rw [hsearch]; exact Option.some_ne_none _)
    obtain ⟨done, -, hdone⟩ := hexact.forward search hsearch
    rw [hnone] at hcut
    obtain ⟨states, rfl⟩ := exists_of_mem_cutsWith_none hcut
    rw [provenBound, hsearch, hnone, Option.map_some, (hdone.closedThrough_lt hnext).1]
    exact (hcost k).trans_le (congrArg Cost.saturate (Int.add_zero k).symm).le
  · have hnone : frontiers.forward? = none :=
      hone.resolve_right (by rw [hsearch]; exact Option.some_ne_none _)
    obtain ⟨done, -, hdone⟩ := hexact.backward search hsearch
    rw [hnone] at hcut
    obtain ⟨states, rfl⟩ := exists_of_mem_cutsWith_none hcut
    rw [provenBound, hsearch, hnone, Option.map_some, (hdone.closedThrough_lt hnext).1]
    exact (hcost k).trans_le (congrArg Cost.saturate (Int.zero_add k).symm).le

/-- If a layer leaves the bound where it is, its cuts are not below it, unless the searches were
saturated. -/
theorem Exact.le_of_mem_cuts (hexact : frontiers.Exact) (hhorizon : 0 ≤ horizon)
    (hclose : frontiers.closeNext? = some (cuts, next)) (hcut : cut ∈ cuts) (hvalid : cut.Valid)
    (hmost : 0 ≤ most) (hroom : ¬ frontiers.Saturated)
    (hidle : next.provenBound most ≤ max 0 (frontiers.provenBound most)) :
    max 0 (frontiers.provenBound most) ≤ cut.f := by
  refine max_le hvalid.f_nonneg ?_
  cases hf : frontiers.forward? with
  | none => exact provenBound_le_of_mem_cuts hexact hclose hcut (.inl hf) most
  | some f =>
    cases hb : frontiers.backward? with
    | none => exact provenBound_le_of_mem_cuts hexact hclose hcut (.inr hb) most
    | some b =>
      by_contra hbelow
      have hpos := Int.lt_of_le_of_lt hvalid.f_nonneg (Int.not_le.mp hbelow)
      have hlt := hexact.provenBound_lt hhorizon hclose hmost hf hb hroom hpos
      rw [max_eq_right (Int.le_of_lt hpos)] at hidle
      exact absurd hidle (Int.not_le.mpr hlt)

/-! ## The first bound -/

theorem closedThrough_start (hlawful : task.Lawful) (hpolicy : 0 ≤ policy.maxCost)
    (d : Direction) : (LayerSearch.start task d policy.maxCost).closedThrough = -1 := by
  rw [LayerSearch.closedThrough, LayerSearch.nextCost?_start (isEmpty_root hlawful d) hpolicy]
  rfl

/-- Before the first layer the bound promises nothing. -/
theorem provenBound_start_nonpos (hlawful : task.Lawful) (hpolicy : 0 ≤ policy.maxCost)
    (hmost : 0 ≤ most) : (Frontiers.start task policy).provenBound most ≤ 0 := by
  have hthrough := closedThrough_start hlawful hpolicy
  rcases start_cases task policy with ⟨_, heq⟩ | ⟨_, heq⟩ | ⟨_, heq⟩
  · rw [heq, provenBound, Option.map_some, hthrough]
    exact Int.le_refl 0
  · rw [heq, provenBound, Option.map_some, hthrough]
    exact Int.le_refl 0
  · rw [heq, provenBound_of_both rfl rfl, hthrough, hthrough]
    have hzero : Cost.satAdd (Cost.satAdd (-1) (-1)) 2 = 0 := rfl
    rw [hzero]
    grind [Cost.satSub, Cost.saturate, Cost.min, Cost.max]

/-! ## Saturated searches -/

/-- Saturated searches stay saturated. -/
theorem Saturated.closeNext (h : frontiers.Saturated) (hexact : frontiers.Exact)
    (hclose : frontiers.closeNext? = some (cuts, next)) : next.Saturated := by
  obtain ⟨f, b, hf, hb, hsum⟩ := h
  rcases hexact.closedThrough_closeNext? hclose with
    ⟨_, f', hf₂, hf', hlt, hb'⟩ | ⟨_, b', hb₂, hb', hlt, hf'⟩
  · obtain rfl := Option.some.inj (hf.symm.trans hf₂)
    exact ⟨f', b, hf', hb'.trans hb, by omega⟩
  · obtain rfl := Option.some.inj (hb.symm.trans hb₂)
    exact ⟨f, b', hf'.trans hf, hb', by omega⟩

theorem serves_of_closes {policy : RunPolicy} {frontiers : Frontiers task policy.maxCost}
    (h : ReflTransGen Closes (Frontiers.start task policy) frontiers) :
    frontiers.Serves policy.mode := by
  induction h with
  | refl => exact serves_start task policy
  | tail _ hcloses ih =>
    obtain ⟨cuts, hclose⟩ := hcloses
    exact ih.closeNext hclose

/-- Saturation takes two searches, and a horizon beyond half of the costs. -/
theorem Serves.not_saturated {policy : RunPolicy} {frontiers : Frontiers task policy.maxCost}
    (h : frontiers.Serves policy.mode)
    (hmoderate : policy.mode ≠ .bidirectional ∨ policy.maxCost ≤ (Cost.max - 2) / 2) :
    ¬ frontiers.Saturated := by
  rintro ⟨f, b, hf, hb, hsum⟩
  rcases hmoderate with hmode | hnear
  · rcases h.cases with ⟨_, _, _, hnone⟩ | ⟨_, _, hnone, _⟩ | ⟨hboth, _⟩
    · rw [hb] at hnone
      cases hnone
    · rw [hf] at hnone
      cases hnone
    · exact hmode hboth
  · have hfle := f.closedThrough_le_horizon
    have hble := b.closedThrough_le_horizon
    unfold Cost.max at hsum hnear
    omega

end Frontiers

end LayeredPlanning
