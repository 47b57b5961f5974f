import LayeredPlanning.Proofs.Reconstruction.Registry

/-!
# Asking for more plans

`CutRegistry.withCount` is the registry that wants another number of plans, and is the same
otherwise.  It takes the same decisions as long as the registry that wants fewer plans has not found
them: the budget of a cut only decides where its reconstruction stops (`Walk.deliver_withCount`).

So a construction of the registry that wants more plans tells what the other does.  Either they are
alike up to the number of plans at the end as well, or the one has found its number, and its plans
are the first ones of the other (`CutRegistry.FilledBefore`): `construct_withCount`.
-/

namespace LayeredPlanning

/-- The selection with another number of plans. -/
def Selection.withCount (selection : Selection) (count : Nat) : Selection :=
  match selection with
  | topK _ => topK count
  | topQ _ percent => topQ count percent

@[simp] theorem Selection.count_withCount (selection : Selection) (count : Nat) :
    (selection.withCount count).count = count := by
  cases selection <;> rfl

theorem Selection.admits_withCount (selection : Selection) (count : Nat) (best? : Option Int)
    (cost : Int) : (selection.withCount count).admits best? cost = selection.admits best? cost := by
  cases selection <;> cases best? <;> rfl

/-! ## Databases -/

namespace PlanDatabase

variable {db : PlanDatabase} {count : Nat}

/-- The database that wants another number of plans. -/
def withCount (db : PlanDatabase) (count : Nat) : PlanDatabase :=
  { db with selection := db.selection.withCount count }

theorem withinQuality_withCount (db : PlanDatabase) (count : Nat) (cost : Int) :
    (db.withCount count).withinQuality cost = db.withinQuality cost :=
  Selection.admits_withCount ..

theorem closeAtCost_withCount (db : PlanDatabase) (count : Nat) (cost : Int) :
    (db.withCount count).closeAtCost cost = (db.closeAtCost cost).withCount count := by
  rw [closeAtCost, withinQuality_withCount, closeAtCost]
  split <;> rfl

/-- What has not found enough has not found enough for more. -/
theorem foundEnough_withCount (hopen : db.foundEnough = false)
    (hle : db.selection.count ≤ count) : (db.withCount count).foundEnough = false := by
  rw [foundEnough, Bool.or_eq_false_iff, decide_eq_false_iff_not] at hopen ⊢
  refine ⟨hopen.1, ?_⟩
  show ¬ (db.selection.withCount count).count ≤ db.plans.length
  rw [Selection.count_withCount]
  omega

/-- As long as plans are wanted, their number does not matter to a submission. -/
theorem submit_withCount (hopen : db.foundEnough = false) (hle : db.selection.count ≤ count)
    (plan : Plan) :
    (db.withCount count).submit plan =
      ((db.submit plan).1, (db.submit plan).2.withCount count) := by
  have hrejects : (db.withCount count).rejects plan = db.rejects plan := by
    rw [rejects, rejects, foundEnough_withCount hopen hle, hopen, withinQuality_withCount]
    rfl
  rcases submit_cases db plan with ⟨heq, hrejected⟩ | ⟨heq, htaken, hknown⟩ |
    ⟨heq, htaken, hnew⟩
  · rw [heq, submit, hrejects, hrejected]
    rfl
  · rw [heq, submit, hrejects, htaken, if_neg Bool.false_ne_true]
    exact if_pos hknown
  · rw [heq, submit, hrejects, htaken, if_neg Bool.false_ne_true]
    exact if_neg hnew

end PlanDatabase

/-! ## Reconstructions -/

/-- A larger budget makes no difference, or the smaller one is used up.  Then the reconstruction
goes on, and finds more plans behind those that it has found. -/
theorem Walk.deliver_withCount {cut : Cut} {budget budget' count : Nat}
    (hbudget : budget ≤ budget') {tally : Tally} {db : PlanDatabase}
    (hle : db.selection.count ≤ count) (hclosed : db.isClosed = false)
    (hlt : tally.accepted < budget)
    (hroom : db.plans.length + budget ≤ db.selection.count + tally.accepted)
    (items : List (Except ReconstructionError Plan)) :
    deliver cut budget' tally (db.withCount count) items =
        ((deliver cut budget tally db items).1,
          (deliver cut budget tally db items).2.withCount count) ∨
      ∃ tally', (deliver cut budget tally db items).1 = .ok tally' ∧
        budget ≤ tally'.accepted ∧ budget < budget' ∧
        (deliver cut budget tally db items).2.plans <+:
          (deliver cut budget' tally (db.withCount count) items).2.plans := by
  induction items generalizing tally db with
  | nil => exact .inl rfl
  | cons item items ih =>
    cases item with
    | error e => exact .inl rfl
    | ok plan =>
      by_cases hcost : plan.cost = cut.f
      swap
      · left
        rw [deliver, deliver, if_neg hcost, if_neg hcost]
      -- The budget leaves room in the database that wants fewer plans, so both give the same
      -- verdict.
      have hopen : db.foundEnough = false := by
        rw [PlanDatabase.foundEnough, hclosed, Bool.false_or, decide_eq_false_iff_not]
        omega
      have hsubmit : PlanStore.submit (db.withCount count) plan =
          ((db.submit plan).1, (db.submit plan).2.withCount count) :=
        PlanDatabase.submit_withCount hopen hle plan
      have hfew : deliver cut budget tally db (.ok plan :: items) =
          if budget ≤ (tally.record (db.submit plan).1 plan).accepted then
            (.ok (tally.record (db.submit plan).1 plan), (db.submit plan).2)
          else
            deliver cut budget (tally.record (db.submit plan).1 plan) (db.submit plan).2
              items := by
        rw [deliver, if_pos hcost]
        rfl
      have hmany : deliver cut budget' tally (db.withCount count) (.ok plan :: items) =
          if budget' ≤ (tally.record (db.submit plan).1 plan).accepted then
            (.ok (tally.record (db.submit plan).1 plan), (db.submit plan).2.withCount count)
          else deliver cut budget' (tally.record (db.submit plan).1 plan)
            ((db.submit plan).2.withCount count) items := by
        rw [deliver, if_pos hcost, hsubmit]
      have hext := PlanDatabase.Extends.submit db plan
      rw [hfew, hmany]
      by_cases hfull : budget ≤ (tally.record (db.submit plan).1 plan).accepted
      · rw [if_pos hfull]
        by_cases hfull' : budget' ≤ (tally.record (db.submit plan).1 plan).accepted
        · rw [if_pos hfull']
          exact .inl rfl
        · rw [if_neg hfull']
          have hgrows := PlanDatabase.extends_deliver cut budget'
            (tally.record (db.submit plan).1 plan) ((db.submit plan).2.withCount count) items
          exact .inr ⟨_, rfl, hfull, by omega, hgrows.plans⟩
      · rw [if_neg hfull, if_neg (by omega)]
        refine ih (hext.selection ▸ hle) (hext.isClosed.trans hclosed) (by omega) ?_
        rw [hext.selection]
        rcases PlanDatabase.submit_cases db plan with ⟨heq, _⟩ | ⟨heq, _⟩ | ⟨heq, _⟩
        · rw [heq]
          exact hroom
        · rw [heq]
          exact hroom
        · -- What is accepted counts against the budget as it takes up room.
          rw [heq]
          show (db.plans ++ [plan]).length + budget ≤ _ + (tally.accepted + 1)
          rw [List.length_append, List.length_singleton]
          omega

namespace CutRegistry

variable {registry small large : CutRegistry PlanDatabase} {count : Nat} {bound : Int}
  {view : LayerView}

/-- The registry that wants another number of plans. -/
def withCount (registry : CutRegistry PlanDatabase) (count : Nat) : CutRegistry PlanDatabase :=
  { registry with store := registry.store.withCount count }

theorem register_withCount (registry : CutRegistry PlanDatabase) (count : Nat) (cut : Cut) :
    (registry.withCount count).register cut =
      (registry.register cut).map fun registered ↦ registered.withCount count := by
  rw [register, register]
  split
  · rfl
  · split <;> rfl

/-- A registry has found its number of plans, and its plans are the first ones of another. -/
structure FilledBefore (small large : CutRegistry PlanDatabase) : Prop where
  filled : small.store.plans.length = small.store.selection.count
  plans : small.store.plans <+: large.store.plans

theorem FilledBefore.foundAll (h : small.FilledBefore large) : small.foundAll = true := by
  have henough : small.store.foundEnough = true := by
    rw [PlanDatabase.foundEnough, Bool.or_eq_true, decide_eq_true_eq]
    exact .inr (Nat.le_of_eq h.filled.symm)
  exact Bool.or_eq_true _ _ ▸ .inl henough

/-- Whatever the other finds besides comes behind. -/
theorem FilledBefore.trans {later : CutRegistry PlanDatabase} (h : small.FilledBefore large)
    (hgrows : large.store.plans <+: later.store.plans) : small.FilledBefore later :=
  ⟨h.filled, h.plans.trans hgrows⟩

theorem target_withCount (registry : CutRegistry PlanDatabase) (count : Nat) :
    (registry.withCount count).target = targetPlans registry.singleSolution count := by
  rw [target]
  exact congrArg (targetPlans registry.singleSolution) (Selection.count_withCount _ count)

/-- Wanting more does not lower the target. -/
theorem target_le_withCount (hle : registry.store.selection.count ≤ count) :
    registry.target ≤ (registry.withCount count).target := by
  rw [target_withCount]
  show targetPlans registry.singleSolution registry.store.selection.count ≤ _
  rw [targetPlans, targetPlans]
  split
  · exact Nat.le_min.mpr ⟨(Nat.min_le_left _ _).trans hle, Nat.min_le_right _ _⟩
  · exact hle

/-- Wanting more raises the target only of a registry that aims for all that it wants. -/
theorem target_eq_count (hlt : registry.target < (registry.withCount count).target) :
    registry.target = registry.store.selection.count := by
  rw [target_withCount] at hlt
  change targetPlans registry.singleSolution registry.store.selection.count < _ at hlt
  show targetPlans registry.singleSolution registry.store.selection.count = _
  rw [targetPlans] at hlt ⊢
  split at hlt
  · next hsingle =>
    rw [targetPlans, if_pos hsingle] at hlt
    rw [if_pos hsingle]
    change min registry.store.selection.count 1 < min count 1 at hlt
    show min registry.store.selection.count 1 = _
    omega
  · next hmany => exact if_neg hmany

theorem foundAll_withCount (hopen : registry.foundAll = false)
    (hle : registry.store.selection.count ≤ count) :
    (registry.withCount count).foundAll = false := by
  obtain ⟨hstore, hlt⟩ := foundAll_eq_false_iff.mp hopen
  exact foundAll_eq_false_iff.mpr ⟨PlanDatabase.foundEnough_withCount hstore hle,
    Nat.lt_of_lt_of_le hlt (target_le_withCount hle)⟩

/-- A registry that would go on if it wanted more plans has found its number. -/
theorem filledBefore_withCount (hfound : registry.found ≤ registry.target)
    (hall : registry.foundAll = true) (hopen : (registry.withCount count).foundAll = false) :
    registry.FilledBefore (registry.withCount count) := by
  refine ⟨?_, List.prefix_refl _⟩
  have hle : registry.target ≤ registry.store.selection.count := target_le_count
  obtain ⟨hstore, hlt⟩ := foundAll_eq_false_iff.mp hopen
  change registry.found < _ at hlt
  rw [foundAll, Bool.or_eq_true, decide_eq_true_eq] at hall
  rcases hall with henough | htarget
  · have hclosed : registry.store.isClosed = false := (Bool.or_eq_false_iff.mp hstore).1
    change registry.store.foundEnough = true at henough
    rw [PlanDatabase.foundEnough, hclosed, Bool.false_or, decide_eq_true_eq] at henough
    exact Nat.le_antisymm (hfound.trans hle) henough
  · have heq : registry.found = registry.target := Nat.le_antisymm hfound htarget
    exact heq.trans (target_eq_count (heq ▸ hlt))

/-! ## Constructions -/

theorem ComesUp.withCount {cut : Cut} {rest : List Cut} (hup : registry.ComesUp bound cut rest)
    (hle : registry.store.selection.count ≤ count) :
    (registry.withCount count).ComesUp bound cut rest :=
  ⟨foundAll_withCount hup.missing hle, hup.cuts, hup.lt⟩

theorem watermarkAbove?_withCount (registry : CutRegistry PlanDatabase) (count : Nat) (cut : Cut) :
    (registry.withCount count).watermarkAbove? cut = registry.watermarkAbove? cut := rfl

theorem admitsCost_withCount (registry : CutRegistry PlanDatabase) (count : Nat) (cost : Int) :
    PlanStore.admitsCost (registry.withCount count).store cost =
      PlanStore.admitsCost registry.store cost :=
  PlanDatabase.withinQuality_withCount registry.store count cost

theorem refused_withCount (registry : CutRegistry PlanDatabase) (count : Nat) (cut : Cut) :
    (registry.withCount count).refused cut = (registry.refused cut).withCount count :=
  congrArg (fun store ↦ { registry.refused cut with store := store })
    (PlanDatabase.closeAtCost_withCount registry.store count cut.f)

/-- If a reconstruction with the larger budget succeeds, so does that with the smaller one.  Either
they are alike, or the smaller budget completes the number of plans. -/
theorem reconstruct_withCount (hopen : registry.foundAll = false)
    (hle : registry.store.selection.count ≤ count) {cut : Cut} {tally' : Tally}
    {store' : PlanDatabase}
    (h : reconstruct view cut (registry.withCount count).missing (registry.withCount count).store =
      (.ok tally', store')) :
    ∃ tally store, reconstruct view cut registry.missing registry.store = (.ok tally, store) ∧
      (tally' = tally ∧ store' = store.withCount count ∨
        store.plans.length = store.selection.count ∧ store.plans <+: store'.plans) := by
  have hlt : registry.store.plans.length < registry.target := (foundAll_eq_false_iff.mp hopen).2
  have htarget := target_le_withCount hle
  have hcount : registry.target ≤ registry.store.selection.count := target_le_count
  have hmissing : registry.missing = registry.target - registry.store.plans.length := rfl
  have hmissing' : (registry.withCount count).missing =
      (registry.withCount count).target - registry.store.plans.length := rfl
  rcases hrec : reconstruct view cut registry.missing registry.store with ⟨result, store⟩
  have hdeliver := hrec
  rw [reconstruct_eq_deliver (by omega)] at hdeliver h
  change Walk.deliver cut _ .zero (registry.store.withCount count) _ = _ at h
  have hzero : Tally.zero.accepted < registry.missing := Nat.sub_pos_of_lt hlt
  have hroom : registry.store.plans.length + registry.missing ≤
      registry.store.selection.count + Tally.zero.accepted := by
    show _ ≤ _ + 0
    omega
  rcases Walk.deliver_withCount
      (show registry.missing ≤ (registry.withCount count).missing by omega) hle
      (isClosed_of_foundAll hopen) hzero hroom (cut.preorder view) with
    halike | ⟨tally, htally, hfull, hmore, hprefix⟩
  · rw [hdeliver, h] at halike
    obtain ⟨rfl, rfl⟩ := Prod.mk.inj halike
    exact ⟨tally', store, rfl, .inl ⟨rfl, rfl⟩⟩
  · rw [hdeliver] at htally hprefix
    rw [h] at hprefix
    obtain rfl : result = .ok tally := htally
    refine ⟨tally, store, rfl, .inr ⟨?_, hprefix⟩⟩
    -- The smaller budget is less than the larger one, so it is all that the count leaves.
    have hraised : registry.target < (registry.withCount count).target := by omega
    have hwanted := target_eq_count hraised
    have hfilled : (registry.reconstructed cut [] tally store).found =
        registry.found + tally.accepted :=
      found_reconstructed hrec
    change store.plans.length = registry.store.plans.length + _ at hfilled
    have hbudget := accepted_reconstruct_le hrec
    have hext := extends_reconstruct view cut registry.missing registry.store
    rw [hrec] at hext
    rw [hext.selection]
    omega

/-- If the loop of the registry that wants more plans succeeds, so does that of the other. -/
theorem constructFrom_withCount {least? least'? : Option Int}
    (hle : registry.store.selection.count ≤ count) (hfound : registry.found ≤ registry.target)
    (h : (registry.withCount count).constructFrom bound view least? = (.ok least'?, large)) :
    ∃ least?' small, registry.constructFrom bound view least? = (.ok least?', small) ∧
      (least'? = least?' ∧ large = small.withCount count ∧ small.found ≤ small.target ∨
        small.FilledBefore large) := by
  -- Along the loop that wants fewer plans: as long as it goes on, the other takes the same
  -- branches.
  fun_induction CutRegistry.constructFrom bound view registry least? with
  | case1 registry least? hall =>
    refine ⟨least?, registry, rfl, ?_⟩
    cases hopen : (registry.withCount count).foundAll with
    | true =>
      cases (constructFrom_of_foundAll hopen bound view least?).symm.trans h
      exact .inl ⟨rfl, rfl, hfound⟩
    | false =>
      have hfilled := filledBefore_withCount hfound hall hopen
      have hgrows := plans_constructFrom (registry.withCount count) bound view least?
      rw [h] at hgrows
      exact .inr (hfilled.trans hgrows)
  | case2 registry least? hopen hcuts =>
    have hidle : (registry.withCount count).cuts.head? = none := congrArg List.head? hcuts
    rw [constructFrom_of_idle fun _ cut hcut ↦ by rw [hidle] at hcut; cases hcut] at h
    cases h
    exact ⟨_, _, rfl, .inl ⟨rfl, rfl, hfound⟩⟩
  | case3 registry least? hopen cut rest hcuts hbound =>
    have hfirst : (registry.withCount count).cuts.head? = some cut := congrArg List.head? hcuts
    rw [constructFrom_of_idle fun _ c hc ↦ Option.some.inj (hfirst.symm.trans hc) ▸ hbound] at h
    cases h
    exact ⟨_, _, rfl, .inl ⟨rfl, rfl, hfound⟩⟩
  | case4 registry least? hopen cut rest hcuts hlt watermark hwatermark ih =>
    have hup := comesUp_of_not_le hopen hcuts hlt
    rw [(hup.withCount hle).constructFrom_eq, watermarkAbove?_withCount, hwatermark] at h
    exact ih hle hfound h
  | case5 registry least? hopen cut rest hcuts hlt hwatermark hadmits e store hrec =>
    have hup := comesUp_of_not_le hopen hcuts hlt
    rw [(hup.withCount hle).constructFrom_eq, watermarkAbove?_withCount, hwatermark] at h
    dsimp only at h
    rw [admitsCost_withCount, if_pos hadmits] at h
    split at h
    · cases h
    · next tally' store' hrec' =>
      obtain ⟨tally, _, hok, -⟩ := reconstruct_withCount hup.missing hle hrec'
      rw [hrec] at hok
      cases hok
  | case6 registry least? hopen cut rest hcuts hlt hwatermark hadmits tally store hrec ih =>
    have hup := comesUp_of_not_le hopen hcuts hlt
    rw [(hup.withCount hle).constructFrom_eq, watermarkAbove?_withCount, hwatermark] at h
    dsimp only at h
    rw [admitsCost_withCount, if_pos hadmits] at h
    split at h
    · cases h
    next tally' store' hrec' =>
    obtain ⟨_, _, hok, hsame⟩ := reconstruct_withCount hup.missing hle hrec'
    rw [hrec] at hok
    cases hok
    rcases hsame with ⟨rfl, rfl⟩ | ⟨hcount, hprefix⟩
    · have hext := extends_reconstruct view cut registry.missing registry.store
      rw [hrec] at hext
      exact ih (hext.selection ▸ hle) (found_le_reconstructed hup.missing hrec) h
    · -- The number is found with this cut, so the next one does not come up.
      have hfilled : (registry.reconstructed cut rest tally store).FilledBefore
          ((registry.withCount count).reconstructed cut rest tally' store') := ⟨hcount, hprefix⟩
      have hgrows :=
        plans_constructFrom ((registry.withCount count).reconstructed cut rest tally' store')
          bound view (some (leastOf least? cut.f))
      rw [h] at hgrows
      exact ⟨_, _, constructFrom_of_foundAll hfilled.foundAll bound view _,
        .inr (hfilled.trans hgrows)⟩
  | case7 registry least? hopen cut rest hcuts hlt hwatermark hadmits =>
    have hup := comesUp_of_not_le hopen hcuts hlt
    rw [(hup.withCount hle).constructFrom_eq, watermarkAbove?_withCount, hwatermark] at h
    dsimp only at h
    rw [admitsCost_withCount, if_neg hadmits, refused_withCount] at h
    cases h
    refine ⟨_, _, rfl, .inl ⟨rfl, rfl, ?_⟩⟩
    have hrefused := (found_refused registry cut).trans_le hfound
    rwa [← target_refused registry cut] at hrefused

/-- If a construction of the registry that wants more plans succeeds, so does that of the other.  In
the end they are alike, or the latter has found its number of plans. -/
theorem construct_withCount (hle : registry.store.selection.count ≤ count)
    (hfound : registry.found ≤ registry.target)
    (h : (registry.withCount count).construct bound view = (.ok (), large)) :
    ∃ small, registry.construct bound view = (.ok (), small) ∧
      (large = small.withCount count ∧ small.found ≤ small.target ∨
        small.FilledBefore large) := by
  rw [construct] at h
  split at h
  · cases h
  · next least'? last hloop =>
    cases h
    obtain ⟨least?, small, hsmall, hsame⟩ := constructFrom_withCount hle hfound hloop
    rw [construct, hsmall]
    refine ⟨_, rfl, ?_⟩
    rcases hsame with ⟨rfl, rfl, hfound'⟩ | hfilled
    · exact .inl ⟨rfl, hfound'⟩
    · exact .inr ⟨hfilled.filled, hfilled.plans⟩

end CutRegistry

end LayeredPlanning
