import LayeredPlanning.Plans.PlanDatabase
import LayeredPlanning.Proofs.Paths.LevelSimple
import LayeredPlanning.Proofs.Reconstruction.Submissions

/-!
# What the plan database knows

The database recognises action sequences by their digests (`PlanDatabase.Knows`), and only learns
more (`PlanDatabase.Extends`).  `PlanDatabase.Lawful` is what holds of a database that has been
offered plans of paths in the order of their costs: it has plans of eligible paths only, in
ascending order, and knows all eligible paths that are cheaper than one of its plans.

* `Lawful.submit` and `Lawful.submitAll`: this is kept up.
* `knows_of_submitAll`: a database that still wants plans has taken, or knew, all that it was
  offered.
-/

namespace LayeredPlanning

/-- What identifies an action sequence in the database. -/
def Plan.sequenceDigest (actions : List Action) : String :=
  (ContentHash.ofBytes ContentHash.planDomain (sequenceBytes actions)).hexDigest

theorem Plan.hexDigest_fingerprint (plan : Plan) :
    plan.fingerprint.hexDigest = sequenceDigest plan.actions := rfl

/-- The plan is that of a level-simple path to a goal, and costs `f`. -/
def Plan.OfCost (task : Task) (f : Int) (plan : Plan) : Prop :=
  plan.cost = f ∧
    ∃ es, task.Eligible false es ∧ plan = pathPlan task.initial es ∧ pathCost es = f

namespace PlanDatabase

variable {task : Task} {db db' : PlanDatabase} {plan : Plan} {f : Int}

/-- The digest of an action sequence is recorded. -/
def Knows (db : PlanDatabase) (actions : List Action) : Prop :=
  Plan.sequenceDigest actions ∈ db.digests

/-- The database with one more plan. -/
def accept (db : PlanDatabase) (plan : Plan) : PlanDatabase :=
  { db with
    plans := db.plans ++ [plan]
    digests := plan.fingerprint.hexDigest :: db.digests
    optimalCost? := db.optimalCost?.or (some plan.cost) }

/-- What a submission does. -/
theorem submit_cases (db : PlanDatabase) (plan : Plan) :
    (db.submit plan = (.filtered, db) ∧ db.rejects plan = true) ∨
      (db.submit plan = (.duplicate, db) ∧ db.rejects plan = false ∧ db.Knows plan.actions) ∨
      (db.submit plan = (.accepted, db.accept plan) ∧ db.rejects plan = false ∧
        ¬ db.Knows plan.actions) := by
  rw [submit, Knows, ← Plan.hexDigest_fingerprint]
  cases hrejects : db.rejects plan with
  | true => exact .inl ⟨rfl, rfl⟩
  | false =>
    by_cases hknown : plan.fingerprint.hexDigest ∈ db.digests
    · refine .inr (.inl ⟨?_, rfl, hknown⟩)
      rw [if_neg Bool.false_ne_true]
      exact if_pos hknown
    · refine .inr (.inr ⟨?_, rfl, hknown⟩)
      rw [if_neg Bool.false_ne_true]
      exact if_neg hknown

theorem rejects_eq_false_iff :
    db.rejects plan = false ↔ db.foundEnough = false ∧ db.withinQuality plan.cost = true ∧
      (db.simpleOnly = true → plan.states.Nodup) := by
  rw [rejects, Plan.isSimple]
  cases db.foundEnough <;> cases db.withinQuality plan.cost <;> cases db.simpleOnly <;> simp

/-! ## Learning -/

/-- The database has learnt more under the same wishes. -/
structure Extends (db db' : PlanDatabase) : Prop where
  selection : db'.selection = db.selection
  simpleOnly : db'.simpleOnly = db.simpleOnly
  isClosed : db'.isClosed = db.isClosed
  plans : db.plans <+: db'.plans
  digests : db.digests ⊆ db'.digests

namespace Extends

theorem refl (db : PlanDatabase) : db.Extends db :=
  ⟨rfl, rfl, rfl, List.prefix_refl _, List.Subset.refl _⟩

theorem trans {db'' : PlanDatabase} (h : db.Extends db') (h' : db'.Extends db'') :
    db.Extends db'' where
  selection := h'.selection.trans h.selection
  simpleOnly := h'.simpleOnly.trans h.simpleOnly
  isClosed := h'.isClosed.trans h.isClosed
  plans := h.plans.trans h'.plans
  digests := fun _ hd ↦ h'.digests (h.digests hd)

theorem accept (db : PlanDatabase) (plan : Plan) : db.Extends (db.accept plan) :=
  ⟨rfl, rfl, rfl, List.prefix_append _ _, fun _ hd ↦ List.mem_cons_of_mem _ hd⟩

theorem submit (db : PlanDatabase) (plan : Plan) : db.Extends (db.submit plan).2 := by
  rcases submit_cases db plan with ⟨h, _⟩ | ⟨h, _⟩ | ⟨h, _⟩
  · rw [h]
    exact refl db
  · rw [h]
    exact refl db
  · rw [h]
    exact accept db plan

theorem knows {actions : List Action} (h : db.Extends db') (hknown : db.Knows actions) :
    db'.Knows actions :=
  h.digests hknown

/-- What has found enough goes on to have found enough. -/
theorem foundEnough (h : db.Extends db') (hopen : db'.foundEnough = false) :
    db.foundEnough = false := by
  rw [PlanDatabase.foundEnough, Bool.or_eq_false_iff, decide_eq_false_iff_not] at hopen ⊢
  obtain ⟨hclosed, hcount⟩ := hopen
  have hlen := h.plans.length_le
  rw [h.selection] at hcount
  exact ⟨h.isClosed ▸ hclosed, by omega⟩

end Extends

/-! ## Quality -/

theorem count_pos_of_fault? {selection : Selection} (h : selection.fault? = none) :
    0 < selection.count := by
  apply Nat.pos_of_ne_zero
  intro hzero
  cases selection with
  | topK count =>
    rw [Selection.fault?, if_pos (show count = 0 from hzero)] at h
    cases h
  | topQ count percent =>
    rw [Selection.fault?, if_pos (show count = 0 from hzero)] at h
    cases h

theorem hundred_le_of_fault? {count : Nat} {percent : UInt32}
    (h : (Selection.topQ count percent).fault? = none) : 100 ≤ percent.toNat := by
  rw [Selection.fault?] at h
  split at h
  · cases h
  · split at h
    · cases h
    · omega

/-- A plan that is taken is good enough by itself: no plan costs less than the first one. -/
theorem withinQuality_accept (hvalid : db.selection.fault? = none) (hcost : 0 ≤ plan.cost)
    (h : db.withinQuality plan.cost = true) :
    (db.accept plan).withinQuality plan.cost = true := by
  show db.selection.admits (db.optimalCost?.or (some plan.cost)) plan.cost = true
  rw [withinQuality] at h
  cases hsel : db.selection with
  | topK count => rfl
  | topQ count percent =>
    rw [hsel] at h hvalid
    cases hbest : db.optimalCost? with
    | some best =>
      rw [hbest] at h
      exact h
    | none =>
      have hpercent := hundred_le_of_fault? hvalid
      apply decide_eq_true
      exact Int.mul_le_mul_of_nonneg_left (by omega) hcost

/-- The plans stay good enough when one more is taken. -/
theorem quality_accept (hvalid : db.selection.fault? = none)
    (hbest : db.optimalCost? = db.plans.head?.map (·.cost))
    (hquality : ∀ p ∈ db.plans, db.withinQuality p.cost = true) (hcost : 0 ≤ plan.cost)
    (h : db.withinQuality plan.cost = true) :
    ∀ p ∈ (db.accept plan).plans, (db.accept plan).withinQuality p.cost = true := by
  intro p hp
  rcases List.mem_append.mp hp with hp | hp
  · rw [← hquality p hp]
    show db.selection.admits (db.optimalCost?.or _) p.cost = _
    rw [hbest, withinQuality, hbest]
    cases hplans : db.plans with
    | nil =>
      rw [hplans] at hp
      exact absurd hp List.not_mem_nil
    | cons => rfl
  · obtain rfl := List.mem_singleton.mp hp
    exact withinQuality_accept hvalid hcost h

/-- The best cost stays that of the first plan when one more is taken. -/
theorem optimalCost?_accept (hbest : db.optimalCost? = db.plans.head?.map (·.cost)) (plan : Plan) :
    (db.accept plan).optimalCost? = (db.accept plan).plans.head?.map (·.cost) := by
  show db.optimalCost?.or _ = (db.plans ++ [_]).head?.map _
  rw [hbest]
  cases db.plans <;> rfl

/-- The digests stay those of the plans, last one first, when one more is taken. -/
theorem digests_accept
    (h : db.digests = (db.plans.map fun plan ↦ Plan.sequenceDigest plan.actions).reverse)
    (plan : Plan) : (db.accept plan).digests =
      ((db.accept plan).plans.map fun plan ↦ Plan.sequenceDigest plan.actions).reverse := by
  show _ :: db.digests = ((db.plans ++ [_]).map _).reverse
  rw [List.map_append, List.reverse_append, h]
  rfl

/-- Taking a plan does not make its cost too bad. -/
theorem withinQuality_submit (hvalid : db.selection.fault? = none) (hcost : 0 ≤ plan.cost)
    (h : db.withinQuality plan.cost = true) :
    (db.submit plan).2.withinQuality plan.cost = true := by
  rcases submit_cases db plan with ⟨heq, _⟩ | ⟨heq, _⟩ | ⟨heq, _⟩
  · rwa [heq]
  · rwa [heq]
  · rw [heq]
    exact withinQuality_accept hvalid hcost h

/-- At first a database knows its wishes, which have no fault, and nothing else. -/
theorem ofSelection?_eq_ok_iff {selection : Selection} {simpleOnly : Bool} :
    ofSelection? selection simpleOnly = .ok db ↔
      selection.fault? = none ∧ db = ⟨selection, simpleOnly, [], [], none, false⟩ := by
  rw [ofSelection?]
  cases selection.fault? with
  | some fault => exact iff_of_false nofun fun h ↦ nomatch h.1
  | none =>
    exact ⟨fun h ↦ ⟨rfl, (Except.ok.inj h).symm⟩, fun h ↦ congrArg Except.ok h.2.symm⟩

theorem plans_of_ofSelection? {selection : Selection} {simpleOnly : Bool}
    (h : ofSelection? selection simpleOnly = .ok db) : db.plans = [] := by
  rw [(ofSelection?_eq_ok_iff.mp h).2]

theorem simpleOnly_of_ofSelection? {selection : Selection} {simpleOnly : Bool}
    (h : ofSelection? selection simpleOnly = .ok db) : db.simpleOnly = simpleOnly := by
  rw [(ofSelection?_eq_ok_iff.mp h).2]

/-! ## Lawful databases -/

/-- The plans are those of eligible paths, cheapest first and each action sequence once, whatever is
cheaper than one of them is known, no path is cheaper than the first, and all of them are good
enough. -/
structure Lawful (task : Task) (db : PlanDatabase) : Prop where
  valid : db.selection.fault? = none
  plan_of : ∀ plan ∈ db.plans, ∃ es, task.Eligible db.simpleOnly es ∧
    plan = pathPlan task.initial es ∧ plan.cost = pathCost es
  digests : db.digests = (db.plans.map fun plan ↦ Plan.sequenceDigest plan.actions).reverse
  nodup : db.digests.Nodup
  ascending : db.plans.Pairwise fun p q ↦ p.cost ≤ q.cost
  knows_of_lt : ∀ plan ∈ db.plans, ∀ es, task.Eligible db.simpleOnly es →
    pathCost es < plan.cost → db.Knows (es.map Step.action)
  plans_of_isClosed : db.isClosed = true → db.plans ≠ []
  isClosed_topK : ∀ count, db.selection = .topK count → db.isClosed = false
  optimalCost? : db.optimalCost? = db.plans.head?.map (·.cost)
  optimal : ∀ best, db.optimalCost? = some best → ∀ es, task.Eligible db.simpleOnly es →
    best ≤ pathCost es
  quality : ∀ plan ∈ db.plans, db.withinQuality plan.cost = true

/-- Every eligible path that costs less than `f` is known. -/
def KnowsBelow (task : Task) (db : PlanDatabase) (f : Int) : Prop :=
  ∀ es, task.Eligible db.simpleOnly es → pathCost es < f → db.Knows (es.map Step.action)

theorem KnowsBelow.extends (h : db.KnowsBelow task f) (hext : db.Extends db') :
    db'.KnowsBelow task f := by
  intro es hes hlt
  rw [hext.simpleOnly] at hes
  exact hext.knows (h es hes hlt)

namespace Lawful

/-- The database before its first plan is lawful. -/
theorem of_ofSelection? {selection : Selection} {simpleOnly : Bool}
    (h : ofSelection? selection simpleOnly = .ok db) : db.Lawful task := by
  obtain ⟨hvalid, rfl⟩ := ofSelection?_eq_ok_iff.mp h
  constructor
  · exact hvalid
  · exact fun plan hplan ↦ absurd hplan List.not_mem_nil
  · rfl
  · exact List.nodup_nil
  · exact List.Pairwise.nil
  · exact fun plan hplan ↦ absurd hplan List.not_mem_nil
  · exact fun hclosed ↦ absurd hclosed Bool.false_ne_true
  · exact fun _ _ ↦ rfl
  · rfl
  · exact fun _ hbest ↦ nomatch hbest
  · exact fun plan hplan ↦ absurd hplan List.not_mem_nil

/-- A plan of a known sequence is recorded. -/
theorem exists_plan_of_knows (h : db.Lawful task) {actions : List Action}
    (hknown : db.Knows actions) :
    ∃ plan ∈ db.plans, Plan.sequenceDigest plan.actions = Plan.sequenceDigest actions := by
  rw [Knows, h.digests, List.mem_reverse, List.mem_map] at hknown
  exact hknown

/-- A plan that is accepted goes to the end: what is cheaper than a plan is known, so the new plan
is not cheaper than any. -/
theorem accept (h : db.Lawful task) (hplan : plan.OfCost task f)
    (hbelow : db.KnowsBelow task f) (hquality : db.withinQuality plan.cost = true)
    (hsimple : db.simpleOnly = true → plan.states.Nodup) (hnew : ¬ db.Knows plan.actions) :
    (db.accept plan).Lawful task := by
  obtain ⟨rfl, es, hes, rfl, hcost⟩ := hplan
  have heligible : task.Eligible db.simpleOnly es := ⟨hes.goal, hes.levelSimple, hsimple⟩
  have hext := Extends.accept db (pathPlan task.initial es)
  constructor
  · exact h.valid
  · intro plan hplan
    rcases List.mem_append.mp hplan with hplan | hplan
    · exact h.plan_of plan hplan
    · obtain rfl := List.mem_singleton.mp hplan
      exact ⟨es, heligible, rfl, hcost.symm⟩
  · exact digests_accept h.digests _
  · exact List.nodup_cons.mpr ⟨hnew, h.nodup⟩
  · refine List.pairwise_append.mpr ⟨h.ascending, List.pairwise_singleton _ _, ?_⟩
    intro plan hplan last hlast
    obtain rfl := List.mem_singleton.mp hlast
    by_contra hlt
    exact hnew (h.knows_of_lt plan hplan es heligible (by omega))
  · intro plan hplan fs hfs hlt
    rcases List.mem_append.mp hplan with hplan | hplan
    · exact hext.knows (h.knows_of_lt plan hplan fs hfs hlt)
    · obtain rfl := List.mem_singleton.mp hplan
      exact hext.knows (hbelow fs hfs hlt)
  · intro _
    exact List.append_ne_nil_of_right_ne_nil _ (List.cons_ne_nil _ _)
  · exact h.isClosed_topK
  · exact optimalCost?_accept h.optimalCost? _
  · intro best hbest fs hfs
    change db.optimalCost?.or _ = some best at hbest
    cases hold : db.optimalCost? with
    | some old =>
      rw [hold] at hbest
      cases hbest
      exact h.optimal best hold fs hfs
    | none =>
      -- The first plan: a cheaper path would be known, but nothing is.
      rw [hold] at hbest
      cases hbest
      by_contra hlt
      have hknown := hbelow fs hfs (by omega)
      rw [h.optimalCost?, Option.map_eq_none_iff, List.head?_eq_none_iff] at hold
      rw [Knows, h.digests, hold] at hknown
      exact absurd hknown List.not_mem_nil
  · exact quality_accept h.valid h.optimalCost? h.quality (Plan.cost_nonneg _) hquality

/-- A submission keeps the database lawful, if whatever is cheaper is known. -/
theorem submit (h : db.Lawful task) (hplan : plan.OfCost task f)
    (hbelow : db.KnowsBelow task f) : (db.submit plan).2.Lawful task := by
  rcases submit_cases db plan with ⟨heq, _⟩ | ⟨heq, _⟩ | ⟨heq, hrejects, hnew⟩
  · rwa [heq]
  · rwa [heq]
  · rw [heq]
    obtain ⟨-, hquality, hsimple⟩ := rejects_eq_false_iff.mp hrejects
    exact h.accept hplan hbelow hquality hsimple hnew

theorem withinQuality_eq_false (h : db.Lawful task) (hquality : db.withinQuality f = false) :
    db.plans ≠ [] ∧ ∃ count percent, db.selection = .topQ count percent := by
  rw [withinQuality] at hquality
  cases hsel : db.selection with
  | topK count =>
    rw [hsel] at hquality
    cases hquality
  | topQ count percent =>
    refine ⟨?_, count, percent, rfl⟩
    intro hnil
    rw [hsel, h.optimalCost?, hnil] at hquality
    cases hquality

/-- Closing the database keeps it lawful: it refuses a cost only when it has plans. -/
theorem closeAtCost (h : db.Lawful task) (f : Int) : (db.closeAtCost f).Lawful task := by
  cases hquality : db.withinQuality f with
  | true =>
    rw [PlanDatabase.closeAtCost, if_pos hquality]
    exact h
  | false =>
    obtain ⟨hplans, count, percent, hsel⟩ := h.withinQuality_eq_false hquality
    rw [PlanDatabase.closeAtCost, if_neg (by rw [hquality]; exact Bool.false_ne_true)]
    exact ⟨h.valid, h.plan_of, h.digests, h.nodup, h.ascending, h.knows_of_lt, fun _ ↦ hplans,
      fun count' hsel' ↦ absurd (hsel.symm.trans hsel') Selection.noConfusion, h.optimalCost?,
      h.optimal, h.quality⟩

end Lawful

/-- A database that refuses a cost and is told so has found enough. -/
theorem foundEnough_closeAtCost (hquality : db.withinQuality f = false) :
    (db.closeAtCost f).foundEnough = true := by
  rw [closeAtCost, if_neg (by rw [hquality]; exact Bool.false_ne_true), foundEnough,
    Bool.true_or]

theorem plans_closeAtCost (db : PlanDatabase) (f : Int) : (db.closeAtCost f).plans = db.plans := by
  rw [closeAtCost]
  split <;> rfl

theorem selection_closeAtCost (db : PlanDatabase) (f : Int) :
    (db.closeAtCost f).selection = db.selection := by
  rw [closeAtCost]
  split <;> rfl

theorem withinQuality_closeAtCost (db : PlanDatabase) (f cost : Int) :
    (db.closeAtCost f).withinQuality cost = db.withinQuality cost := by
  rw [closeAtCost]
  split <;> rfl

theorem simpleOnly_closeAtCost (db : PlanDatabase) (f : Int) :
    (db.closeAtCost f).simpleOnly = db.simpleOnly := by
  rw [closeAtCost]
  split <;> rfl

/-- Closing the database does not make it forget. -/
theorem KnowsBelow.closeAtCost (h : db.KnowsBelow task f) (cost : Int) :
    (db.closeAtCost cost).KnowsBelow task f := by
  rw [PlanDatabase.closeAtCost]
  split <;> exact h

/-! ## Submitting many plans -/

/-- The states of plans. -/
def statesOn (plans : List Plan) : StateSet := .unions (plans.map fun plan ↦ .ofList plan.states)

@[simp] theorem mem_statesOn {plans : List Plan} {s : State} :
    s ∈ statesOn plans ↔ ∃ plan ∈ plans, s ∈ plan.states := by
  simp [statesOn]

theorem statesOn_cons (plan : Plan) (plans : List Plan) :
    statesOn (plan :: plans) = .ofList plan.states ∪ statesOn plans :=
  StateSet.ext fun s ↦ by simp

theorem statesOn_append (plans more : List Plan) :
    statesOn (plans ++ more) = statesOn plans ∪ statesOn more :=
  StateSet.ext fun s ↦ by simp [or_and_right, exists_or]

section SubmitAll

variable {plans : List Plan} {tally tally' : Tally}

theorem submitAll_cons (tally : Tally) (db : PlanDatabase) (plan : Plan) (plans : List Plan) :
    Walk.submitAll tally db (plan :: plans) =
      Walk.submitAll (tally.record (db.submit plan).1 plan) (db.submit plan).2 plans := rfl

theorem extends_submitAll (h : Walk.submitAll tally db plans = (tally', db')) : db.Extends db' := by
  induction plans generalizing tally db with
  | nil =>
    cases h
    exact Extends.refl _
  | cons plan plans ih =>
    rw [submitAll_cons] at h
    exact (Extends.submit db plan).trans (ih h)

theorem extends_deliver (cut : Cut) (budget : Nat) (tally : Tally) (db : PlanDatabase)
    (items : List (Except ReconstructionError Plan)) :
    db.Extends (Walk.deliver cut budget tally db items).2 := by
  rw [Walk.deliver_snd]
  exact extends_submitAll rfl

/-- The plans that are new in the database are at its end; the tally counts them and has their
states. -/
theorem exists_fresh_of_submitAll (h : Walk.submitAll tally db plans = (tally', db')) :
    ∃ fresh, db'.plans = db.plans ++ fresh ∧ tally'.accepted = tally.accepted + fresh.length ∧
      tally'.goalPathStates = tally.goalPathStates ∪ statesOn fresh := by
  induction plans generalizing tally db with
  | nil =>
    cases h
    exact ⟨[], (List.append_nil _).symm, rfl, StateSet.ext fun s ↦ by simp [statesOn]⟩
  | cons plan plans ih =>
    rw [submitAll_cons] at h
    obtain ⟨fresh, hplans, haccepted, hstates⟩ := ih h
    rcases submit_cases db plan with ⟨heq, _⟩ | ⟨heq, _⟩ | ⟨heq, _⟩
    · rw [heq] at hplans haccepted hstates
      exact ⟨fresh, hplans, haccepted, hstates⟩
    · rw [heq] at hplans haccepted hstates
      exact ⟨fresh, hplans, haccepted, hstates⟩
    · rw [heq] at hplans haccepted hstates
      refine ⟨plan :: fresh, ?_, ?_, ?_⟩
      · rw [hplans, PlanDatabase.accept, List.append_assoc, List.singleton_append]
      · rw [haccepted, List.length_cons, Nat.add_comm fresh.length, ← Nat.add_assoc]
        rfl
      · rw [hstates, Tally.record, statesOn_cons]
        exact StateSet.ext fun s ↦ by simp [or_assoc]

/-- The tally counts the plans that are new in the database. -/
theorem accepted_submitAll (h : Walk.submitAll tally db plans = (tally', db')) :
    tally'.accepted + db.plans.length = tally.accepted + db'.plans.length := by
  obtain ⟨fresh, hplans, haccepted, -⟩ := exists_fresh_of_submitAll h
  rw [hplans, haccepted, List.length_append]
  omega

/-- New plans in the database have been submitted, and are simple if that is asked for. -/
theorem mem_of_submitAll (h : Walk.submitAll tally db plans = (tally', db')) {plan : Plan}
    (hplan : plan ∈ db'.plans) :
    plan ∈ db.plans ∨ plan ∈ plans ∧ (db.simpleOnly = true → plan.states.Nodup) := by
  induction plans generalizing tally db with
  | nil =>
    cases h
    exact .inl hplan
  | cons first plans ih =>
    rw [submitAll_cons] at h
    rcases ih h with hold | ⟨hnew, hsimple⟩
    · rcases submit_cases db first with ⟨heq, _⟩ | ⟨heq, _⟩ | ⟨heq, hrejects, _⟩
      · rw [heq] at hold
        exact .inl hold
      · rw [heq] at hold
        exact .inl hold
      · rw [heq] at hold
        rcases List.mem_append.mp hold with hold | hold
        · exact .inl hold
        · obtain rfl := List.mem_singleton.mp hold
          exact .inr ⟨List.mem_cons_self, (rejects_eq_false_iff.mp hrejects).2.2⟩
    · rw [(Extends.submit db first).simpleOnly] at hsimple
      exact .inr ⟨List.mem_cons_of_mem _ hnew, hsimple⟩

/-- Submitting plans of one cost keeps the database lawful, if whatever is cheaper is known. -/
theorem Lawful.submitAll (hlawful : db.Lawful task) (hbelow : db.KnowsBelow task f)
    (hplans : ∀ plan ∈ plans, plan.OfCost task f)
    (h : Walk.submitAll tally db plans = (tally', db')) : db'.Lawful task := by
  induction plans generalizing tally db with
  | nil =>
    cases h
    exact hlawful
  | cons plan plans ih =>
    rw [submitAll_cons] at h
    obtain ⟨hplan, hplans⟩ := List.forall_mem_cons.mp hplans
    exact ih (hlawful.submit hplan hbelow) (hbelow.extends (Extends.submit db plan)) hplans h

/-- A database that wants more plans in the end knows all that it was offered, except for those that
are not simple enough. -/
theorem knows_of_submitAll (hvalid : db.selection.fault? = none) (hf : 0 ≤ f)
    (hquality : db.withinQuality f = true) (hplans : ∀ plan ∈ plans, plan.cost = f)
    (h : Walk.submitAll tally db plans = (tally', db')) (hopen : db'.foundEnough = false)
    {plan : Plan} (hplan : plan ∈ plans) (hsimple : db.simpleOnly = true → plan.states.Nodup) :
    db'.Knows plan.actions := by
  induction plans generalizing tally db with
  | nil => exact absurd hplan List.not_mem_nil
  | cons first plans ih =>
    rw [submitAll_cons] at h
    obtain ⟨hfirst, hplans⟩ := List.forall_mem_cons.mp hplans
    have hext := Extends.submit db first
    have hrest : (db.submit first).2.Extends db' := extends_submitAll h
    rcases List.mem_cons.mp hplan with rfl | hplan
    · apply hrest.knows
      have hrejects : db.rejects plan = false :=
        rejects_eq_false_iff.mpr ⟨(hext.trans hrest).foundEnough hopen,
          hfirst ▸ hquality, hsimple⟩
      rcases submit_cases db plan with ⟨_, hrejects'⟩ | ⟨heq, _, hknown⟩ | ⟨heq, _⟩
      · rw [hrejects] at hrejects'
        cases hrejects'
      · rw [heq]
        exact hknown
      · rw [heq]
        exact List.mem_cons_self
    · have hquality' := withinQuality_submit hvalid (by omega) (hfirst ▸ hquality)
      rw [hfirst] at hquality'
      exact ih (hext.selection ▸ hvalid) hquality' hplans h hplan (hext.simpleOnly ▸ hsimple)

end SubmitAll

end PlanDatabase

end LayeredPlanning
