import LayeredPlanning.Proofs.Plans.Database

/-!
# Action sequences by their labels

Fingerprints are made of labels: the identifiers and names of the actions.  So two plans with the
same labels are one to the database.  The converse, and that labels determine actions at all, has to
be assumed of a task (`Task.Distinguishes`, `Task.LabelsDetermineCosts`); then what the database
knows of is one of its plans, up to the states that are visited: `PlanDatabase.Lawful.mem_of_knows`.
-/

namespace LayeredPlanning

/-- What a fingerprint says of an action. -/
def Action.label (a : Action) : UInt32 × String := (a.id, a.name)

theorem Plan.actionBytes_of_label {a b : Action} (h : a.label = b.label) :
    actionBytes a = actionBytes b := by
  obtain ⟨hid, hname⟩ := Prod.mk.inj h
  rw [actionBytes, actionBytes, hid, hname]

/-- Sequences with the same labels have the same encoding. -/
theorem Plan.sequenceBytes_of_labels {as bs : List Action}
    (h : as.map Action.label = bs.map Action.label) : sequenceBytes as = sequenceBytes bs := by
  induction as generalizing bs with
  | nil => rw [List.map_eq_nil_iff.mp h.symm]
  | cons a as ih =>
    obtain ⟨b, bs, rfl, hlabel, hlabels⟩ := List.map_eq_cons_iff.mp h.symm
    rw [sequenceBytes, List.flatMap_cons, actionBytes_of_label hlabel.symm]
    exact congrArg _ (ih hlabels.symm)

theorem Plan.sequenceDigest_of_labels {as bs : List Action}
    (h : as.map Action.label = bs.map Action.label) : sequenceDigest as = sequenceDigest bs := by
  rw [sequenceDigest, sequenceDigest, sequenceBytes_of_labels h]

/-- Where labels determine costs, sequences with the same labels are the same. -/
theorem Plan.map_label_eq_iff {as bs : List Action}
    (hcosts : ∀ a ∈ as, ∀ b ∈ bs, a.label = b.label → a.cost = b.cost) :
    as.map Action.label = bs.map Action.label ↔ as = bs := by
  refine ⟨fun h ↦ ?_, fun h ↦ congrArg (List.map Action.label) h⟩
  induction as generalizing bs with
  | nil => rw [List.map_eq_nil_iff.mp h.symm]
  | cons a as ih =>
    obtain ⟨b, bs, rfl, hlabel, hlabels⟩ := List.map_eq_cons_iff.mp h.symm
    have hcost := hcosts a List.mem_cons_self b List.mem_cons_self hlabel.symm
    have hrest : as = bs :=
      ih (fun a ha b hb ↦ hcosts a (List.mem_cons_of_mem _ ha) b (List.mem_cons_of_mem _ hb))
        hlabels.symm
    obtain ⟨hid, hname⟩ := Prod.mk.inj hlabel
    rw [Action.ext hid.symm hname.symm hcost, hrest]

namespace Task

/-- No two relations share identifier and name but not the cost. -/
def LabelsDetermineCosts (task : Task) : Prop :=
  ∀ r ∈ task.transitions.relations, ∀ q ∈ task.transitions.relations,
    r.action.label = q.action.label → r.action.cost = q.action.cost

/-- Fingerprints tell apart the label sequences of the eligible paths that cost less than
`bound`. -/
def Distinguishes (task : Task) (simpleOnly : Bool) (bound : Int) : Prop :=
  ∀ es fs, task.Eligible simpleOnly es → task.Eligible simpleOnly fs →
    pathCost es < bound → pathCost fs < bound →
    (pathPlan task.initial es).fingerprint = (pathPlan task.initial fs).fingerprint →
    (es.map Step.action).map Action.label = (fs.map Step.action).map Action.label

variable {task : Task} {simpleOnly : Bool} {bound : Int}

theorem actions_eq_of_labels (hcosts : task.LabelsDetermineCosts)
    {es fs : List (Step task.transitions)}
    (h : (es.map Step.action).map Action.label = (fs.map Step.action).map Action.label) :
    es.map Step.action = fs.map Step.action := by
  refine (Plan.map_label_eq_iff fun a ha b hb hlabel ↦ ?_).mp h
  obtain ⟨e, -, rfl⟩ := List.mem_map.mp ha
  obtain ⟨f, -, rfl⟩ := List.mem_map.mp hb
  exact hcosts _ e.transition_mem _ f.transition_mem hlabel

/-- Paths with the same actions cost the same. -/
theorem pathCost_eq_of_actions {table : TransitionTable} {es fs : List (Step table)}
    (h : es.map Step.action = fs.map Step.action) : pathCost es = pathCost fs := by
  rw [pathCost_eq_sum, pathCost_eq_sum, h]

end Task

/-- What the database knows is one of its plans. -/
theorem PlanDatabase.Lawful.mem_of_knows {task : Task} {db : PlanDatabase} {bound : Int}
    (h : db.Lawful task) (hcosts : task.LabelsDetermineCosts)
    (hdistinct : task.Distinguishes db.simpleOnly bound)
    (hbound : ∀ plan ∈ db.plans, plan.cost < bound) {es : List (Step task.transitions)}
    (hes : task.Eligible db.simpleOnly es) (hlt : pathCost es < bound)
    (hknown : db.Knows (es.map Step.action)) :
    es.map Step.action ∈ db.plans.map fun plan ↦ plan.actions := by
  obtain ⟨plan, hplan, hdigest⟩ := h.exists_plan_of_knows hknown
  obtain ⟨fs, hfs, rfl, hcost⟩ := h.plan_of plan hplan
  have hlabels := hdistinct es fs hes hfs hlt (hcost ▸ hbound _ hplan)
    (ContentHash.ext rfl hdigest.symm)
  rw [Task.actions_eq_of_labels hcosts hlabels]
  exact List.mem_map.mpr ⟨_, hplan, rfl⟩

/-- No two plans have the same labels. -/
theorem PlanDatabase.Lawful.nodup_labels {task : Task} {db : PlanDatabase} (h : db.Lawful task) :
    (db.plans.map fun plan ↦ plan.actions.map Action.label).Nodup := by
  have hdigests := h.nodup
  rw [h.digests, List.nodup_reverse, List.Nodup, List.pairwise_map] at hdigests
  rw [List.Nodup, List.pairwise_map]
  apply hdigests.imp
  intro p q hne heq
  exact hne (Plan.sequenceDigest_of_labels heq)

theorem cycle.labelsDetermineCosts : cycle.toTask.LabelsDetermineCosts := by
  unfold Task.LabelsDetermineCosts
  decide +kernel

theorem cycle.distinguishes (simpleOnly : Bool) (bound : Int) :
    cycle.toTask.Distinguishes simpleOnly bound := by
  intro es fs hes hfs _ _ _
  rw [eq_of_eligible hes, eq_of_eligible hfs]

end LayeredPlanning
