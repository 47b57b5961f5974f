import LayeredPlanning.Proofs.Plans.Calls
import LayeredPlanning.Proofs.Plans.Encoding

/-!
# Duplicates

Which plans a database takes for duplicates, over any history of calls.  As far as the hash function
keeps the encodings apart, these are the plans with the labels of an accepted one:
`duplicate_iff_of_calls`.  Where the labels say all there is to say of an action, they are the plans
with the actions of an accepted one; but two plans that differ in a cost only are taken for one:
`dear_is_duplicate`.
-/

namespace LayeredPlanning

namespace Plan

/-- What the fingerprint says of the actions. -/
def labels (plan : Plan) : List (UInt32 × String) := plan.actions.map Action.label

/-- What the fingerprint of a plan is the digest of. -/
def hashed (plan : Plan) : List UInt8 := ContentHash.planDomain ++ sequenceBytes plan.actions

/-- The encodings of the plans differ, and their digests do not. -/
def Collides (plan other : Plan) : Prop :=
  sequenceBytes plan.actions ≠ sequenceBytes other.actions ∧
    Sha256.hash plan.hashed = Sha256.hash other.hashed

instance instDecidableCollides (plan other : Plan) : Decidable (plan.Collides other) :=
  inferInstanceAs (Decidable (_ ∧ _))

/-- The actions of the plans have names whose lengths fit. -/
def Fits (plan : Plan) : Prop := ∀ a ∈ plan.actions, a.Fits

instance instDecidableFits (plan : Plan) : Decidable plan.Fits :=
  inferInstanceAs (Decidable (∀ a ∈ plan.actions, _))

variable {plan other : Plan}

theorem sequenceDigest_eq_iff (hfree : ¬ plan.Collides other) :
    sequenceDigest plan.actions = sequenceDigest other.actions ↔
      sequenceBytes plan.actions = sequenceBytes other.actions := by
  rw [sequenceDigest, sequenceDigest, ContentHash.ofBytes_eq_iff]
  constructor
  · intro hhash
    by_contra hne
    exact hfree ⟨hne, hhash⟩
  · exact fun hbytes ↦ congrArg (fun bytes ↦ Sha256.hash (_ ++ bytes)) hbytes

/-- Without a collision, plans have one digest if they have the same labels. -/
theorem sequenceDigest_eq_iff_labels (hfree : ¬ plan.Collides other) (hplan : plan.Fits)
    (hother : other.Fits) :
    sequenceDigest plan.actions = sequenceDigest other.actions ↔ plan.labels = other.labels :=
  (sequenceDigest_eq_iff hfree).trans (sequenceBytes_eq_iff hplan hother)

end Plan

namespace PlanDatabase

variable {db : PlanDatabase} {plan : Plan}

/-! ## Verdicts -/

theorem submit_eq_duplicate_iff :
    (db.submit plan).1 = .duplicate ↔ db.rejects plan = false ∧ db.Knows plan.actions := by
  rcases submit_cases db plan with ⟨heq, hrejects⟩ | ⟨heq, hrejects, hknown⟩ |
    ⟨heq, hrejects, hnew⟩
  · rw [heq, hrejects]
    exact ⟨nofun, fun h ↦ nomatch h.1⟩
  · rw [heq]
    exact iff_of_true rfl ⟨hrejects, hknown⟩
  · rw [heq]
    exact ⟨nofun, fun h ↦ absurd h.2 hnew⟩

theorem submit_eq_accepted_iff :
    (db.submit plan).1 = .accepted ↔ db.rejects plan = false ∧ ¬ db.Knows plan.actions := by
  rcases submit_cases db plan with ⟨heq, hrejects⟩ | ⟨heq, hrejects, hknown⟩ |
    ⟨heq, hrejects, hnew⟩
  · rw [heq, hrejects]
    exact ⟨nofun, fun h ↦ nomatch h.1⟩
  · rw [heq]
    exact ⟨nofun, fun h ↦ absurd hknown h.2⟩
  · rw [heq]
    exact iff_of_true rfl ⟨hrejects, hnew⟩

/-- What a coherent database knows are the sequences with the digest of a plan. -/
theorem Coherent.knows_iff (h : db.Coherent) {actions : List Action} :
    db.Knows actions ↔
      ∃ plan ∈ db.plans, Plan.sequenceDigest plan.actions = Plan.sequenceDigest actions := by
  rw [Knows, h.digests, List.mem_reverse, List.mem_map]

/-- The verdicts on a plan that passes the filters, for any relation that holds of two plans if they
have one digest. -/
theorem Coherent.verdicts (h : db.Coherent) {Same : Plan → Prop}
    (hsame : ∀ known ∈ db.plans,
      Plan.sequenceDigest known.actions = Plan.sequenceDigest plan.actions ↔ Same known) :
    ((db.submit plan).1 = .duplicate ↔
      db.rejects plan = false ∧ ∃ known ∈ db.plans, Same known) ∧
      ((db.submit plan).1 = .accepted ↔
        db.rejects plan = false ∧ ∀ known ∈ db.plans, ¬ Same known) := by
  have hknows : db.Knows plan.actions ↔ ∃ known ∈ db.plans, Same known :=
    h.knows_iff.trans (exists_congr fun known ↦ and_congr_right (hsame known))
  constructor
  · rw [submit_eq_duplicate_iff, hknows]
  · rw [submit_eq_accepted_iff, hknows, not_exists]
    exact and_congr_right fun _ ↦ forall_congr' fun known ↦ not_and

/-- Of the plans that pass the filters, a database takes for duplicates those with the labels of a
plan that it has accepted, and accepts the others, as long as the hash function does not take an
accepted plan for another and the lengths of the names fit.  If moreover actions with the same label
cost the same, then it takes for duplicates those with the actions of a plan that it has
accepted. -/
theorem duplicate_iff_of_calls {selection : Selection} {simpleOnly : Bool} {db : PlanDatabase}
    (h : ofSelection? selection simpleOnly = .ok db) (calls : List Call) (plan : Plan)
    (hfree : ∀ known ∈ db.accepted calls, ¬ known.Collides plan)
    (hfits : ∀ known ∈ plan :: db.accepted calls, known.Fits) :
    (((db.after calls).submit plan).1 = .duplicate ↔
      (db.after calls).rejects plan = false ∧
        ∃ known ∈ db.accepted calls, known.labels = plan.labels) ∧
    (((db.after calls).submit plan).1 = .accepted ↔
      (db.after calls).rejects plan = false ∧
        ∀ known ∈ db.accepted calls, ¬ known.labels = plan.labels) ∧
    ((∀ known ∈ db.accepted calls, ∀ a ∈ known.actions, ∀ b ∈ plan.actions,
        a.label = b.label → a.cost = b.cost) →
      (((db.after calls).submit plan).1 = .duplicate ↔
        (db.after calls).rejects plan = false ∧
          ∃ known ∈ db.accepted calls, known.actions = plan.actions) ∧
      (((db.after calls).submit plan).1 = .accepted ↔
        (db.after calls).rejects plan = false ∧
          ∀ known ∈ db.accepted calls, ¬ known.actions = plan.actions)) := by
  have hcoherent := (Coherent.of_ofSelection? h).after calls
  have hplans : (db.after calls).plans = db.accepted calls := by
    rw [plans_after, plans_of_ofSelection? h, List.nil_append]
  obtain ⟨hplan, hfits⟩ := List.forall_mem_cons.mp hfits
  rw [← hplans] at hfree hfits ⊢
  have hlabels := fun known hknown ↦
    Plan.sequenceDigest_eq_iff_labels (hfree known hknown) (hfits known hknown) hplan
  obtain ⟨hduplicate, haccepted⟩ := hcoherent.verdicts hlabels
  refine ⟨hduplicate, haccepted, fun hcosts ↦ ?_⟩
  exact hcoherent.verdicts fun known hknown ↦
    (hlabels known hknown).trans (Plan.map_label_eq_iff (hcosts known hknown))

/-- After two plans with different names, the first one is a duplicate. -/
theorem single_is_duplicate :
    ∃ db, ofSelection? (.topK 3) true = .ok db ∧
      db.accepted [.submit (single "go" 1), .submit (single "walk" 2)] =
        [single "go" 1, single "walk" 2] ∧
      ((db.after [.submit (single "go" 1), .submit (single "walk" 2)]).submit (single "go" 1)).1 =
        .duplicate := by
  have hdatabase : ofSelection? (.topK 3) true = .ok ⟨.topK 3, true, [], [], none, false⟩ := rfl
  have haccepted : accepted ⟨.topK 3, true, [], [], none, false⟩
      [.submit (single "go" 1), .submit (single "walk" 2)] =
        [single "go" 1, single "walk" 2] := by decide +kernel
  refine ⟨_, hdatabase, haccepted, ?_⟩
  refine ((duplicate_iff_of_calls hdatabase _ (single "go" 1) ?_ ?_).2.2 ?_).1.mpr ⟨?_, ?_⟩
  · rw [haccepted]
    decide +kernel
  · rw [haccepted]
    decide +kernel
  · rw [haccepted]
    decide +kernel
  · decide +kernel
  · rw [haccepted]
    exact ⟨_, List.mem_cons_self, rfl⟩

/-- After a plan of cost one, the same with a cost of two passes all filters and is a duplicate,
although no accepted plan has its actions, and although the hash function takes nothing for anything
else. -/
theorem dear_is_duplicate :
    ∃ db, ofSelection? (.topK 2) false = .ok db ∧
      db.accepted [.submit (single "go" 1)] = [single "go" 1] ∧
      (single "go" 1).actions ≠ (single "go" 2).actions ∧
      ¬ (single "go" 1).Collides (single "go" 2) ∧
      (db.after [.submit (single "go" 1)]).rejects (single "go" 2) = false ∧
      ((db.after [.submit (single "go" 1)]).submit (single "go" 2)).1 = .duplicate :=
  ⟨_, rfl, by decide +kernel, by decide +kernel, by decide +kernel, by decide +kernel,
    by decide +kernel⟩

end PlanDatabase

end LayeredPlanning
