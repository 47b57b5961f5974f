import LayeredPlanning.Proofs.Plans.Database

/-!
# Databases after many calls

A database is offered plans and told of costs, in any order and whatever the plans are: none of them
has to be the plan of a path.  What is kept up all the same is `PlanDatabase.Coherent`: the number
of plans, their digests, the best cost, and that every plan passes the filters.

* `after` is the database after a list of calls, and `accepted` the plans that it accepts on the
  way, which are those that it has more in the end (`plans_after`).
* `coherent_after`: what holds of a database after any calls, and what a further call does to it.
-/

namespace LayeredPlanning

/-! ## The quality test on words -/

namespace Selection

/-- The quality test on signed words of 128 bits. -/
def admitsInWords (percent : UInt32) (best cost : Int) : Bool :=
  (BitVec.ofInt 128 cost * BitVec.ofInt 128 100).sle
    (BitVec.ofInt 128 best * BitVec.ofInt 128 percent.toNat)

/-- An integer between the ends of the range is read back from its word. -/
theorem toInt_ofInt_of_bounds {n : Int} (hlow : -2 ^ 127 ≤ n) (hhigh : n < 2 ^ 127) :
    (BitVec.ofInt 128 n).toInt = n := by
  rw [BitVec.toInt_ofInt]
  apply Int.bmod_eq_of_le <;> omega

/-- A representable cost times a number of 32 bits is far from the ends of 128 bits. -/
theorem mul_bounds {cost : Int} (hcost : Cost.InRange cost) (n : UInt32) :
    -2 ^ 127 ≤ cost * n.toNat ∧ cost * n.toNat < 2 ^ 127 := by
  obtain ⟨hlow, hhigh⟩ := hcost
  have hn : (n.toNat : Int) < 2 ^ 32 := by
    have := n.toNat_lt
    omega
  have hnonneg : (0 : Int) ≤ n.toNat := Int.natCast_nonneg _
  have hleast := Int.mul_le_mul_of_nonneg_right hlow hnonneg
  have hgreatest := Int.mul_le_mul_of_nonneg_right hhigh hnonneg
  unfold Cost.min at hleast
  unfold Cost.max at hgreatest
  constructor <;> omega

/-- No product of the quality test leaves the range of the words: the words decide as the integers
do. -/
theorem admitsInWords_eq {best cost : Int} (hbest : Cost.InRange best) (hcost : Cost.InRange cost)
    (count : Nat) (percent : UInt32) :
    admitsInWords percent best cost = (topQ count percent).admits (some best) cost := by
  have hleft : -2 ^ 127 ≤ cost * 100 ∧ cost * 100 < 2 ^ 127 := mul_bounds hcost 100
  have hright := mul_bounds hbest percent
  rw [admitsInWords, ← BitVec.ofInt_mul, ← BitVec.ofInt_mul, admits, Bool.eq_iff_iff,
    BitVec.sle_iff_toInt_le, decide_eq_true_iff, toInt_ofInt_of_bounds hleft.1 hleft.2,
    toInt_ofInt_of_bounds hright.1 hright.2]

end Selection

namespace PlanDatabase

variable {db : PlanDatabase} {plan : Plan}

/-! ## Calls -/

/-- A call that may change a database. -/
inductive Call where
  /-- A plan is offered. -/
  | submit (plan : Plan)
  /-- A cost has been reached. -/
  | closeAtCost (cost : Int)
deriving DecidableEq

/-- The database after a call. -/
def apply (db : PlanDatabase) : Call → PlanDatabase
  | .submit plan => (db.submit plan).2
  | .closeAtCost cost => db.closeAtCost cost

/-- The database after calls, in their order. -/
def after (db : PlanDatabase) (calls : List Call) : PlanDatabase := calls.foldl apply db

/-- The plans that a database accepts over calls, in their order. -/
def accepted (db : PlanDatabase) : List Call → List Plan
  | [] => []
  | .submit plan :: calls =>
    if (db.submit plan).1 = .accepted then plan :: (db.submit plan).2.accepted calls
    else (db.submit plan).2.accepted calls
  | .closeAtCost cost :: calls => (db.closeAtCost cost).accepted calls

theorem after_cons (db : PlanDatabase) (call : Call) (calls : List Call) :
    db.after (call :: calls) = (db.apply call).after calls := rfl

/-- A verdict other than acceptance leaves the database as it is. -/
theorem submit_eq_self (h : (db.submit plan).1 ≠ .accepted) : (db.submit plan).2 = db := by
  rcases submit_cases db plan with ⟨heq, _⟩ | ⟨heq, _⟩ | ⟨heq, _⟩
  · rw [heq]
  · rw [heq]
  · rw [heq] at h
    exact absurd rfl h

theorem submit_eq_accept (h : (db.submit plan).1 = .accepted) :
    (db.submit plan).2 = db.accept plan := by
  rcases submit_cases db plan with ⟨heq, _⟩ | ⟨heq, _⟩ | ⟨heq, _⟩
  · rw [heq] at h
    cases h
  · rw [heq] at h
    cases h
  · rw [heq]

/-- The accepted plans go to the end of the database, in their order. -/
theorem plans_after (db : PlanDatabase) (calls : List Call) :
    (db.after calls).plans = db.plans ++ db.accepted calls := by
  induction calls generalizing db with
  | nil => exact (List.append_nil _).symm
  | cons call calls ih =>
    rw [after_cons, ih]
    cases call with
    | submit plan =>
      rw [apply, accepted]
      split
      · next h =>
        rw [submit_eq_accept h, accept, List.append_assoc, List.singleton_append]
      · next h => rw [submit_eq_self h]
    | closeAtCost cost => rw [apply, accepted, plans_closeAtCost]

theorem wishes_apply (db : PlanDatabase) (call : Call) :
    (db.apply call).selection = db.selection ∧ (db.apply call).simpleOnly = db.simpleOnly := by
  cases call with
  | submit plan =>
    have hext := Extends.submit db plan
    exact ⟨hext.selection, hext.simpleOnly⟩
  | closeAtCost cost => exact ⟨selection_closeAtCost db cost, simpleOnly_closeAtCost db cost⟩

/-- What is wanted never changes. -/
theorem wishes_after (db : PlanDatabase) (calls : List Call) :
    (db.after calls).selection = db.selection ∧ (db.after calls).simpleOnly = db.simpleOnly := by
  induction calls generalizing db with
  | nil => exact ⟨rfl, rfl⟩
  | cons call calls ih =>
    obtain ⟨hselection, hsimple⟩ := ih (db.apply call)
    exact ⟨hselection.trans (wishes_apply db call).1, hsimple.trans (wishes_apply db call).2⟩

/-! ## Enough -/

/-- A database that has found enough is not changed by plans. -/
theorem submit_of_foundEnough (h : db.foundEnough = true) (plan : Plan) :
    db.submit plan = (.filtered, db) := by
  rw [submit, rejects, h]
  rfl

theorem foundEnough_apply (h : db.foundEnough = true) (call : Call) :
    (db.apply call).foundEnough = true := by
  cases call with
  | submit plan => rwa [apply, submit_of_foundEnough h]
  | closeAtCost cost =>
    rw [apply]
    cases hquality : db.withinQuality cost with
    | true => rwa [closeAtCost, if_pos hquality]
    | false => exact foundEnough_closeAtCost hquality

/-- Enough stays enough, whatever is called. -/
theorem foundEnough_after (h : db.foundEnough = true) (calls : List Call) :
    (db.after calls).foundEnough = true := by
  induction calls generalizing db with
  | nil => exact h
  | cons call calls ih => exact ih (foundEnough_apply h call)

/-! ## Coherent databases -/

/-- The plans are at most as many as wanted and pass the filters, their digests are recorded, each
once, and the best cost is that of the first. -/
structure Coherent (db : PlanDatabase) : Prop where
  valid : db.selection.fault? = none
  length_le : db.plans.length ≤ db.selection.count
  digests : db.digests = (db.plans.map fun plan ↦ Plan.sequenceDigest plan.actions).reverse
  nodup : db.digests.Nodup
  optimalCost? : db.optimalCost? = db.plans.head?.map (·.cost)
  quality : ∀ plan ∈ db.plans, db.withinQuality plan.cost = true
  simple : db.simpleOnly = true → ∀ plan ∈ db.plans, plan.states.Nodup

namespace Coherent

theorem of_ofSelection? {selection : Selection} {simpleOnly : Bool}
    (h : ofSelection? selection simpleOnly = .ok db) : db.Coherent := by
  obtain ⟨hvalid, rfl⟩ := ofSelection?_eq_ok_iff.mp h
  constructor
  · exact hvalid
  · exact Nat.zero_le _
  · rfl
  · exact List.nodup_nil
  · rfl
  · exact fun plan hplan ↦ absurd hplan List.not_mem_nil
  · exact fun _ plan hplan ↦ absurd hplan List.not_mem_nil

/-- A plan that passes the filters and is not known may be taken. -/
theorem accept (h : db.Coherent) (hrejects : db.rejects plan = false)
    (hnew : ¬ db.Knows plan.actions) : (db.accept plan).Coherent := by
  obtain ⟨hopen, hquality, hsimple⟩ := rejects_eq_false_iff.mp hrejects
  constructor
  · exact h.valid
  · rw [foundEnough, Bool.or_eq_false_iff, decide_eq_false_iff_not] at hopen
    show (db.plans ++ [plan]).length ≤ db.selection.count
    rw [List.length_append, List.length_singleton]
    omega
  · exact digests_accept h.digests plan
  · exact List.nodup_cons.mpr ⟨hnew, h.nodup⟩
  · exact optimalCost?_accept h.optimalCost? plan
  · exact quality_accept h.valid h.optimalCost? h.quality plan.cost_nonneg hquality
  · intro hwanted p hp
    rcases List.mem_append.mp hp with hp | hp
    · exact h.simple hwanted p hp
    · obtain rfl := List.mem_singleton.mp hp
      exact hsimple hwanted

/-- Any call keeps a database coherent. -/
theorem apply (h : db.Coherent) (call : Call) : (db.apply call).Coherent := by
  cases call with
  | submit plan =>
    rw [PlanDatabase.apply]
    rcases submit_cases db plan with ⟨heq, _⟩ | ⟨heq, _⟩ | ⟨heq, hrejects, hnew⟩
    · rwa [heq]
    · rwa [heq]
    · rw [heq]
      exact h.accept hrejects hnew
  | closeAtCost cost =>
    rw [PlanDatabase.apply, closeAtCost]
    split
    · exact h
    · exact ⟨h.valid, h.length_le, h.digests, h.nodup, h.optimalCost?, h.quality, h.simple⟩

theorem after (h : db.Coherent) (calls : List Call) : (db.after calls).Coherent := by
  induction calls generalizing db with
  | nil => exact h
  | cons call calls ih => exact ih (h.apply call)

/-- The best cost can be represented. -/
theorem inRange_optimalCost? (h : db.Coherent) {best : Int} (hbest : db.optimalCost? = some best) :
    Cost.InRange best := by
  rw [h.optimalCost?, Option.map_eq_some_iff] at hbest
  obtain ⟨first, -, rfl⟩ := hbest
  exact first.inRange_cost

/-- The plans are within the percentage of the best cost, and the words decide that as the integers
do. -/
theorem quality_topQ (h : db.Coherent) {count : Nat} {percent : UInt32}
    (hselection : db.selection = .topQ count percent) {best : Int}
    (hbest : db.optimalCost? = some best) :
    (∀ plan ∈ db.plans, plan.cost * 100 ≤ best * percent.toNat) ∧
      ∀ cost, Cost.InRange cost →
        db.withinQuality cost = Selection.admitsInWords percent best cost := by
  have hwithin : ∀ cost, db.withinQuality cost =
      decide (cost * 100 ≤ best * percent.toNat) := by
    intro cost
    rw [withinQuality, hselection, hbest, Selection.admits]
  constructor
  · intro plan hplan
    exact of_decide_eq_true (hwithin plan.cost ▸ h.quality plan hplan)
  · intro cost hcost
    rw [Selection.admitsInWords_eq (h.inRange_optimalCost? hbest) hcost count percent,
      withinQuality, hselection, hbest]

end Coherent

/-- After any calls a database is coherent: it has at most as many plans as wanted, the digests are
those of its plans and differ, the best cost is that of the first plan, every plan passes the
quality test, which stays within 128 bits, and no plan repeats a state where that is unwanted.  Only
an acceptance changes it, and adds just the plan; once enough is found that stays so, and a refused
cost makes it so. -/
theorem coherent_after {selection : Selection} {simpleOnly : Bool} {db : PlanDatabase}
    (h : ofSelection? selection simpleOnly = .ok db) (calls : List Call) :
    (db.after calls).plans.length ≤ selection.count ∧
    ((db.after calls).digests =
      ((db.after calls).plans.map fun plan ↦ plan.fingerprint.hexDigest).reverse ∧
      (db.after calls).digests.Nodup) ∧
    (db.after calls).optimalCost? = (db.after calls).plans.head?.map Plan.cost ∧
    (∀ count percent, selection = .topQ count percent →
      ∀ best, (db.after calls).optimalCost? = some best →
        (∀ plan ∈ (db.after calls).plans, plan.cost * 100 ≤ best * percent.toNat) ∧
          ∀ cost, Cost.InRange cost →
            (db.after calls).withinQuality cost = Selection.admitsInWords percent best cost) ∧
    (simpleOnly = true → ∀ plan ∈ (db.after calls).plans, plan.states.Nodup) ∧
    (∀ plan,
      (((db.after calls).submit plan).1 ≠ .accepted →
        ((db.after calls).submit plan).2 = db.after calls) ∧
      (((db.after calls).submit plan).1 = .accepted →
        ((db.after calls).submit plan).2 = (db.after calls).accept plan)) ∧
    ((db.after calls).foundEnough = true →
      ∀ more, ((db.after calls).after more).foundEnough = true) ∧
    ∀ cost, (db.after calls).withinQuality cost = false →
      ((db.after calls).closeAtCost cost).foundEnough = true := by
  have hcoherent := (Coherent.of_ofSelection? h).after calls
  obtain ⟨hselection, hsimple⟩ := wishes_after db calls
  obtain ⟨-, rfl⟩ := ofSelection?_eq_ok_iff.mp h
  refine ⟨?_, ⟨hcoherent.digests, hcoherent.nodup⟩,
    hcoherent.optimalCost?, ?_, ?_, ?_, ?_, ?_⟩
  · have hlength := hcoherent.length_le
    rwa [hselection] at hlength
  · intro count percent htopQ best hbest
    exact hcoherent.quality_topQ (hselection.trans htopQ) hbest
  · exact fun hwanted ↦ hcoherent.simple (hsimple.trans hwanted)
  · exact fun plan ↦ ⟨submit_eq_self, submit_eq_accept⟩
  · exact fun henough more ↦ foundEnough_after henough more
  · exact fun cost hrefused ↦ foundEnough_closeAtCost hrefused

/-- A plan with one action, from the first state to the second. -/
def single (name : String) (cost : Nat) : Plan :=
  ⟨[⟨0, name, cost, Int.natCast_nonneg _⟩], [.single 0, .single 1]⟩

/-- A plan of cost two, the same actions again, a way there and back, a plan of cost three, and the
news that a cost of four has been reached. -/
def errands : List Call :=
  [.submit (single "go" 2), .submit ⟨(single "go" 2).actions, [.single 0, .single 2]⟩,
    .submit ⟨[⟨1, "leave", 1, Int.one_nonneg⟩, ⟨2, "return", 1, Int.one_nonneg⟩],
      [.single 0, .single 1, .single 0]⟩,
    .submit (single "walk" 3), .closeAtCost 4]

/-- Of the errands two are accepted, the costlier one just within one and a half times the best
cost; then the cost of four closes the database for good. -/
theorem errands_coherent :
    ∃ db, ofSelection? (.topQ 3 150) true = .ok db ∧
      (db.after errands).plans.length = 2 ∧ (db.after errands).optimalCost? = some 2 ∧
      (db.after errands).digests.Nodup ∧
      (∀ plan ∈ (db.after errands).plans, plan.cost * 100 ≤ 2 * 150) ∧
      ∀ more, ((db.after errands).after more).foundEnough = true := by
  have hdatabase : ofSelection? (.topQ 3 150) true =
      .ok ⟨.topQ 3 150, true, [], [], none, false⟩ := rfl
  have hbest : (after ⟨.topQ 3 150, true, [], [], none, false⟩ errands).optimalCost? =
      some 2 := by
    decide +kernel
  obtain ⟨-, ⟨-, hnodup⟩, -, hquality, -, -, henough, -⟩ := coherent_after hdatabase errands
  exact ⟨_, hdatabase, by decide +kernel, hbest, hnodup, (hquality 3 150 rfl 2 hbest).1,
    henough (by decide +kernel)⟩

end PlanDatabase

end LayeredPlanning
