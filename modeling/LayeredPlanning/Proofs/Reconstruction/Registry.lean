import LayeredPlanning.Proofs.Plans.Database
import LayeredPlanning.Proofs.Reconstruction.Decisions
import LayeredPlanning.Proofs.Reconstruction.Exactness

/-!
# Reconstructing the cuts below a bound

`CutRegistry.Settled task bound registry` is what holds of a registry after all plans that cost less
than `bound` have been reconstructed: its plans cost less, and unless enough plans are found, all
eligible paths below the bound are known.

A call of `construct` moves the registry to a higher bound, provided that every eligible path below
the new bound is known or a witness of a cut that waits (`Pending`).  The loop takes the cheapest
cut first, so whenever it comes to a cut, whatever is cheaper is known: `Pending.knowsBelow`.  A cut
below the watermark is dropped with no loss, since its plans are known: `Settled.construct`.
-/

namespace LayeredPlanning

/-! ## The queue of cuts -/

namespace Cut

variable {cut c : Cut} {cuts : List Cut} {g h : Int} {s : State}

/-- The costs of a cut are costs, and so is their sum. -/
def Valid (cut : Cut) : Prop := 0 ≤ cut.g ∧ 0 ≤ cut.h ∧ cut.g + cut.h ≤ Cost.max

theorem Valid.f_eq (hcut : cut.Valid) : cut.f = cut.g + cut.h := by
  obtain ⟨hg, hh, hmax⟩ := hcut
  rw [f, Cost.satAdd, Cost.saturate_of_inRange]
  refine ⟨?_, hmax⟩
  unfold Cost.min
  omega

theorem Valid.f_nonneg (hcut : cut.Valid) : 0 ≤ cut.f := by
  rw [hcut.f_eq]
  exact Int.add_nonneg hcut.1 hcut.2.1

/-- Some cut has the state as a meeting state, at costs `g` and `h`. -/
def Listed (cuts : List Cut) (g h : Int) (s : State) : Prop :=
  ∃ cut ∈ cuts, cut.g = g ∧ cut.h = h ∧ s ∈ cut.states

theorem key_of_mem_insertInto (hc : c ∈ cut.insertInto cuts) :
    c.key = cut.key ∨ c ∈ cuts := by
  induction cuts with
  | nil =>
    obtain rfl := List.mem_singleton.mp hc
    exact .inl rfl
  | cons b cuts ih =>
    rw [insertInto] at hc
    split at hc
    · rcases List.mem_cons.mp hc with rfl | hc
      · exact .inl rfl
      · exact .inr hc
    · split at hc
      · rcases List.mem_cons.mp hc with rfl | hc
        · exact .inr List.mem_cons_self
        · exact (ih hc).imp_right (List.mem_cons_of_mem _)
      · next hlt hgt =>
        rcases List.mem_cons.mp hc with rfl | hc
        · exact .inl (StrictOrder.eq_of_not_lt hgt hlt)
        · exact .inr (List.mem_cons_of_mem _ hc)

theorem valid_of_key (hkey : c.key = cut.key) (hcut : cut.Valid) : c.Valid := by
  obtain ⟨_, hg, hh⟩ := CutKey.mk.inj hkey
  rwa [Valid, hg, hh]

theorem pairwise_insertInto (hcuts : cuts.Pairwise fun a b ↦ a.key < b.key) :
    (cut.insertInto cuts).Pairwise fun a b ↦ a.key < b.key := by
  induction cuts with
  | nil => exact List.pairwise_singleton _ _
  | cons b cuts ih =>
    obtain ⟨hb, hcuts⟩ := List.pairwise_cons.mp hcuts
    rw [insertInto]
    split
    · next hlt =>
      refine List.pairwise_cons.mpr ⟨?_, List.pairwise_cons.mpr ⟨hb, hcuts⟩⟩
      intro c hc
      rcases List.mem_cons.mp hc with rfl | hc
      · exact hlt
      · exact StrictOrder.trans hlt (hb c hc)
    · split
      · next hgt =>
        refine List.pairwise_cons.mpr ⟨?_, ih hcuts⟩
        intro c hc
        rcases key_of_mem_insertInto hc with hkey | hc
        · rwa [hkey]
        · exact hb c hc
      · exact List.pairwise_cons.mpr ⟨hb, hcuts⟩

/-- A registered cut adds its key to those of the queue. -/
theorem mem_keys_insertInto {key : CutKey} :
    key ∈ (cut.insertInto cuts).map Cut.key ↔ key = cut.key ∨ key ∈ cuts.map Cut.key := by
  induction cuts with
  | nil => exact List.mem_cons
  | cons b cuts ih =>
    rw [insertInto]
    split
    · rw [List.map_cons, List.mem_cons]
    · split
      · rw [List.map_cons, List.mem_cons, ih, List.map_cons, List.mem_cons]
        exact or_left_comm
      · next hlt hgt =>
        rw [List.map_cons, key_merge, List.map_cons, List.mem_cons,
          StrictOrder.eq_of_not_lt hlt hgt, or_self_left]

/-- The first of the cuts in order is the cheapest. -/
theorem f_le_of_pairwise (hcuts : (cut :: cuts).Pairwise fun a b ↦ a.key < b.key) :
    ∀ c ∈ cut :: cuts, cut.f ≤ c.f := by
  intro c hc
  rcases List.mem_cons.mp hc with rfl | hc
  · exact Int.le_refl _
  · have hlt := (List.pairwise_cons.mp hcuts).1 c hc
    rw [CutKey.lt_iff] at hlt
    dsimp only [Cut.key] at hlt
    omega

/-- A registered cut adds its meeting states to those that are listed. -/
theorem listed_insertInto :
    Listed (cut.insertInto cuts) g h s ↔
      (cut.g = g ∧ cut.h = h ∧ s ∈ cut.states) ∨ Listed cuts g h s := by
  simp only [Listed]
  induction cuts with
  | nil => simp [insertInto]
  | cons b cuts ih =>
    rw [insertInto]
    split
    · simp only [List.mem_cons, exists_eq_or_imp]
    · split
      · simp only [List.mem_cons, exists_eq_or_imp, ih]
        exact or_left_comm
      · next hlt hgt =>
        obtain ⟨_, hg, hh⟩ := CutKey.mk.inj (StrictOrder.eq_of_not_lt hlt hgt)
        simp only [List.mem_cons, exists_eq_or_imp, merge, StateSet.mem_union, hg, hh]
        rw [← or_assoc, ← and_or_left, ← and_or_left, or_comm (a := s ∈ b.states)]

/-- If the cuts have meeting states, so have those after a cut with meeting states is registered. -/
theorem occupied_insertInto (hcut : ∃ s, s ∈ cut.states)
    (hcuts : ∀ c ∈ cuts, ∃ s, s ∈ c.states) :
    ∀ c ∈ cut.insertInto cuts, ∃ s, s ∈ c.states := by
  induction cuts with
  | nil => exact List.forall_mem_singleton.mpr hcut
  | cons b cuts ih =>
    obtain ⟨⟨s, hs⟩, hrest⟩ := List.forall_mem_cons.mp hcuts
    rw [insertInto]
    split
    · exact List.forall_mem_cons.mpr ⟨hcut, hcuts⟩
    · split
      · exact List.forall_mem_cons.mpr ⟨⟨s, hs⟩, ih hrest⟩
      · exact List.forall_mem_cons.mpr ⟨⟨s, StateSet.mem_union.mpr (.inl hs)⟩, hrest⟩

end Cut

/-- A witness is an eligible path that costs what its cut promises. -/
theorem Cut.HasWitness.eligible {view : LayerView} {cut : Cut}
    {w : Witness view.task.transitions} (hw : cut.HasWitness view w) :
    view.task.Eligible false w.path ∧ pathCost w.path = cut.g + cut.h := by
  obtain ⟨m, _, hm, t, ht, hgoal⟩ := hw.meets
  refine ⟨⟨⟨t, hm.append ht, hgoal⟩, hw.levelSimple,
    fun h ↦ absurd h Bool.false_ne_true⟩, ?_⟩
  rw [Witness.path, pathCost_append, hw.cost_before, hw.cost_after]

namespace CutRegistry

variable {registry registry' : CutRegistry PlanDatabase} {task : Task} {view : LayerView}
  {lo bound : Int} {cut : Cut} {rest : List Cut}

theorem foundAll_eq_false_iff :
    registry.foundAll = false ↔
      registry.store.foundEnough = false ∧ registry.found < registry.target := by
  rw [foundAll, Bool.or_eq_false_iff, decide_eq_false_iff_not, Nat.not_le]
  rfl

theorem isClosed_of_foundAll (hopen : registry.foundAll = false) :
    registry.store.isClosed = false :=
  (Bool.or_eq_false_iff.mp (foundAll_eq_false_iff.mp hopen).1).1

/-- A registered cut is valid, and takes its place in the queue. -/
theorem register_eq_ok (h : registry.register cut = .ok registry') :
    cut.Valid ∧ registry' = { registry with cuts := cut.insertInto registry.cuts } := by
  rw [register] at h
  split at h
  · cases h
  · next hneg =>
    split at h
    · cases h
    · next hmax =>
      cases h
      exact ⟨⟨by omega, by omega, by omega⟩, rfl⟩

/-! ## Wishes -/

/-- Which plans are wanted; this never changes. -/
def wishes (registry : CutRegistry PlanDatabase) : Selection × Bool × Bool :=
  (registry.store.selection, registry.store.simpleOnly, registry.singleSolution)

theorem extends_reconstruct (view : LayerView) (cut : Cut) (budget : Nat) (db : PlanDatabase) :
    db.Extends (LayeredPlanning.reconstruct view cut budget db).2 :=
  reconstruct_induction (fun later plan h ↦ h.trans (PlanDatabase.Extends.submit later plan))
    (PlanDatabase.Extends.refl db) view cut budget

theorem wishes_construct (bound : Int) (view : LayerView) (registry : CutRegistry PlanDatabase) :
    (registry.construct bound view).2.wishes = registry.wishes := by
  let Same (db : PlanDatabase) : Prop :=
    db.selection = registry.store.selection ∧ db.simpleOnly = registry.store.simpleOnly
  have hsame : Same registry.store := ⟨rfl, rfl⟩
  have hstore := store_constructFrom (P := Same) (fun db plan h ↦ ?_)
    (fun db cost h ↦ ?_) hsame bound view none
  · rw [wishes, wishes, store_construct, hstore.1, hstore.2, singleSolution_construct]
  · have hext := PlanDatabase.Extends.submit db plan
    exact ⟨hext.selection.trans h.1, hext.simpleOnly.trans h.2⟩
  · exact ⟨(db.selection_closeAtCost cost).trans h.1,
      (db.simpleOnly_closeAtCost cost).trans h.2⟩

/-- The plans of the database stay, and new ones come behind them. -/
theorem plans_constructFrom (registry : CutRegistry PlanDatabase) (bound : Int) (view : LayerView)
    (least? : Option Int) :
    registry.store.plans <+: (registry.constructFrom bound view least?).2.store.plans := by
  refine store_constructFrom (P := fun db ↦ registry.store.plans <+: db.plans)
    (fun db plan h ↦ h.trans (PlanDatabase.Extends.submit db plan).plans) (fun db cost h ↦ ?_)
    (List.prefix_refl _) bound view least?
  show registry.store.plans <+: (db.closeAtCost cost).plans
  rwa [PlanDatabase.plans_closeAtCost]

theorem plans_construct (registry : CutRegistry PlanDatabase) (bound : Int) (view : LayerView) :
    registry.store.plans <+: (registry.construct bound view).2.store.plans := by
  rw [store_construct]
  exact plans_constructFrom registry bound view none

/-! ## The target -/

theorem target_le_count : registry.target ≤ registry.store.selection.count := by
  rw [target, targetPlans]
  split
  · exact Nat.min_le_left _ _
  · exact Nat.le_refl _

/-- A refusal leaves what is found and the target as they are. -/
theorem found_refused (registry : CutRegistry PlanDatabase) (cut : Cut) :
    (registry.refused cut).found = registry.found :=
  congrArg List.length (PlanDatabase.plans_closeAtCost registry.store cut.f)

theorem target_refused (registry : CutRegistry PlanDatabase) (cut : Cut) :
    (registry.refused cut).target = registry.target :=
  congrArg (fun selection : Selection ↦ targetPlans registry.singleSolution selection.count)
    (PlanDatabase.selection_closeAtCost registry.store cut.f)

section Reconstruct

variable {tally : Tally} {store : PlanDatabase}

/-- A reconstruction finds as many plans as it accepts. -/
theorem found_reconstructed
    (hrec : LayeredPlanning.reconstruct view cut registry.missing registry.store =
      (.ok tally, store)) :
    (registry.reconstructed cut rest tally store).found = registry.found + tally.accepted := by
  obtain ⟨plans, _, hsubmit, hsame⟩ := exists_submitAll_of_reconstruct hrec
  obtain rfl := hsame tally rfl
  have hcount := PlanDatabase.accepted_submitAll hsubmit
  rw [show Tally.zero.accepted = 0 from rfl, Nat.zero_add] at hcount
  exact hcount.symm.trans (Nat.add_comm _ _)

theorem target_reconstructed
    (hrec : LayeredPlanning.reconstruct view cut registry.missing registry.store =
      (.ok tally, store)) :
    (registry.reconstructed cut rest tally store).target = registry.target := by
  have hext := extends_reconstruct view cut registry.missing registry.store
  rw [hrec] at hext
  exact congrArg (fun selection : Selection ↦ targetPlans registry.singleSolution selection.count)
    hext.selection

/-- A reconstruction does not find more than the target. -/
theorem found_le_reconstructed (hopen : registry.foundAll = false)
    (hrec : LayeredPlanning.reconstruct view cut registry.missing registry.store =
      (.ok tally, store)) :
    (registry.reconstructed cut rest tally store).found ≤
      (registry.reconstructed cut rest tally store).target := by
  have hbudget := accepted_reconstruct_le hrec
  have hlt := (foundAll_eq_false_iff.mp hopen).2
  rw [missing] at hbudget
  rw [found_reconstructed hrec, target_reconstructed hrec]
  omega

end Reconstruct

/-! ## Lawful registries -/

/-- The database is lawful and within its target, and the cuts are valid and in order. -/
structure Lawful (task : Task) (registry : CutRegistry PlanDatabase) : Prop where
  database : registry.store.Lawful task
  found_le : registry.found ≤ registry.target
  sorted : registry.cuts.Pairwise fun a b ↦ a.key < b.key
  valid : ∀ cut ∈ registry.cuts, cut.Valid

/-- A registry that wants no more plans has found as many as it aimed for, or its database is
closed. -/
theorem Lawful.found_of_foundAll (h : registry.Lawful task) (hall : registry.foundAll = true) :
    registry.store.isClosed = true ∨ registry.found = registry.target := by
  rw [foundAll, Bool.or_eq_true, decide_eq_true_eq] at hall
  rcases hall with henough | hfound
  · rcases Bool.or_eq_true _ _ ▸ henough with hclosed | hcount
    · exact .inl hclosed
    · have hcount : registry.store.selection.count ≤ registry.found := of_decide_eq_true hcount
      exact .inr (Nat.le_antisymm h.found_le (target_le_count.trans hcount))
  · exact .inr (Nat.le_antisymm h.found_le hfound)

/-- A registry that wants no more plans has found one. -/
theorem Lawful.found_pos (h : registry.Lawful task) (hall : registry.foundAll = true) :
    0 < registry.found := by
  rcases h.found_of_foundAll hall with hclosed | hfound
  · exact List.length_pos_iff.mpr (h.database.plans_of_isClosed hclosed)
  · have hcount := PlanDatabase.count_pos_of_fault? h.database.valid
    rw [hfound, target, targetPlans]
    split
    · exact Nat.lt_min.mpr ⟨hcount, Nat.zero_lt_one⟩
    · exact hcount

/-- The last event says that the database has refused a cost below the bound, and whatever costs
less is known. -/
structure Refuses (task : Task) (bound : Int) (registry : CutRegistry PlanDatabase)
    (event : CutEvent) : Prop where
  last : registry.events.getLast? = some event
  outcome : event.outcome = .outsideQualityBound
  lt : event.f < bound
  quality : registry.store.withinQuality event.f = false
  knowsBelow : registry.store.KnowsBelow task event.f

theorem Refuses.mono {event : CutEvent} (h : registry.Refuses task lo event) (hle : lo ≤ bound) :
    registry.Refuses task bound event :=
  ⟨h.last, h.outcome, Int.lt_of_lt_of_le h.lt hle, h.quality, h.knowsBelow⟩

/-- All plans that cost less than `bound` have been reconstructed, unless enough are found or their
cost was refused, and no others. -/
structure Settled (task : Task) (bound : Int) (registry : CutRegistry PlanDatabase) : Prop
    extends registry.Lawful task where
  cost_lt : ∀ plan ∈ registry.store.plans, plan.cost < bound
  watermark_lt : ∀ w, registry.planCostBound? = some w → w < bound
  knowsBelow : registry.foundAll = false → registry.store.KnowsBelow task bound
  refuses : registry.store.isClosed = true → ∃ event, registry.Refuses task bound event

/-- A registry without cuts and plans is settled at cost zero. -/
theorem settled_ofStore {selection : Selection} {simpleOnly : Bool} {database : PlanDatabase}
    (h : PlanDatabase.ofSelection? selection simpleOnly = .ok database) (singleSolution : Bool) :
    (ofStore database singleSolution).Settled task 0 := by
  have hplans := PlanDatabase.plans_of_ofSelection? h
  refine ⟨⟨.of_ofSelection? h, ?_, List.Pairwise.nil,
    fun _ hcut ↦ absurd hcut List.not_mem_nil⟩, ?_, nofun, ?_, ?_⟩
  · have hfound : (ofStore database singleSolution).found = 0 := congrArg List.length hplans
    rw [hfound]
    exact Nat.zero_le _
  · intro plan hplan
    change plan ∈ database.plans at hplan
    rw [hplans] at hplan
    exact absurd hplan List.not_mem_nil
  · intro _ es _ hlt
    exact absurd hlt (Int.not_lt.mpr (pathCost_nonneg es))
  · intro hclosed
    have hdatabase : database.Lawful task := .of_ofSelection? h
    exact absurd hplans (hdatabase.plans_of_isClosed hclosed)

/-- Every eligible path below the bound is known, or a witness of a cut that waits. -/
def Pending (view : LayerView) (bound : Int) (registry : CutRegistry PlanDatabase) : Prop :=
  ∀ es, view.task.Eligible registry.store.simpleOnly es → pathCost es < bound →
    registry.store.Knows (es.map Step.action) ∨
      ∃ cut ∈ registry.cuts, ∃ w, cut.HasWitness view w ∧ w.path = es

/-- A registry that is settled up to `lo` on its way to `bound`. -/
structure Advancing (view : LayerView) (lo bound : Int) (registry : CutRegistry PlanDatabase) : Prop
    extends registry.Lawful view.task where
  cost_lt : ∀ plan ∈ registry.store.plans, plan.cost < bound
  watermark_lt : ∀ w, registry.planCostBound? = some w → w < lo
  knowsBelow : registry.foundAll = false → registry.store.KnowsBelow view.task lo
  pending : registry.foundAll = false → registry.Pending view bound
  refuses : registry.store.isClosed = true → ∃ event, registry.Refuses view.task bound event

theorem Lawful.register (h : registry.Lawful task) (hreg : registry.register cut = .ok registry') :
    registry'.Lawful task := by
  obtain ⟨hcut, rfl⟩ := register_eq_ok hreg
  refine ⟨h.database, h.found_le, Cut.pairwise_insertInto h.sorted, ?_⟩
  intro c hc
  rcases Cut.key_of_mem_insertInto hc with hkey | hc
  · exact Cut.valid_of_key hkey hcut
  · exact h.valid c hc

/-- The cheapest cut costs no more than the others. -/
theorem Lawful.le_of_cuts (h : registry.Lawful task) (hcuts : registry.cuts = cut :: rest) :
    ∀ c ∈ registry.cuts, cut.f ≤ c.f := by
  have hsorted := h.sorted
  rw [hcuts] at hsorted ⊢
  exact Cut.f_le_of_pairwise hsorted

/-- Consuming a cut below the bound leaves the meeting states from the bound on. -/
theorem Lawful.listed_of_cuts (h : registry.Lawful task) (hcuts : registry.cuts = cut :: rest)
    (hbound : cut.f < bound) {g k : Int} {s : State} (hcost : bound ≤ g + k)
    (hlisted : Cut.Listed registry.cuts g k s) : Cut.Listed rest g k s := by
  obtain ⟨c, hc, rfl, rfl, hs⟩ := hlisted
  rw [hcuts] at hc
  rcases List.mem_cons.mp hc with rfl | hc
  · have hf := (h.valid c (by rw [hcuts]; exact List.mem_cons_self)).f_eq
    omega
  · exact ⟨c, hc, rfl, rfl, hs⟩

theorem Settled.register (h : registry.Settled task bound)
    (hreg : registry.register cut = .ok registry') : registry'.Settled task bound := by
  have hlawful := h.toLawful.register hreg
  obtain ⟨_, rfl⟩ := register_eq_ok hreg
  refine ⟨hlawful, h.cost_lt, h.watermark_lt, h.knowsBelow, fun hclosed ↦ ?_⟩
  obtain ⟨event, hevent⟩ := h.refuses hclosed
  exact ⟨event, hevent.last, hevent.outcome, hevent.lt, hevent.quality, hevent.knowsBelow⟩

/-- The plans below the costs of all cuts that wait are known. -/
theorem Pending.knowsBelow {f : Int} (h : registry.Pending view bound)
    (hvalid : ∀ cut ∈ registry.cuts, cut.Valid) (hbound : f ≤ bound)
    (hleast : ∀ cut ∈ registry.cuts, f ≤ cut.f) : registry.store.KnowsBelow view.task f := by
  intro es hes hlt
  rcases h es hes (by omega) with hknown | ⟨cut, hcut, w, hw, rfl⟩
  · exact hknown
  · have hcost := hw.eligible.2
    have hf := (hvalid cut hcut).f_eq
    have hle := hleast cut hcut
    omega

/-- The cheapest cut is not missed once its witnesses are known. -/
theorem Pending.consume (h : registry.Pending view bound) (hcuts : registry.cuts = cut :: rest)
    (hcuts' : registry'.cuts = rest) (hext : registry.store.Extends registry'.store)
    (hknown : ∀ w, cut.HasWitness view w →
      view.task.Eligible registry.store.simpleOnly w.path →
      registry'.store.Knows (w.path.map Step.action)) : registry'.Pending view bound := by
  intro es hes hlt
  rw [hext.simpleOnly] at hes
  rcases h es hes hlt with hold | ⟨c, hc, w, hw, rfl⟩
  · exact .inl (hext.knows hold)
  rw [hcuts, ← hcuts'] at hc
  rcases List.mem_cons.mp hc with rfl | hc
  · exact .inl (hknown w hw hes)
  · exact .inr ⟨c, hc, w, hw, rfl⟩

namespace Advancing

/-- A cut below the watermark is dropped with no loss. -/
theorem drop (h : registry.Advancing view lo bound) (hcuts : registry.cuts = cut :: rest)
    (hopen : registry.foundAll = false) {watermark : Int}
    (hwatermark : registry.watermarkAbove? cut = some watermark) (outcome : CutOutcome) :
    (registry.consume cut rest outcome).Advancing view lo bound := by
  have hsorted := h.sorted
  have hvalid := h.valid
  rw [hcuts] at hsorted hvalid
  obtain ⟨hcut, hvalid⟩ := List.forall_mem_cons.mp hvalid
  refine ⟨⟨h.database, h.found_le, (List.pairwise_cons.mp hsorted).2, hvalid⟩, h.cost_lt,
    h.watermark_lt, h.knowsBelow, fun _ ↦ ?_,
    fun hclosed ↦ absurd ((isClosed_of_foundAll hopen).symm.trans hclosed) Bool.false_ne_true⟩
  refine (h.pending hopen).consume hcuts rfl (PlanDatabase.Extends.refl _) ?_
  intro w hw hes
  refine h.knowsBelow hopen _ hes ?_
  rw [watermarkAbove?, Option.filter_eq_some_iff, decide_eq_true_eq] at hwatermark
  have hlow := h.watermark_lt watermark hwatermark.1
  rw [hw.eligible.2, ← hcut.f_eq]
  omega

/-- Reconstructing the cheapest cut makes all its witnesses known, unless enough plans are found. -/
theorem reconstruct (h : registry.Advancing view lo bound)
    (hcons : ∀ r ∈ view.task.transitions.relations, r.Consistent)
    (hcuts : registry.cuts = cut :: rest) (hopen : registry.foundAll = false)
    (hbound : cut.f < bound) (hquality : registry.store.withinQuality cut.f = true) {tally : Tally}
    {store : PlanDatabase}
    (hrec : LayeredPlanning.reconstruct view cut registry.missing registry.store =
      (.ok tally, store)) :
    (registry.reconstructed cut rest tally store).Advancing view lo bound := by
  have hsorted := h.sorted
  have hvalid := h.valid
  rw [hcuts] at hsorted hvalid
  obtain ⟨hcut, hvalid⟩ := List.forall_mem_cons.mp hvalid
  obtain ⟨plans, hsubmit, hplans, hall⟩ := submissions_of_reconstruct hcons hrec
  have hbelow : registry.store.KnowsBelow view.task cut.f :=
    (h.pending hopen).knowsBelow h.valid (Int.le_of_lt hbound) (h.le_of_cuts hcuts)
  have hcost : ∀ plan ∈ plans, plan.OfCost view.task cut.f := by
    intro plan hplan
    obtain ⟨hcost, w, hw, rfl⟩ := hplans plan hplan
    refine ⟨hcost, w.path, hw.eligible.1, rfl, ?_⟩
    rw [hw.eligible.2, hcut.f_eq]
  have hext : registry.store.Extends store := PlanDatabase.extends_submitAll hsubmit
  refine ⟨⟨h.database.submitAll hbelow hcost hsubmit, found_le_reconstructed hopen hrec,
    (List.pairwise_cons.mp hsorted).2, hvalid⟩, ?_, h.watermark_lt,
    fun _ ↦ (h.knowsBelow hopen).extends hext, ?_, ?_⟩
  · intro plan hplan
    rcases PlanDatabase.mem_of_submitAll hsubmit hplan with hold | ⟨hnew, -⟩
    · exact h.cost_lt plan hold
    · rw [(hcost plan hnew).1]
      exact hbound
  · intro hopen'
    obtain ⟨hstore, hmore⟩ := foundAll_eq_false_iff.mp hopen'
    refine (h.pending hopen).consume hcuts rfl hext ?_
    intro w hw hes
    -- All witnesses of the cut have been submitted, or the target would have been met.
    rw [found_reconstructed hrec, target_reconstructed hrec] at hmore
    have hmem : w.plan view.task.initial ∈ plans := by
      rw [hall (Nat.lt_sub_of_add_lt (Nat.add_comm _ _ ▸ hmore))]
      exact List.mem_map.mpr ⟨w, (mem_witnesses hcons).mpr hw, rfl⟩
    have hknown : store.Knows (w.plan view.task.initial).actions :=
      PlanDatabase.knows_of_submitAll h.database.valid hcut.f_nonneg hquality
        (fun plan hplan ↦ (hplans plan hplan).1) hsubmit hstore hmem hes.simple
    exact hknown
  · intro hclosed
    rw [show (registry.reconstructed cut rest tally store).store.isClosed =
      registry.store.isClosed from hext.isClosed, isClosed_of_foundAll hopen] at hclosed
    cases hclosed

/-- The registry has arrived once enough plans are found, or no cut below the bound waits. -/
theorem settled (h : registry.Advancing view lo (max lo bound))
    (hdone : registry.foundAll = false → ∀ cut ∈ registry.cuts, bound ≤ cut.f) :
    registry.Settled view.task (max lo bound) := by
  refine ⟨h.toLawful, h.cost_lt, ?_, ?_, h.refuses⟩
  · intro w hw
    have := h.watermark_lt w hw
    omega
  · intro hopen es hes hlt
    have hlow : pathCost es < lo ∨ pathCost es < bound := by omega
    rcases hlow with hlow | hlow
    · exact h.knowsBelow hopen es hes hlow
    · exact (h.pending hopen).knowsBelow h.valid (Int.le_max_right _ _) (hdone hopen) es hes hlow

theorem leastOf_lt {least? : Option Int} {cost : Int}
    (hleast : ∀ w, least? = some w → w < bound) (hcost : cost < bound) :
    ∀ w, some (leastOf least? cost) = some w → w < bound := by
  intro w hw
  cases hw
  cases least? with
  | none => exact hcost
  | some least =>
    show (if least ≤ cost then least else cost) < bound
    split
    · exact hleast least rfl
    · exact hcost

theorem foundAll_of_closeAtCost {f : Int} (hquality : registry.store.withinQuality f = false)
    (hstore : registry'.store = registry.store.closeAtCost f) : registry'.foundAll = true := by
  by_contra hopen
  have henough := (foundAll_eq_false_iff.mp (Bool.not_eq_true _ ▸ hopen)).1
  rw [hstore, PlanDatabase.foundEnough_closeAtCost hquality] at henough
  cases henough

/-- If the database refuses the cost of the cheapest cut, nothing more is wanted. -/
theorem refused (h : registry.Advancing view lo bound) (hcuts : registry.cuts = cut :: rest)
    (hopen : registry.foundAll = false) (hbound : cut.f < bound)
    (hquality : registry.store.withinQuality cut.f = false) :
    (registry.refused cut).Advancing view lo bound := by
  have hstore : (registry.refused cut).store = registry.store.closeAtCost cut.f := rfl
  have hall : (registry.refused cut).foundAll ≠ false := by
    rw [foundAll_of_closeAtCost hquality hstore]
    exact Bool.false_ne_true.symm
  refine ⟨⟨?_, ?_, h.sorted, h.valid⟩, ?_, h.watermark_lt, fun hopen ↦ absurd hopen hall,
    fun hopen ↦ absurd hopen hall,
    fun _ ↦ ⟨.ofCut cut .outsideQualityBound, ?_, rfl, hbound, ?_, ?_⟩⟩
  · rw [hstore]
    exact h.database.closeAtCost cut.f
  · rw [found_refused, target_refused]
    exact h.found_le
  · rw [hstore, PlanDatabase.plans_closeAtCost]
    exact h.cost_lt
  · exact List.getLast?_concat
  · rw [hstore, PlanDatabase.withinQuality_closeAtCost]
    exact hquality
  · have hbelow : registry.store.KnowsBelow view.task cut.f :=
      (h.pending hopen).knowsBelow h.valid (Int.le_of_lt hbound) (h.le_of_cuts hcuts)
    exact hbelow.closeAtCost cut.f

/-- The loop of a construction settles the registry up to the bound, and consumes no cut beyond
it. -/
theorem constructFrom (hcons : ∀ r ∈ view.task.transitions.relations, r.Consistent)
    {least? least?' : Option Int} (h : registry.Advancing view lo (max lo bound))
    (hleast : ∀ w, least? = some w → w < bound)
    (heq : registry.constructFrom bound view least? = (.ok least?', registry')) :
    registry'.Settled view.task (max lo bound) ∧ (∀ w, least?' = some w → w < bound) ∧
      (registry'.foundAll = false → ∀ g k s, bound ≤ g + k →
        Cut.Listed registry.cuts g k s → Cut.Listed registry'.cuts g k s) := by
  have hbound := Int.le_max_right lo bound
  fun_induction CutRegistry.constructFrom bound view registry least? with
  | case1 registry least? hall =>
    cases heq
    refine ⟨h.settled ?_, hleast, fun _ _ _ _ _ hlisted ↦ hlisted⟩
    intro hopen
    rw [hall] at hopen
    cases hopen
  | case2 registry least? hopen hcuts =>
    cases heq
    refine ⟨h.settled ?_, hleast, fun _ _ _ _ _ hlisted ↦ hlisted⟩
    intro _ c hc
    rw [hcuts] at hc
    exact absurd hc List.not_mem_nil
  | case3 registry least? hopen cut rest hcuts hle =>
    cases heq
    refine ⟨h.settled ?_, hleast, fun _ _ _ _ _ hlisted ↦ hlisted⟩
    intro _ c hc
    exact Int.le_trans hle (h.le_of_cuts hcuts c hc)
  | case4 registry least? hopen cut rest hcuts hlt watermark hwatermark ih =>
    obtain ⟨hsettled, hleast', hlisted⟩ :=
      ih (h.drop hcuts (Bool.not_eq_true _ ▸ hopen) hwatermark _) hleast heq
    refine ⟨hsettled, hleast', fun hopen' g k s hcost hs ↦ hlisted hopen' g k s hcost ?_⟩
    exact h.listed_of_cuts hcuts (Int.not_le.mp hlt) hcost hs
  | case5 registry least? hopen cut rest hcuts hlt hwatermark hquality e store hrec =>
    cases heq
  | case6 registry least? hopen cut rest hcuts hlt hwatermark hquality tally store hrec ih =>
    have hlt := Int.not_le.mp hlt
    obtain ⟨hsettled, hleast', hlisted⟩ :=
      ih (h.reconstruct hcons hcuts (Bool.not_eq_true _ ▸ hopen) (Int.lt_of_lt_of_le hlt hbound)
        hquality hrec) (leastOf_lt hleast hlt) heq
    refine ⟨hsettled, hleast', fun hopen' g k s hcost hs ↦ hlisted hopen' g k s hcost ?_⟩
    exact h.listed_of_cuts hcuts hlt hcost hs
  | case7 registry least? hopen cut rest hcuts hlt hwatermark hquality =>
    cases heq
    have hquality : registry.store.withinQuality cut.f = false := Bool.not_eq_true _ ▸ hquality
    have hrefused := h.refused hcuts (Bool.not_eq_true _ ▸ hopen)
      (Int.lt_of_lt_of_le (Int.not_le.mp hlt) hbound) hquality
    refine ⟨hrefused.settled ?_, hleast, ?_⟩
    · intro hopen'
      exact absurd (hopen'.symm.trans (foundAll_of_closeAtCost hquality rfl)) Bool.false_ne_true
    · intro hopen'
      exact absurd (hopen'.symm.trans (foundAll_of_closeAtCost hquality rfl)) Bool.false_ne_true

end Advancing

/-- A construction up to a bound below which no path is missed settles the registry at that bound,
unless it was settled further; the meeting states from the bound on stay listed. -/
theorem Settled.construct (h : registry.Settled view.task lo)
    (hcons : ∀ r ∈ view.task.transitions.relations, r.Consistent)
    (hpending : registry.foundAll = false → registry.Pending view (max lo bound))
    (heq : registry.construct bound view = (.ok (), registry')) :
    registry'.Settled view.task (max lo bound) ∧
      (registry'.foundAll = false → ∀ g k s, bound ≤ g + k →
        Cut.Listed registry.cuts g k s → Cut.Listed registry'.cuts g k s) := by
  have hadvance : registry.Advancing view lo (max lo bound) :=
    ⟨h.toLawful,
      fun plan hplan ↦ Int.lt_of_lt_of_le (h.cost_lt plan hplan) (Int.le_max_left _ _),
      h.watermark_lt, h.knowsBelow, hpending, fun hclosed ↦
        (h.refuses hclosed).imp fun _ hevent ↦ hevent.mono (Int.le_max_left _ _)⟩
  rw [CutRegistry.construct] at heq
  split at heq
  · cases heq
  · next least? last hloop =>
    obtain ⟨hsettled, hleast, hlisted⟩ :=
      hadvance.constructFrom hcons (fun _ hw ↦ absurd hw.symm (Option.some_ne_none _)) hloop
    cases heq
    refine ⟨⟨⟨hsettled.database, hsettled.found_le, hsettled.sorted, hsettled.valid⟩,
      hsettled.cost_lt, ?_, hsettled.knowsBelow, fun hclosed ↦ ?_⟩, hlisted⟩
    case refine_2 =>
      obtain ⟨event, hevent⟩ := hsettled.refuses hclosed
      exact ⟨event, hevent.last, hevent.outcome, hevent.lt, hevent.quality, hevent.knowsBelow⟩
    intro w hw
    cases least? with
    | none => exact hsettled.watermark_lt w hw
    | some least =>
      cases hw
      exact Int.lt_of_lt_of_le (hleast _ rfl) (Int.le_max_right _ _)

/-- A registry that has found enough plans is left as it is. -/
theorem construct_of_foundAll (hall : registry.foundAll = true) (bound : Int) (view : LayerView) :
    registry.construct bound view = (.ok (), registry) := by
  rw [construct, constructFrom_of_foundAll hall]
  rfl

end CutRegistry

end LayeredPlanning
