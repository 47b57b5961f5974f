import LayeredPlanning.Order.SortedMap
import LayeredPlanning.Proofs.Reconstruction.Histories
import Mathlib.Data.Finset.Card

/-!
# The queue of a registry

The queue is a sorted map from pairs of costs to meeting states (`Cut.toMap`): registering a cut
alters one key (`Cut.toMap_insertInto`), and constructing takes off the least ones
(`CutRegistry.cuts_construct`).  Since the keys ascend, a search by key leads to one place only
(`Cut.enters_iff`), and registrations commute (`Cut.insertInto_comm`).  A pair of costs that is
registered twice has one place (`CutRegistry.length_cuts_registers`).

What waits at a pair of costs is what has been registered there since a cut was last taken off
(`CutRegistry.SinceRemoval`): `CutRegistry.queue_after`.
-/

namespace LayeredPlanning

/-- The union of the sets, if there are any. -/
def StateSet.unions? (Ss : List StateSet) : Option StateSet :=
  if Ss = [] then none else some (unions Ss)

namespace StateSet

variable {S : StateSet} {Ss : List StateSet}

theorem unions?_eq_some_iff : unions? Ss = some S ↔ Ss ≠ [] ∧ S = unions Ss := by
  rw [unions?]
  split
  · next hnil => exact iff_of_false nofun fun h ↦ h.1 hnil
  · next hsome => rw [Option.some.injEq, and_iff_right hsome, eq_comm]

/-- Another set joins those before. -/
theorem unions?_concat (Ss : List StateSet) (S : StateSet) :
    unions? (Ss ++ [S]) = some ((unions? Ss).getD ∅ ∪ S) := by
  have hunion : unions (Ss ++ [S]) = unions Ss ∪ S := by
    rw [unions, List.foldl_append]
    rfl
  rw [unions?, if_neg (List.append_ne_nil_of_right_ne_nil Ss (List.cons_ne_nil S [])),
    hunion, unions?]
  split
  · next hnil =>
    rw [hnil]
    rfl
  · rfl

end StateSet

/-- The key of the cuts with these costs. -/
def CutKey.ofCosts (g h : Int) : CutKey := ⟨Cost.satAdd g h, g, h⟩

namespace Cut

variable {a b c cut : Cut} {cuts cuts' : List Cut} {g h : Int} {S : StateSet}

instance instDecidableValid (cut : Cut) : Decidable cut.Valid :=
  inferInstanceAs (Decidable (0 ≤ cut.g ∧ 0 ≤ cut.h ∧ cut.g + cut.h ≤ Cost.max))

theorem key_eq_ofCosts_iff : cut.key = .ofCosts g h ↔ cut.g = g ∧ cut.h = h := by
  rw [key, f, CutKey.ofCosts, CutKey.mk.injEq]
  constructor
  · exact And.right
  · rintro ⟨rfl, rfl⟩
    exact ⟨rfl, rfl, rfl⟩

/-! ## Searching by key -/

/-- Where a search for the key of a cut may lead: to a cut of the same key, which takes up the
states, or between the cuts of smaller and those of larger keys. -/
inductive Enters (cut : Cut) : List Cut → List Cut → Prop where
  | merge (before : List Cut) {after : List Cut} {c : Cut} : c.key = cut.key →
      Enters cut (before ++ c :: after) (before ++ c.merge cut :: after)
  | insert (before : List Cut) {after : List Cut} : (∀ c ∈ before, c.key < cut.key) →
      (∀ c ∈ after, cut.key < c.key) → Enters cut (before ++ after) (before ++ cut :: after)

/-- Cuts of smaller keys are passed over. -/
theorem Enters.cons (hlt : c.key < cut.key) (henters : cut.Enters cuts cuts') :
    cut.Enters (c :: cuts) (c :: cuts') := by
  cases henters with
  | merge before hkey => exact .merge (c :: before) hkey
  | insert before hbefore hafter =>
    exact .insert (c :: before) (List.forall_mem_cons.mpr ⟨hlt, hbefore⟩) hafter

theorem insertInto_append_of_lt (hcuts : ∀ c ∈ cuts, c.key < cut.key) (cuts' : List Cut) :
    cut.insertInto (cuts ++ cuts') = cuts ++ cut.insertInto cuts' := by
  induction cuts with
  | nil => rfl
  | cons c cuts ih =>
    obtain ⟨hc, hcuts⟩ := List.forall_mem_cons.mp hcuts
    rw [List.cons_append, insertInto, if_neg (StrictOrder.asymm hc), if_pos hc, ih hcuts]
    rfl

theorem insertInto_of_lt (hcuts : ∀ c ∈ cuts, cut.key < c.key) :
    cut.insertInto cuts = cut :: cuts := by
  cases cuts with
  | nil => rfl
  | cons c cuts => rw [insertInto, if_pos (hcuts c List.mem_cons_self)]

theorem insertInto_of_key (hkey : c.key = cut.key) :
    cut.insertInto (c :: cuts) = c.merge cut :: cuts := by
  rw [insertInto, hkey, if_neg (StrictOrder.irrefl _), if_neg (StrictOrder.irrefl _)]

/-- In a queue in order, a search by key leads to one place only. -/
theorem enters_iff (hcuts : cuts.Pairwise fun a b ↦ a.key < b.key) :
    cut.Enters cuts cuts' ↔ cuts' = cut.insertInto cuts := by
  constructor
  · rintro (@⟨before, after, c, hkey⟩ | @⟨before, after, hbefore, hafter⟩)
    · have hbefore : ∀ d ∈ before, d.key < cut.key := by
        intro d hd
        rw [← hkey]
        exact (List.pairwise_append.mp hcuts).2.2 d hd c List.mem_cons_self
      rw [insertInto_append_of_lt hbefore, insertInto_of_key hkey]
    · rw [insertInto_append_of_lt hbefore, insertInto_of_lt hafter]
  · rintro rfl
    induction cuts with
    | nil => exact .insert [] (List.forall_mem_nil _) (List.forall_mem_nil _)
    | cons c cuts ih =>
      obtain ⟨hc, hcuts⟩ := List.pairwise_cons.mp hcuts
      rw [insertInto]
      split
      · next hlt =>
        refine .insert [] (List.forall_mem_nil _) ?_
        exact List.forall_mem_cons.mpr ⟨hlt, fun d hd ↦ StrictOrder.trans hlt (hc d hd)⟩
      · split
        · next hgt => exact .cons hgt (ih hcuts)
        · next hlt hgt => exact .merge [] (StrictOrder.eq_of_not_lt hgt hlt)

/-! ## The queue as a map -/

/-- The meeting states of a cut, bound to its key. -/
def binding (cut : Cut) : CutKey × StateSet := (cut.key, cut.states)

theorem binding_injective : Function.Injective binding := by
  intro a b h
  obtain ⟨hkey, hstates⟩ := Prod.mk.inj h
  obtain ⟨-, hg, hh⟩ := CutKey.mk.inj hkey
  exact Cut.ext hg hh hstates

/-- What a queue in order binds to its keys. -/
def toMap (cuts : List Cut) (hcuts : cuts.Pairwise fun a b ↦ a.key < b.key) :
    SortedMap CutKey StateSet :=
  ⟨cuts.map binding, List.pairwise_map.mpr hcuts⟩

theorem toMap_injective (hcuts : cuts.Pairwise fun a b ↦ a.key < b.key)
    (hcuts' : cuts'.Pairwise fun a b ↦ a.key < b.key)
    (h : toMap cuts hcuts = toMap cuts' hcuts') : cuts = cuts' :=
  List.map_injective_iff.mpr binding_injective (congrArg SortedMap.entries h)

/-- Registering a cut adds its states to those of its key. -/
theorem toMap_insertInto (hcuts : cuts.Pairwise fun a b ↦ a.key < b.key) :
    toMap (cut.insertInto cuts) (pairwise_insertInto hcuts) =
      (toMap cuts hcuts).alter cut.key fun known ↦ some (known.getD ∅ ∪ cut.states) := by
  have hempty : ∅ ∪ cut.states = cut.states := by
    ext s
    simp
  refine SortedMap.ext ?_
  show (cut.insertInto cuts).map binding = SortedMap.alterEntries _ _ (cuts.map binding)
  clear hcuts
  induction cuts with
  | nil => simp [insertInto, SortedMap.alterEntries, binding, hempty]
  | cons c cuts ih =>
    rw [insertInto, List.map_cons, binding, SortedMap.alterEntries]
    split
    · simp [binding, hempty]
    · split
      · rw [List.map_cons, ih, binding]
      · next hlt hgt =>
        rw [StrictOrder.eq_of_not_lt hlt hgt]
        rfl

/-- The meeting states of the cut of a key, if it waits. -/
def statesAt (cuts : List Cut) (key : CutKey) : Option StateSet := (cuts.map binding).lookup key

variable {key : CutKey}

theorem statesAt_eq_get? (hcuts : cuts.Pairwise fun a b ↦ a.key < b.key) :
    statesAt cuts key = (toMap cuts hcuts).get? key := rfl

theorem statesAt_eq_some_iff (hcuts : cuts.Pairwise fun a b ↦ a.key < b.key) (cut : Cut) :
    statesAt cuts cut.key = some cut.states ↔ cut ∈ cuts := by
  rw [statesAt_eq_get? hcuts, SortedMap.get?_eq_some_iff]
  exact List.mem_map_of_injective binding_injective

theorem statesAt_insertInto (hcuts : cuts.Pairwise fun a b ↦ a.key < b.key) :
    statesAt (cut.insertInto cuts) key =
      if key = cut.key then some ((statesAt cuts cut.key).getD ∅ ∪ cut.states)
      else statesAt cuts key := by
  rw [statesAt_eq_get? (pairwise_insertInto hcuts), toMap_insertInto hcuts, SortedMap.get?_alter]
  rfl

/-- Queues in order that have the same states at all keys are equal. -/
theorem eq_of_statesAt (hcuts : cuts.Pairwise fun a b ↦ a.key < b.key)
    (hcuts' : cuts'.Pairwise fun a b ↦ a.key < b.key)
    (h : ∀ key, statesAt cuts key = statesAt cuts' key) : cuts = cuts' :=
  toMap_injective hcuts hcuts' (SortedMap.ext_get? h)

/-- It does not matter which of two cuts is registered first. -/
theorem insertInto_comm (hcuts : cuts.Pairwise fun a b ↦ a.key < b.key) (a b : Cut) :
    a.insertInto (b.insertInto cuts) = b.insertInto (a.insertInto cuts) := by
  have ha : (a.insertInto cuts).Pairwise fun a b ↦ a.key < b.key := pairwise_insertInto hcuts
  have hb : (b.insertInto cuts).Pairwise fun a b ↦ a.key < b.key := pairwise_insertInto hcuts
  refine eq_of_statesAt (pairwise_insertInto hb) (pairwise_insertInto ha) fun key ↦ ?_
  rw [statesAt_insertInto hb, statesAt_insertInto ha]
  simp only [statesAt_insertInto hcuts]
  by_cases hsame : a.key = b.key
  · have hunion : ∀ S : StateSet, S ∪ b.states ∪ a.states = S ∪ a.states ∪ b.states := by
      intro S
      ext s
      simp only [StateSet.mem_union]
      exact or_right_comm
    simp only [hsame, if_true, Option.getD_some, hunion]
    split_ifs <;> rfl
  · rw [if_neg hsame, if_neg (Ne.symm hsame)]
    by_cases hkey : key = a.key
    · rw [if_pos hkey, if_pos hkey, if_neg (hkey ▸ hsame)]
    · rw [if_neg hkey, if_neg hkey]

end Cut

/-! ## Histories -/

/-- The states that a call registers at these costs, if it does. -/
def RegistryCall.statesAt? (g h : Int) : RegistryCall → Option StateSet
  | .register cut => if cut.Valid ∧ cut.g = g ∧ cut.h = h then some cut.states else none
  | .construct _ _ => none

/-- The sets of states that the calls register at these costs. -/
def registeredStates (g h : Int) (calls : List RegistryCall) : List StateSet :=
  calls.filterMap (RegistryCall.statesAt? g h)

theorem registeredStates_concat_register (g h : Int) (calls : List RegistryCall) (cut : Cut) :
    registeredStates g h (calls ++ [.register cut]) =
      registeredStates g h calls ++
        if cut.Valid ∧ cut.g = g ∧ cut.h = h then [cut.states] else [] := by
  rw [registeredStates, List.filterMap_append, ← registeredStates]
  split
  · next hcut => simp [RegistryCall.statesAt?, hcut]
  · next hcut => simp [RegistryCall.statesAt?, hcut]

theorem registeredStates_concat_construct (g h : Int) (calls : List RegistryCall) (bound : Int)
    (view : LayerView) :
    registeredStates g h (calls ++ [.construct bound view]) = registeredStates g h calls := by
  rw [registeredStates, List.filterMap_append]
  exact List.append_nil _

namespace CutRegistry

variable {σ : Type} {registry start : CutRegistry σ} {cut : Cut} {cuts cuts' : List Cut}

theorem register_of_valid (registry : CutRegistry σ) (hcut : cut.Valid) :
    registry.register cut = .ok { registry with cuts := cut.insertInto registry.cuts } := by
  obtain ⟨hg, hh, hmax⟩ := hcut
  rw [register, if_neg (not_or.mpr ⟨Int.not_lt.mpr hg, Int.not_lt.mpr hh⟩),
    if_neg (Int.not_lt.mpr hmax)]

theorem exists_register_error (registry : CutRegistry σ) (hcut : ¬ cut.Valid) :
    ∃ detail, registry.register cut = .error (.invalidCut cut.g cut.h detail) := by
  rw [register]
  split
  · exact ⟨_, rfl⟩
  · next hneg =>
    split
    · exact ⟨_, rfl⟩
    · next hmax =>
      obtain ⟨hg, hh⟩ := not_or.mp hneg
      exact absurd ⟨Int.not_lt.mp hg, Int.not_lt.mp hh, Int.not_lt.mp hmax⟩ hcut

/-- A queue in order: the keys ascend, and the costs are exact. -/
structure Ordered (registry : CutRegistry σ) : Prop where
  ascending : registry.cuts.Pairwise fun a b ↦ a.key < b.key
  valid : ∀ cut ∈ registry.cuts, cut.Valid

namespace Ordered

theorem ofStore (store : σ) (singleSolution : Bool) : (ofStore store singleSolution).Ordered :=
  ⟨.nil, List.forall_mem_nil _⟩

theorem nodup_keys (hordered : registry.Ordered) : (registry.cuts.map Cut.key).Nodup := by
  rw [List.Nodup, List.pairwise_map]
  exact hordered.ascending.imp StrictOrder.ne

/-- The key of a cut that waits is made of its costs. -/
theorem key_eq (hordered : registry.Ordered) (hcut : cut ∈ registry.cuts) :
    cut.key = ⟨cut.g + cut.h, cut.g, cut.h⟩ := by
  rw [Cut.key, (hordered.valid cut hcut).f_eq]

/-- No two cuts that wait have the same costs. -/
theorem eq_of_costs (hordered : registry.Ordered) {a b : Cut} (ha : a ∈ registry.cuts)
    (hb : b ∈ registry.cuts) (hg : a.g = b.g) (hh : a.h = b.h) : a = b := by
  have hkey : a.key = b.key := by rw [hordered.key_eq ha, hordered.key_eq hb, hg, hh]
  have hstates : some a.states = some b.states := by
    rw [← (Cut.statesAt_eq_some_iff hordered.ascending a).mpr ha,
      ← (Cut.statesAt_eq_some_iff hordered.ascending b).mpr hb, hkey]
  exact Cut.ext hg hh (Option.some.inj hstates)

end Ordered

variable [PlanStore σ] {calls before recent : List RegistryCall} {call : RegistryCall} {g h : Int}

/-! ## What calls do to the queue -/

theorem answer_register_of_valid (registry : CutRegistry σ) (hcut : cut.Valid) :
    registry.answer (.register cut) =
      (.ok (), { registry with cuts := cut.insertInto registry.cuts }) := by
  rw [answer, register_of_valid registry hcut]

theorem exists_answer_register_error (registry : CutRegistry σ) (hcut : ¬ cut.Valid) :
    ∃ detail, registry.answer (.register cut) =
      (.error (.invalidCut cut.g cut.h detail), registry) := by
  obtain ⟨detail, hrefused⟩ := exists_register_error registry hcut
  exact ⟨detail, by rw [answer, hrefused]⟩

/-- Registering a cut changes nothing but the queue, and that only if the cut is valid. -/
theorem snd_answer_register (registry : CutRegistry σ) (cut : Cut) :
    (registry.answer (.register cut)).2 =
      if cut.Valid then { registry with cuts := cut.insertInto registry.cuts } else registry := by
  split
  · next hcut => rw [answer_register_of_valid registry hcut]
  · next hcut =>
    obtain ⟨detail, hrefused⟩ := exists_answer_register_error registry hcut
    rw [hrefused]

/-- Constructing only takes cuts off the front of the queue. -/
theorem cuts_construct (registry : CutRegistry σ) (bound : Int) (view : LayerView) :
    (registry.construct bound view).2.cuts <:+ registry.cuts := by
  refine construct_induction (P := fun later ↦ later.cuts <:+ registry.cuts) ?_ ?_
    (fun _ _ h ↦ h) (List.suffix_refl _)
  · intro later next hlater hdecides
    cases hdecides with
    | drop hup | reconstruct hup =>
      rw [hup.cuts] at hlater
      exact (List.suffix_cons _ _).trans hlater
  · intro later result last hlater hstops
    cases hstops <;> exact hlater

namespace Ordered

theorem answer (hordered : registry.Ordered) (call : RegistryCall) :
    (registry.answer call).2.Ordered := by
  cases call with
  | register cut =>
    rw [snd_answer_register]
    split
    · next hcut =>
      refine ⟨Cut.pairwise_insertInto hordered.ascending, ?_⟩
      intro c hc
      rcases Cut.key_of_mem_insertInto hc with hkey | hc
      · exact Cut.valid_of_key hkey hcut
      · exact hordered.valid c hc
    · exact hordered
  | construct bound view =>
    have hsuffix := cuts_construct registry bound view
    exact ⟨hordered.ascending.sublist hsuffix.sublist,
      fun cut hcut ↦ hordered.valid cut (hsuffix.subset hcut)⟩

theorem after (hordered : registry.Ordered) (calls : List RegistryCall) :
    (registry.after calls).Ordered := by
  induction calls using List.reverseRecOn with
  | nil => exact hordered
  | append_singleton calls call ih =>
    rw [after_concat]
    exact ih.answer call

/-- The queue does not depend on the order of registrations. -/
theorem after_perm (hordered : registry.Ordered) (hperm : cuts.Perm cuts') :
    registry.after (cuts.map .register) = registry.after (cuts'.map .register) := by
  induction hperm generalizing registry with
  | nil => rfl
  | cons cut _ ih => exact ih (hordered.answer _)
  | swap a b cuts =>
    -- If both cuts are valid their insertions commute; one that is refused changes nothing.
    have hswap : ((registry.answer (.register b)).2.answer (.register a)).2 =
        ((registry.answer (.register a)).2.answer (.register b)).2 := by
      simp only [snd_answer_register]
      split_ifs
      · rw [Cut.insertInto_comm hordered.ascending]
      all_goals rfl
    exact congrArg (fun later ↦ CutRegistry.after later (cuts.map .register)) hswap
  | trans _ _ ih ih' => exact (ih hordered).trans (ih' hordered)

end Ordered

/-! ## How many cuts wait -/

/-- No valid cut is refused. -/
theorem succeeds_registers (hvalid : ∀ cut ∈ cuts, cut.Valid) :
    registry.Succeeds (cuts.map .register) := by
  induction cuts using List.reverseRecOn with
  | nil => exact List.forall_mem_nil _
  | append_singleton cuts cut ih =>
    rw [List.forall_mem_append, List.forall_mem_singleton] at hvalid
    rw [List.map_append, List.map_singleton, succeeds_concat,
      answer_register_of_valid _ hvalid.2]
    exact ⟨ih hvalid.1, rfl⟩

/-- The keys that wait are those from before and those registered. -/
theorem mem_keys_registers (hvalid : ∀ cut ∈ cuts, cut.Valid) {key : CutKey} :
    key ∈ (registry.after (cuts.map .register)).cuts.map Cut.key ↔
      key ∈ registry.cuts.map Cut.key ∨ key ∈ cuts.map Cut.key := by
  induction cuts using List.reverseRecOn with
  | nil => simp [after]
  | append_singleton cuts cut ih =>
    rw [List.forall_mem_append, List.forall_mem_singleton] at hvalid
    rw [List.map_append, List.map_singleton, after_concat, answer_register_of_valid _ hvalid.2,
      Cut.mem_keys_insertInto, ih hvalid.1, List.map_append, List.mem_append, List.map_singleton,
      List.mem_singleton, or_comm, or_assoc]

/-- One entry is left for each key. -/
theorem length_cuts_registers (store : σ) (singleSolution : Bool)
    (hvalid : ∀ cut ∈ cuts, cut.Valid) :
    ((ofStore store singleSolution).after (cuts.map .register)).cuts.length =
      (cuts.map Cut.key).toFinset.card := by
  have hordered := (Ordered.ofStore store singleSolution).after (cuts.map .register)
  rw [← List.length_map Cut.key, ← List.toFinset_card_of_nodup hordered.nodup_keys]
  congr 1
  ext key
  rw [List.mem_toFinset, List.mem_toFinset, mem_keys_registers hvalid]
  exact or_iff_right List.not_mem_nil

/-! ## What waits -/

/-- The call takes the cut of these costs off the queue. -/
def Removes (registry : CutRegistry σ) (g h : Int) (call : RegistryCall) : Prop :=
  (∃ S, ⟨g, h, S⟩ ∈ registry.cuts) ∧
    ¬ ∃ S, ⟨g, h, S⟩ ∈ (registry.answer call).2.cuts

/-- The recent calls are those since a cut of these costs was last taken off the queue. -/
structure SinceRemoval (start : CutRegistry σ) (g h : Int) (before recent : List RegistryCall) :
    Prop where
  removed : before = [] ∨
    ∃ calls call, before = calls ++ [call] ∧ (start.after calls).Removes g h call
  kept : ∀ calls call rest, recent = calls ++ call :: rest →
    ¬ (start.after (before ++ calls)).Removes g h call

namespace SinceRemoval

theorem of_append (hsince : start.SinceRemoval g h before (recent ++ calls)) :
    start.SinceRemoval g h before recent := by
  refine ⟨hsince.removed, ?_⟩
  rintro earlier call rest rfl
  exact hsince.kept earlier call (rest ++ calls) (List.append_assoc _ _ _)

/-- There is a last removal, or none. -/
theorem exists_split (start : CutRegistry σ) (g h : Int) (calls : List RegistryCall) :
    ∃ before recent, calls = before ++ recent ∧ start.SinceRemoval g h before recent := by
  induction calls using List.reverseRecOn with
  | nil => exact ⟨[], [], rfl, .inl rfl, by simp⟩
  | append_singleton calls call ih =>
    -- A last call that takes the cut off is the last removal; any other call is one more since
    -- then.
    by_cases hremoves : (start.after calls).Removes g h call
    · exact ⟨calls ++ [call], [], (List.append_nil _).symm,
        .inr ⟨calls, call, rfl, hremoves⟩, by simp⟩
    · obtain ⟨before, recent, rfl, hremoved, hkept⟩ := ih
      refine ⟨before, recent ++ [call], List.append_assoc _ _ _, hremoved, ?_⟩
      intro earlier last rest heq
      cases rest using List.reverseRecOn with
      | nil =>
        obtain ⟨rfl, hlast⟩ := List.append_inj' heq rfl
        rw [List.singleton_inj] at hlast
        rwa [← hlast]
      | append_singleton rest last' =>
        rw [← List.cons_append, ← List.append_assoc] at heq
        exact hkept earlier last rest (List.append_inj' heq rfl).1

end SinceRemoval

namespace Ordered

/-- A valid cut adds its states to those at its costs. -/
theorem statesAt_register (hordered : registry.Ordered) (g h : Int) (cut : Cut) :
    Cut.statesAt (registry.answer (.register cut)).2.cuts (.ofCosts g h) =
      if cut.Valid ∧ cut.g = g ∧ cut.h = h then
        some ((Cut.statesAt registry.cuts (.ofCosts g h)).getD ∅ ∪ cut.states)
      else Cut.statesAt registry.cuts (.ofCosts g h) := by
  rw [snd_answer_register]
  by_cases hcut : cut.Valid
  · rw [if_pos hcut, Cut.statesAt_insertInto hordered.ascending]
    by_cases hcosts : cut.g = g ∧ cut.h = h
    · have hkey := Cut.key_eq_ofCosts_iff.mpr hcosts
      rw [if_pos hkey.symm, if_pos ⟨hcut, hcosts⟩, hkey]
    · have hkey := mt Cut.key_eq_ofCosts_iff.mp hcosts
      rw [if_neg (Ne.symm hkey), if_neg fun hall ↦ hcosts hall.2]
  · rw [if_neg hcut, if_neg fun hall ↦ hcut hall.1]

/-- A construction that does not take off the cut of these costs leaves it as it is. -/
theorem statesAt_construct (hordered : registry.Ordered) {bound : Int} {view : LayerView}
    (hkept : ¬ registry.Removes g h (.construct bound view)) :
    Cut.statesAt (registry.construct bound view).2.cuts (.ofCosts g h) =
      Cut.statesAt registry.cuts (.ofCosts g h) := by
  have hsuffix := cuts_construct registry bound view
  have hordered' : (registry.construct bound view).2.Ordered :=
    hordered.answer (.construct bound view)
  ext S
  have hbefore := Cut.statesAt_eq_some_iff hordered.ascending ⟨g, h, S⟩
  have hafter := Cut.statesAt_eq_some_iff hordered'.ascending ⟨g, h, S⟩
  -- Some cut of these costs stays, and in the queue before there was only one.
  refine hafter.trans (Iff.trans ⟨fun hcut ↦ hsuffix.subset hcut, ?_⟩ hbefore.symm)
  intro hcut
  obtain ⟨T, hT⟩ := not_not.mp (not_and.mp hkept ⟨S, hcut⟩)
  rwa [hordered.eq_of_costs hcut (hsuffix.subset hT) rfl rfl]

end Ordered

/-- What waits is what has been registered since the last removal. -/
theorem SinceRemoval.statesAt_eq {store : σ} {singleSolution : Bool}
    (hsince : (ofStore store singleSolution).SinceRemoval g h before recent) :
    Cut.statesAt ((ofStore store singleSolution).after (before ++ recent)).cuts (.ofCosts g h) =
      StateSet.unions? (registeredStates g h recent) := by
  have hordered : ∀ calls, ((ofStore store singleSolution).after calls).Ordered :=
    (Ordered.ofStore store singleSolution).after
  induction recent using List.reverseRecOn with
  | nil =>
    have hnone : ∀ S, ⟨g, h, S⟩ ∉ ((ofStore store singleSolution).after before).cuts := by
      rcases hsince.removed with rfl | ⟨calls, call, rfl, -, hgone⟩
      · exact fun S ↦ List.not_mem_nil
      · rw [after_concat]
        exact not_exists.mp hgone
    rw [List.append_nil]
    refine Option.eq_none_iff_forall_ne_some.mpr fun S hS ↦ hnone S ?_
    exact (Cut.statesAt_eq_some_iff (hordered before).ascending ⟨g, h, S⟩).mp hS
  | append_singleton recent call ih =>
    rw [← List.append_assoc, after_concat]
    cases call with
    | register cut =>
      rw [(hordered _).statesAt_register, ih hsince.of_append, registeredStates_concat_register]
      split
      · rw [StateSet.unions?_concat]
      · rw [List.append_nil]
    | construct bound view =>
      rw [registeredStates_concat_construct, ← ih hsince.of_append]
      exact (hordered _).statesAt_construct (hsince.kept recent _ [] rfl)

/-- After any history of calls the queue is in order, with exact costs, and one cut at most for each
pair of costs.  At each pair of costs there waits what has been registered there since the last
removal.  A valid cut is put where a search by key leads, and an invalid one is refused and changes
nothing.  Constructing takes cuts off the front only, and the order of registrations does not
matter. -/
theorem queue_after (store : σ) (singleSolution : Bool) (calls : List RegistryCall) :
    let start := ofStore store singleSolution
    let registry := start.after calls
    registry.cuts.Pairwise (fun a b ↦ a.key < b.key) ∧
    (∀ cut ∈ registry.cuts, cut.key = ⟨cut.g + cut.h, cut.g, cut.h⟩) ∧
    (∀ a ∈ registry.cuts, ∀ b ∈ registry.cuts, a.g = b.g → a.h = b.h → a = b) ∧
    (∀ g h, ∃ before recent, calls = before ++ recent ∧
      start.SinceRemoval g h before recent ∧
      ∀ S, ⟨g, h, S⟩ ∈ registry.cuts ↔
        registeredStates g h recent ≠ [] ∧
          S = StateSet.unions (registeredStates g h recent)) ∧
    (∀ cut, cut.Valid → ∃ queue, cut.Enters registry.cuts queue ∧
      registry.answer (.register cut) = (.ok (), { registry with cuts := queue })) ∧
    (∀ cut, ¬ cut.Valid → ∃ detail,
      registry.answer (.register cut) = (.error (.invalidCut cut.g cut.h detail), registry)) ∧
    (∀ bound view, (registry.answer (.construct bound view)).2.cuts <:+ registry.cuts) ∧
    ∀ cuts cuts' : List Cut, cuts.Perm cuts' →
      registry.after (cuts.map .register) = registry.after (cuts'.map .register) := by
  intro start registry
  have hordered : registry.Ordered := (Ordered.ofStore store singleSolution).after calls
  refine ⟨hordered.ascending, fun cut hcut ↦ hordered.key_eq hcut,
    fun a ha b hb hg hh ↦ hordered.eq_of_costs ha hb hg hh, ?_, ?_,
    fun cut hcut ↦ exists_answer_register_error registry hcut, cuts_construct registry,
    fun cuts cuts' hperm ↦ hordered.after_perm hperm⟩
  · intro g h
    obtain ⟨before, recent, hcalls, hsince⟩ := SinceRemoval.exists_split start g h calls
    refine ⟨before, recent, hcalls, hsince, fun S ↦ ?_⟩
    have hstates := hsince.statesAt_eq
    rw [← hcalls] at hstates
    rw [← StateSet.unions?_eq_some_iff, ← hstates]
    exact (Cut.statesAt_eq_some_iff hordered.ascending ⟨g, h, S⟩).symm
  · intro cut hcut
    exact ⟨_, (Cut.enters_iff hordered.ascending).mpr rfl,
      answer_register_of_valid registry hcut⟩

end CutRegistry

end LayeredPlanning
