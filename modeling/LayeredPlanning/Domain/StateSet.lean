import LayeredPlanning.Domain.State

/-!
# Finite sets of states

A `StateSet` lists its members in strictly ascending order, so that a set has one representation
and enumeration is deterministic.  Membership is the view: each operation has one law about `∈`,
and `ext` says that sets with the same members are equal.
-/

namespace LayeredPlanning

/-- A finite set of states, listed in strictly ascending order. -/
structure StateSet where
  /-- The members. -/
  toList : List State
  /-- Members ascend strictly. -/
  ascending : toList.Pairwise (· < ·)
deriving DecidableEq

namespace StateSet

instance instMembership : Membership State StateSet := ⟨fun S s ↦ s ∈ S.toList⟩

instance instDecidableMem (s : State) (S : StateSet) : Decidable (s ∈ S) :=
  inferInstanceAs (Decidable (s ∈ S.toList))

/-- Membership is membership in the listing. -/
@[simp] theorem mem_toList {s : State} {S : StateSet} : s ∈ S.toList ↔ s ∈ S := .rfl

/-- The set without members. -/
def empty : StateSet := ⟨[], .nil⟩

instance instEmptyCollection : EmptyCollection StateSet := ⟨empty⟩

instance instInhabited : Inhabited StateSet := ⟨∅⟩

/-- The set of one state. -/
def singleton (s : State) : StateSet := ⟨[s], by simp⟩

/-- Whether the set has no members. -/
def isEmpty (S : StateSet) : Bool := S.toList.isEmpty

/-- Whether `s` is a member. -/
def contains (S : StateSet) (s : State) : Bool := decide (s ∈ S)

/-- The number of members. -/
def size (S : StateSet) : Nat := S.toList.length

/-- Puts `s` in its place in an ascending list, unless it is there. -/
def insertInto (s : State) : List State → List State
  | [] => [s]
  | t :: ts => if s < t then s :: t :: ts else if t < s then t :: insertInto s ts else t :: ts

/-- An insertion adds one member. -/
@[simp] theorem mem_insertInto {s t : State} {ts : List State} :
    t ∈ insertInto s ts ↔ t = s ∨ t ∈ ts := by
  induction ts with
  | nil => simp [insertInto]
  | cons u us ih =>
    simp only [insertInto]
    split
    · simp
    · split
      · simp only [List.mem_cons, ih]
        exact or_left_comm
      · next h h' =>
        obtain rfl : s = u := StrictOrder.eq_of_not_lt h h'
        simp

/-- An insertion keeps the order. -/
theorem pairwise_insertInto {s : State} {ts : List State} (h : ts.Pairwise (· < ·)) :
    (insertInto s ts).Pairwise (· < ·) := by
  induction ts with
  | nil => simp [insertInto]
  | cons u us ih =>
    obtain ⟨hu, hus⟩ := List.pairwise_cons.mp h
    simp only [insertInto]
    split
    · next hsu =>
      refine List.pairwise_cons.mpr ⟨fun t ht ↦ ?_, h⟩
      rcases List.mem_cons.mp ht with rfl | ht
      · exact hsu
      · exact StrictOrder.trans hsu (hu t ht)
    · split
      · next hus' =>
        refine List.pairwise_cons.mpr ⟨fun t ht ↦ ?_, ih hus⟩
        rcases mem_insertInto.mp ht with rfl | ht
        · exact hus'
        · exact hu t ht
      · exact h

/-- The set with `s` added. -/
def insert (s : State) (S : StateSet) : StateSet :=
  ⟨insertInto s S.toList, pairwise_insertInto S.ascending⟩

/-- The set of the listed states, in any order and with repeats allowed. -/
def ofList (ss : List State) : StateSet := ss.foldr insert ∅

/-- All members of either set. -/
def union (S T : StateSet) : StateSet := T.toList.foldr insert S

/-- The members that satisfy `p`. -/
def filter (p : State → Bool) (S : StateSet) : StateSet :=
  ⟨S.toList.filter p, S.ascending.filter p⟩

instance instUnion : Union StateSet := ⟨union⟩

instance instInter : Inter StateSet := ⟨fun S T ↦ S.filter T.contains⟩

instance instSDiff : SDiff StateSet := ⟨fun S T ↦ S.filter fun s ↦ !T.contains s⟩

/-- The union of a list of sets. -/
def unions (Ss : List StateSet) : StateSet := Ss.foldl (· ∪ ·) ∅

/-! ## Laws -/

/-- `contains` decides membership. -/
@[simp] theorem contains_eq_true {S : StateSet} {s : State} : S.contains s = true ↔ s ∈ S :=
  decide_eq_true_iff

/-- `contains` refutes membership. -/
@[simp] theorem contains_eq_false {S : StateSet} {s : State} : S.contains s = false ↔ s ∉ S :=
  decide_eq_false_iff_not

/-- The empty set has no members. -/
@[simp] theorem notMem_empty (s : State) : s ∉ (∅ : StateSet) := List.not_mem_nil

/-- A singleton has one member. -/
@[simp] theorem mem_singleton {s t : State} : t ∈ singleton s ↔ t = s := List.mem_singleton

/-- An insertion adds one member. -/
@[simp] theorem mem_insert {s t : State} {S : StateSet} : t ∈ S.insert s ↔ t = s ∨ t ∈ S :=
  mem_insertInto

/-- Inserting a list of states adds them all. -/
theorem mem_foldr_insert {ss : List State} {S : StateSet} {t : State} :
    t ∈ ss.foldr insert S ↔ t ∈ ss ∨ t ∈ S := by
  induction ss with
  | nil => simp
  | cons s ss ih => simp [ih, or_assoc]

/-- The set of a list has the members of the list. -/
@[simp] theorem mem_ofList {ss : List State} {t : State} : t ∈ ofList ss ↔ t ∈ ss := by
  simp [ofList, mem_foldr_insert]

/-- A union has the members of both sets. -/
@[simp] theorem mem_union {S T : StateSet} {t : State} : t ∈ S ∪ T ↔ t ∈ S ∨ t ∈ T := by
  show t ∈ T.toList.foldr insert S ↔ _
  rw [mem_foldr_insert, mem_toList, or_comm]

/-- A filtered set has the members that pass. -/
@[simp] theorem mem_filter {p : State → Bool} {S : StateSet} {t : State} :
    t ∈ S.filter p ↔ t ∈ S ∧ p t = true :=
  List.mem_filter

/-- An intersection has the common members. -/
@[simp] theorem mem_inter {S T : StateSet} {t : State} : t ∈ S ∩ T ↔ t ∈ S ∧ t ∈ T := by
  show t ∈ S.filter T.contains ↔ _
  simp

/-- A difference has the members of the first set that the second lacks. -/
@[simp] theorem mem_sdiff {S T : StateSet} {t : State} : t ∈ S \ T ↔ t ∈ S ∧ t ∉ T := by
  show t ∈ S.filter (fun s ↦ !T.contains s) ↔ _
  simp

/-- A union of many sets has the members of each. -/
@[simp] theorem mem_unions {Ss : List StateSet} {t : State} :
    t ∈ unions Ss ↔ ∃ S ∈ Ss, t ∈ S := by
  have foldl_iff : ∀ T : StateSet, t ∈ Ss.foldl (· ∪ ·) T ↔
      t ∈ T ∨ ∃ S ∈ Ss, t ∈ S := by
    induction Ss with
    | nil => simp
    | cons S Ss ih => simp [ih, or_assoc]
  simp [unions, foldl_iff]

/-- A set is listed as empty exactly if it has no members. -/
theorem isEmpty_iff {S : StateSet} : S.isEmpty = true ↔ ∀ s, s ∉ S := by
  rw [isEmpty, List.isEmpty_iff, List.eq_nil_iff_forall_not_mem]
  rfl

/-- A set that is not listed as empty has a member. -/
theorem isEmpty_eq_false_iff {S : StateSet} : S.isEmpty = false ↔ ∃ s, s ∈ S := by
  rw [← Bool.not_eq_true, isEmpty_iff]
  simp

/-- Ascending lists with the same members are equal. -/
theorem eq_of_pairwise_of_mem_iff {ss ts : List State} (hs : ss.Pairwise (· < ·))
    (ht : ts.Pairwise (· < ·)) (h : ∀ u, u ∈ ss ↔ u ∈ ts) : ss = ts := by
  induction ss generalizing ts with
  | nil => exact (List.eq_nil_iff_forall_not_mem.mpr fun u hu ↦ nomatch (h u).mpr hu).symm
  | cons s ss ih =>
    cases ts with
    | nil => exact absurd ((h s).mp List.mem_cons_self) List.not_mem_nil
    | cons t ts =>
      obtain ⟨hs1, hs2⟩ := List.pairwise_cons.mp hs
      obtain ⟨ht1, ht2⟩ := List.pairwise_cons.mp ht
      obtain rfl : s = t := by
        rcases List.mem_cons.mp ((h s).mp List.mem_cons_self) with h1 | h1
        · exact h1
        rcases List.mem_cons.mp ((h t).mpr List.mem_cons_self) with h2 | h2
        · exact h2.symm
        · exact absurd (hs1 _ h2) (StrictOrder.asymm (ht1 _ h1))
      refine congrArg (s :: ·) (ih hs2 ht2 fun u ↦ ?_)
      constructor
      · intro hu
        exact ((List.mem_cons.mp ((h u).mp (List.mem_cons_of_mem _ hu))).resolve_left
          (StrictOrder.ne (hs1 u hu)).symm)
      · intro hu
        exact ((List.mem_cons.mp ((h u).mpr (List.mem_cons_of_mem _ hu))).resolve_left
          (StrictOrder.ne (ht1 u hu)).symm)

/-- Sets with the same members are equal. -/
@[ext] theorem ext {S T : StateSet} (h : ∀ s, s ∈ S ↔ s ∈ T) : S = T := by
  obtain ⟨ss, hs⟩ := S
  obtain ⟨ts, ht⟩ := T
  obtain rfl : ss = ts := eq_of_pairwise_of_mem_iff hs ht h
  rfl

/-- A filter that keeps less, and loses a member, leaves a smaller set. -/
theorem size_filter_lt {S : StateSet} {p q : State → Bool}
    (hpq : ∀ s ∈ S, p s = true → q s = true) {t : State} (ht : t ∈ S) (hq : q t = true)
    (hp : p t = false) : (S.filter p).size < (S.filter q).size := by
  obtain ⟨ss, _⟩ := S
  show (ss.filter p).length < (ss.filter q).length
  have le_of_imp : ∀ us : List State, (∀ s ∈ us, p s = true → q s = true) →
      (us.filter p).length ≤ (us.filter q).length := fun us h ↦ by
    rw [← List.countP_eq_length_filter, ← List.countP_eq_length_filter]
    exact List.countP_mono_left h
  replace ht : t ∈ ss := ht
  replace hpq : ∀ s ∈ ss, p s = true → q s = true := hpq
  obtain ⟨us, vs, rfl⟩ := List.append_of_mem ht
  have hus := le_of_imp us fun s hs ↦ hpq s (List.mem_append_left _ hs)
  have hvs := le_of_imp vs fun s hs ↦
    hpq s (List.mem_append_right _ (List.mem_cons_of_mem _ hs))
  simp only [List.filter_append, List.filter_cons, hp, hq, List.length_append, List.length_cons,
    if_true, Bool.false_eq_true, if_false]
  omega

/-- Removing more, among it a member of the set, leaves less. -/
theorem size_sdiff_lt {S T U : StateSet} (hTU : ∀ s ∈ T, s ∈ U) {t : State} (ht : t ∈ S)
    (hT : t ∉ T) (hU : t ∈ U) : (S \ U).size < (S \ T).size :=
  size_filter_lt (fun s _ hs ↦ by simpa using fun h ↦ by simp [hTU s h] at hs) ht
    (by simpa using hT) (by simpa using hU)

/-- Members are listed once. -/
theorem nodup_toList (S : StateSet) : S.toList.Nodup :=
  S.ascending.imp fun h ↦ StrictOrder.ne h

end StateSet

end LayeredPlanning
