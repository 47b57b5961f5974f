import LayeredPlanning.Proofs.Layers.Costs
import Mathlib.Data.List.Induction
import Mathlib.Logic.Function.Basic
import Mathlib.Order.Bounds.Basic

/-!
# Recording layers

Layers are recorded sub-layer by sub-layer or a whole layer at a time (`ClosedLayers.Record`).  The
plain account of what has been recorded is a list of sub-layers for each cost, in which the empty
ones are left out (`Record.note`).

`ClosedLayers` keeps entries for some costs only, and a call may add an entry, change it or remove
it.  What it does to the entry of its cost is what it does to the account (`Keeps.alter`), so after
any calls the entries are those of the account at the costs where it has anything (`keeps_after`).
Everything that is read off closed layers follows from that: `represents_after`.
-/

namespace LayeredPlanning

namespace ClosedLayers

/-- A call that records sub-layers. -/
inductive Record where
  /-- Puts one more sub-layer behind those of a cost. -/
  | push (cost : Int) (states : StateSet)
  /-- Puts sub-layers in the place of those of a cost. -/
  | replace (cost : Int) (sublayers : List StateSet)

/-- The closed layers after one more call. -/
def record (closed : ClosedLayers) : Record → ClosedLayers
  | .push cost states => closed.pushSublayer cost states
  | .replace cost sublayers => closed.replaceLayer cost sublayers

/-- The closed layers after some calls. -/
def after (records : List Record) : ClosedLayers := records.foldl record ∅

/-- The sub-layers that are not empty. -/
def nonEmpty (Ls : List StateSet) : List StateSet := Ls.filter fun L ↦ !L.isEmpty

/-- What a call adds to, or puts in the place of, the sub-layers of its cost. -/
def Record.note (account : Int → List StateSet) : Record → Int → List StateSet
  | .push cost states => Function.update account cost (account cost ++ nonEmpty [states])
  | .replace cost sublayers => Function.update account cost (nonEmpty sublayers)

/-- The sub-layers of each cost after some calls. -/
def accountOf (records : List Record) : Int → List StateSet :=
  records.foldl Record.note fun _ ↦ []

variable {closed : ClosedLayers} {account : Int → List StateSet} {c cost : Int}
  {s : State} {i : Nat} {Ls : List StateSet}

theorem mem_nonEmpty {L : StateSet} : L ∈ nonEmpty Ls ↔ L ∈ Ls ∧ L.isEmpty = false := by
  rw [nonEmpty, List.mem_filter, Bool.not_eq_true']

/-! ## Entries -/

/-- There is an entry for each cost at which the account has sub-layers, and for no other; none of
the sub-layers is empty. -/
structure Keeps (closed : ClosedLayers) (account : Int → List StateSet) : Prop where
  get? : ∀ c, closed.layers.get? c = if account c = [] then none else some (account c)
  occupied : ∀ c, ∀ L ∈ account c, L.isEmpty = false

namespace Keeps

theorem sublayers (h : closed.Keeps account) (c : Int) : closed.sublayers c = account c := by
  rw [ClosedLayers.sublayers, h.get?]
  split
  · next hnone => rw [hnone, Option.getD_none]
  · rw [Option.getD_some]

/-- An entry may be added, changed or removed, as long as the account follows. -/
theorem alter (h : closed.Keeps account) {f : Option (List StateSet) → Option (List StateSet)}
    (hf : f (closed.layers.get? cost) = if Ls = [] then none else some Ls)
    (hLs : ∀ L ∈ Ls, L.isEmpty = false) :
    Keeps ⟨closed.layers.alter cost f⟩ (Function.update account cost Ls) where
  get? c := by
    show (closed.layers.alter cost f).get? c = _
    rw [SortedMap.get?_alter]
    by_cases hc : c = cost
    · rw [if_pos hc, hf, hc, Function.update_self]
    · rw [if_neg hc, h.get?, Function.update_of_ne hc]
  occupied c := by
    by_cases hc : c = cost
    · rwa [hc, Function.update_self]
    · rw [Function.update_of_ne hc]
      exact h.occupied c

theorem push (h : closed.Keeps account) (cost : Int) (states : StateSet) :
    (closed.pushSublayer cost states).Keeps (Record.note account (.push cost states)) := by
  rw [pushSublayer, Record.note]
  split
  · next hempty =>
    have hnone : nonEmpty [states] = [] := by simp [nonEmpty, hempty]
    rwa [hnone, List.append_nil, Function.update_eq_self]
  · next hempty =>
    rw [Bool.not_eq_true] at hempty
    have hone : nonEmpty [states] = [states] := by simp [nonEmpty, hempty]
    rw [hone]
    refine h.alter ?_ ?_
    · show some (closed.sublayers cost ++ [states]) = _
      rw [h.sublayers, if_neg (List.append_ne_nil_of_right_ne_nil _ (List.cons_ne_nil _ _))]
    · intro L hL
      rcases List.mem_append.mp hL with hL | hL
      · exact h.occupied cost L hL
      · rwa [List.mem_singleton.mp hL]

theorem replace (h : closed.Keeps account) (cost : Int) (sublayers : List StateSet) :
    (closed.replaceLayer cost sublayers).Keeps (Record.note account (.replace cost sublayers)) :=
  h.alter (if_congr List.isEmpty_iff rfl rfl) fun _ hL ↦ (mem_nonEmpty.mp hL).2

/-- An entry holds what the account has at its cost. -/
theorem eq_of_get? (h : closed.Keeps account) (hget : closed.layers.get? c = some Ls) :
    Ls = account c ∧ Ls ≠ [] := by
  rw [h.get?] at hget
  split at hget
  · cases hget
  · next hsome =>
    obtain rfl := Option.some.inj hget
    exact ⟨rfl, hsome⟩

theorem filled (h : closed.Keeps account) : closed.Filled := by
  intro c hc
  obtain ⟨Ls, hget⟩ := SortedMap.mem_keys_iff.mp hc
  obtain ⟨rfl, hsome⟩ := h.eq_of_get? hget
  obtain ⟨L, hL⟩ := List.exists_mem_of_ne_nil _ hsome
  obtain ⟨s, hs⟩ := StateSet.isEmpty_eq_false_iff.mp (h.occupied c L hL)
  exact ⟨s, mem_closedAt.mpr ⟨L, h.sublayers c ▸ hL, hs⟩⟩

end Keeps

theorem keeps_after (records : List Record) : (after records).Keeps (accountOf records) := by
  induction records using List.reverseRecOn with
  | nil => exact ⟨fun _ ↦ rfl, fun _ _ hL ↦ absurd hL List.not_mem_nil⟩
  | append_singleton records r ih =>
    rw [after, accountOf, List.foldl_append, List.foldl_append]
    cases r with
    | push cost states => exact ih.push cost states
    | replace cost sublayers => exact ih.replace cost sublayers

/-! ## What is read off closed layers -/

/-- The index of a state is the position of the first sub-layer that has it. -/
theorem sublayerIndex?_eq_some_iff :
    closed.sublayerIndex? c s = some i ↔
      IsLeast {j | ∃ L, (closed.sublayers c)[j]? = some L ∧ s ∈ L} i := by
  rw [sublayerIndex?, List.findIdx?_eq_some_iff_getElem]
  simp only [StateSet.contains_eq_true]
  constructor
  · rintro ⟨hi, hs, hfirst⟩
    refine ⟨⟨_, List.getElem?_eq_getElem hi, hs⟩, ?_⟩
    rintro j ⟨L, hL, hsL⟩
    by_contra hji
    obtain ⟨_, rfl⟩ := List.getElem?_eq_some_iff.mp hL
    exact hfirst j (Nat.not_le.mp hji) hsL
  · rintro ⟨⟨L, hL, hs⟩, hleast⟩
    obtain ⟨hi, rfl⟩ := List.getElem?_eq_some_iff.mp hL
    refine ⟨hi, hs, fun j hji hsj ↦ ?_⟩
    exact absurd (hleast ⟨_, List.getElem?_eq_getElem _, hsj⟩) (Nat.not_le.mpr hji)

/-- The closed states are those with an index. -/
theorem isSome_sublayerIndex?_iff :
    (closed.sublayerIndex? c s).isSome = true ↔ s ∈ closed.closedAt c := by
  rw [sublayerIndex?, List.findIdx?_isSome, List.any_eq_true, mem_closedAt]
  simp only [StateSet.contains_eq_true]

/-- The closed layers are a picture of the account: there is nothing empty in them, and what is read
off them is what the account says. -/
structure Represents (closed : ClosedLayers) (account : Int → List StateSet) : Prop where
  sublayers : ∀ c, closed.sublayers c = account c
  occupied : ∀ e ∈ closed.layers.entries, e.2 ≠ [] ∧ ∀ L ∈ e.2, L.isEmpty = false
  ascending : closed.closedCosts.Pairwise (· < ·)
  mem_closedCosts : ∀ c, c ∈ closed.closedCosts ↔ (closed.closedAt c).isEmpty = false
  mem_closedAt : ∀ c s, s ∈ closed.closedAt c ↔ ∃ L ∈ account c, s ∈ L
  exists_index : ∀ c s, (∃ i, closed.sublayerIndex? c s = some i) ↔ s ∈ closed.closedAt c
  index : ∀ c s i, closed.sublayerIndex? c s = some i ↔
    IsLeast {j | ∃ L, (account c)[j]? = some L ∧ s ∈ L} i

/-- After any calls, with any costs and sets, the closed layers represent what has been recorded. -/
theorem represents_after (records : List Record) :
    (after records).Represents (accountOf records) := by
  have h := keeps_after records
  constructor
  case sublayers => exact h.sublayers
  case occupied =>
    rintro ⟨c, Ls⟩ he
    obtain ⟨rfl, hsome⟩ := h.eq_of_get? (SortedMap.get?_eq_some_iff.mpr he)
    exact ⟨hsome, h.occupied c⟩
  case ascending => exact pairwise_closedCosts _
  case mem_closedCosts =>
    intro c
    rw [h.filled.mem_closedCosts_iff, StateSet.isEmpty_eq_false_iff]
  case mem_closedAt =>
    intro c s
    rw [ClosedLayers.mem_closedAt, h.sublayers]
  case exists_index =>
    intro c s
    rw [← Option.isSome_iff_exists, isSome_sublayerIndex?_iff]
  case index =>
    intro c s i
    rw [sublayerIndex?_eq_some_iff, h.sublayers]

/-- Of sub-layers that overlap the first one counts, and a layer of nothing takes its cost away. -/
example :
    let records := [.push 1 ∅, .push 1 (.singleton (.single 2)),
      .push 1 (.ofList [.single 2, .single 3])]
    (after records).sublayerIndex? 1 (.single 2) = some 0 ∧
      after (records ++ [.replace 1 [∅, ∅]]) = ∅ := by
  decide

end ClosedLayers

end LayeredPlanning
