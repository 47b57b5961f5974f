import LayeredPlanning.Order.Strict

/-!
# Finite maps in ascending key order

A `SortedMap` lists its entries by strictly ascending key, so two maps with the same bindings are
equal.  Every update is an `alter` of one key, and the view is `get?`: `get?_alter` is the law.
-/

namespace LayeredPlanning

universe u v

/-- A finite map, listed by strictly ascending key. -/
structure SortedMap (κ : Type u) (ν : Type v) [LT κ] where
  /-- The bindings. -/
  entries : List (κ × ν)
  /-- Keys ascend strictly. -/
  ascending : entries.Pairwise fun a b ↦ a.1 < b.1

namespace SortedMap

variable {κ : Type u} {ν : Type v} [LT κ]

instance instDecidableEq [DecidableEq κ] [DecidableEq ν] : DecidableEq (SortedMap κ ν) :=
  fun m n ↦ decidable_of_iff (m.entries = n.entries) (by cases m; cases n; simp)

/-- The map without bindings. -/
def empty : SortedMap κ ν := ⟨[], .nil⟩

instance instEmptyCollection : EmptyCollection (SortedMap κ ν) := ⟨empty⟩

/-- Whether there is no binding. -/
def isEmpty (m : SortedMap κ ν) : Bool := m.entries.isEmpty

/-- The keys, ascending. -/
def keys (m : SortedMap κ ν) : List κ := m.entries.map (·.1)

/-- The values, by ascending key. -/
def values (m : SortedMap κ ν) : List ν := m.entries.map (·.2)

section Lookup

variable [DecidableEq κ]

/-- The value bound to `k`. -/
def get? (m : SortedMap κ ν) (k : κ) : Option ν := m.entries.lookup k

end Lookup

section Alter

variable [DecidableLT κ]

/-- Entries after the value at `k` has gone through `f`; `none` stands for "not bound". -/
def alterEntries (k : κ) (f : Option ν → Option ν) : List (κ × ν) → List (κ × ν)
  | [] => (f none).toList.map (k, ·)
  | (j, w) :: rest =>
    if k < j then (f none).toList.map (k, ·) ++ (j, w) :: rest
    else if j < k then (j, w) :: alterEntries k f rest
    else (f (some w)).toList.map (k, ·) ++ rest

/-- Keys after an alteration are old keys or the altered one. -/
theorem fst_of_mem_alterEntries {k : κ} {f : Option ν → Option ν}
    {es : List (κ × ν)} {e : κ × ν} (h : e ∈ alterEntries k f es) :
    e.1 = k ∨ e ∈ es := by
  induction es with
  | nil =>
    simp only [alterEntries, List.mem_map] at h
    obtain ⟨_, _, rfl⟩ := h
    exact .inl rfl
  | cons head rest ih =>
    obtain ⟨j, w⟩ := head
    simp only [alterEntries] at h
    split at h
    · simp only [List.mem_append, List.mem_map] at h
      rcases h with ⟨_, _, rfl⟩ | h
      · exact .inl rfl
      · exact .inr h
    · split at h
      · rcases List.mem_cons.mp h with rfl | h
        · exact .inr List.mem_cons_self
        · exact (ih h).imp_right (List.mem_cons_of_mem _)
      · simp only [List.mem_append, List.mem_map] at h
        rcases h with ⟨_, _, rfl⟩ | h
        · exact .inl rfl
        · exact .inr (List.mem_cons_of_mem _ h)

variable [StrictOrder κ]

/-- An alteration keeps the keys ascending. -/
theorem pairwise_alterEntries {k : κ} {f : Option ν → Option ν} {es : List (κ × ν)}
    (h : es.Pairwise fun a b ↦ a.1 < b.1) :
    (alterEntries k f es).Pairwise fun a b ↦ a.1 < b.1 := by
  induction es with
  | nil => cases hf : f none <;> simp [alterEntries, hf]
  | cons head rest ih =>
    obtain ⟨j, w⟩ := head
    obtain ⟨hj, hr⟩ := List.pairwise_cons.mp h
    simp only [alterEntries]
    split
    · next hkj =>
      cases f none with
      | none => simpa using h
      | some v =>
        refine List.pairwise_cons.mpr ⟨fun e he ↦ ?_, h⟩
        rcases List.mem_cons.mp he with rfl | he
        · exact hkj
        · exact StrictOrder.trans hkj (hj e he)
    · split
      · next hjk =>
        refine List.pairwise_cons.mpr ⟨fun e he ↦ ?_, ih hr⟩
        rcases fst_of_mem_alterEntries he with hk | he
        · exact hk ▸ hjk
        · exact hj e he
      · next hkj hjk =>
        cases f (some w) with
        | none => simpa using hr
        | some v =>
          refine List.pairwise_cons.mpr ⟨fun e he ↦ ?_, hr⟩
          exact StrictOrder.eq_of_not_lt hkj hjk ▸ hj e he

/-- The map in which the value at `k` has gone through `f`. -/
def alter (m : SortedMap κ ν) (k : κ) (f : Option ν → Option ν) : SortedMap κ ν :=
  ⟨alterEntries k f m.entries, pairwise_alterEntries m.ascending⟩

end Alter

/-- The binding with the least key, and the map without it. -/
def popLeast? : SortedMap κ ν → Option ((κ × ν) × SortedMap κ ν)
  | ⟨[], _⟩ => none
  | ⟨e :: rest, h⟩ => some (e, ⟨rest, (List.pairwise_cons.mp h).2⟩)

/-- The least key. -/
def leastKey? (m : SortedMap κ ν) : Option κ := m.entries.head?.map (·.1)

/-! ## Laws -/

/-- Maps with the same entries are equal. -/
@[ext] theorem ext {m n : SortedMap κ ν} (h : m.entries = n.entries) : m = n := by
  cases m; cases n; cases h; rfl

/-- A popped binding came first. -/
theorem popLeast?_eq_some_iff {m n : SortedMap κ ν} {e : κ × ν} :
    m.popLeast? = some (e, n) ↔ m.entries = e :: n.entries := by
  obtain ⟨_ | ⟨d, rest⟩, h⟩ := m
  · simp [popLeast?]
  · simp only [popLeast?, Option.some.injEq, Prod.mk.injEq, List.cons.injEq, and_congr_right_iff]
    exact fun _ ↦ ⟨fun hn ↦ hn ▸ rfl, fun hn ↦ SortedMap.ext hn⟩

/-- Nothing can be popped exactly from the empty map. -/
theorem popLeast?_eq_none_iff {m : SortedMap κ ν} : m.popLeast? = none ↔ m.entries = [] := by
  obtain ⟨_ | ⟨d, rest⟩, h⟩ := m <;> simp [popLeast?]

/-- A popped key is below every key that stays. -/
theorem lt_of_popLeast? {m n : SortedMap κ ν} {e : κ × ν} (h : m.popLeast? = some (e, n))
    {d : κ × ν} (hd : d ∈ n.entries) : e.1 < d.1 := by
  have := m.ascending
  rw [popLeast?_eq_some_iff.mp h] at this
  exact (List.pairwise_cons.mp this).1 d hd

/-- Keys after an alteration are old keys or the altered one. -/
theorem fst_of_mem_alter [DecidableLT κ] [StrictOrder κ] {m : SortedMap κ ν} {k : κ}
    {f : Option ν → Option ν} {e : κ × ν} (h : e ∈ (m.alter k f).entries) :
    e.1 = k ∨ e ∈ m.entries :=
  fst_of_mem_alterEntries h

section Lookup

variable [DecidableEq κ]

/-- The empty map binds nothing. -/
@[simp] theorem get?_empty (k : κ) : (∅ : SortedMap κ ν).get? k = none := rfl

variable [StrictOrder κ]

/-- A key below all listed keys is not listed. -/
theorem lookup_eq_none_of_lt {k : κ} {es : List (κ × ν)} (h : ∀ e ∈ es, k < e.1) :
    es.lookup k = none := by
  induction es with
  | nil => rfl
  | cons e rest ih =>
    have hne : (k == e.1) = false := by
      simpa using StrictOrder.ne (h e List.mem_cons_self)
    rw [List.lookup_cons, hne]
    exact ih fun d hd ↦ h d (List.mem_cons_of_mem _ hd)

/-- Looking up a key finds the entry listed under it. -/
theorem get?_eq_some_iff {m : SortedMap κ ν} {k : κ} {v : ν} :
    m.get? k = some v ↔ (k, v) ∈ m.entries := by
  obtain ⟨es, h⟩ := m
  show es.lookup k = some v ↔ _
  induction es with
  | nil => simp
  | cons e rest ih =>
    obtain ⟨j, w⟩ := e
    obtain ⟨hj, hr⟩ := List.pairwise_cons.mp h
    rw [List.lookup_cons]
    by_cases hkj : k = j
    · subst hkj
      simp only [beq_self_eq_true, Option.some.injEq, List.mem_cons, Prod.mk.injEq, true_and]
      refine ⟨fun hw ↦ .inl hw.symm, ?_⟩
      rintro (rfl | hv)
      · rfl
      · exact absurd (hj _ hv) (StrictOrder.irrefl k)
    · have hne : (k == j) = false := by simpa using hkj
      simp only [hne, ih hr, List.mem_cons, Prod.mk.injEq, hkj, false_and, false_or]

/-- A key is listed exactly if it is bound. -/
theorem mem_keys_iff {m : SortedMap κ ν} {k : κ} :
    k ∈ m.keys ↔ ∃ v, m.get? k = some v := by
  simp [keys, get?_eq_some_iff]

/-- Two maps that bind the same values are equal. -/
theorem ext_get? {m n : SortedMap κ ν} (h : ∀ k, m.get? k = n.get? k) : m = n := by
  obtain ⟨es, he⟩ := m
  obtain ⟨ds, hd⟩ := n
  refine SortedMap.ext ?_
  show es = ds
  induction es generalizing ds with
  | nil =>
    cases ds with
    | nil => rfl
    | cons d ds =>
      obtain ⟨k, v⟩ := d
      simpa [get?] using h k
  | cons e es ih =>
    cases ds with
    | nil =>
      obtain ⟨k, v⟩ := e
      simpa [get?] using h k
    | cons d ds =>
      obtain ⟨he1, he2⟩ := List.pairwise_cons.mp he
      obtain ⟨hd1, hd2⟩ := List.pairwise_cons.mp hd
      have mem_iff : ∀ k v, (k, v) ∈ e :: es ↔ (k, v) ∈ d :: ds := fun k v ↦ by
        have := h k
        rw [show (k, v) ∈ e :: es ↔ _ from
          (get?_eq_some_iff (m := ⟨e :: es, he⟩)).symm, this]
        exact get?_eq_some_iff (m := ⟨d :: ds, hd⟩)
      have hed : e = d := by
        rcases List.mem_cons.mp ((mem_iff e.1 e.2).mp List.mem_cons_self) with h1 | h1
        · exact h1
        rcases List.mem_cons.mp ((mem_iff d.1 d.2).mpr List.mem_cons_self) with h2 | h2
        · exact h2.symm
        · exact absurd (hd1 _ h1) (StrictOrder.asymm (he1 _ h2))
      subst hed
      refine congrArg (e :: ·) (ih he2 ds hd2 fun k ↦ Option.ext fun v ↦ ?_)
      rw [get?_eq_some_iff, get?_eq_some_iff]
      have := mem_iff k v
      simp only [List.mem_cons] at this
      constructor
      · intro hk
        rcases this.mp (.inr hk) with h1 | h1
        · exact absurd (h1 ▸ he1 _ hk) (StrictOrder.irrefl _)
        · exact h1
      · intro hk
        rcases this.mpr (.inr hk) with h1 | h1
        · exact absurd (h1 ▸ hd1 _ hk) (StrictOrder.irrefl _)
        · exact h1

variable [DecidableLT κ]

/-- An alteration acts on one key and leaves every other one alone. -/
theorem get?_alter (m : SortedMap κ ν) (k j : κ) (f : Option ν → Option ν) :
    (m.alter k f).get? j = if j = k then f (m.get? k) else m.get? j := by
  obtain ⟨es, h⟩ := m
  show (alterEntries k f es).lookup j = if j = k then f (es.lookup k) else es.lookup j
  have lookup_single : ∀ o : Option ν, (o.toList.map (k, ·)).lookup j =
      if j = k then o else none := by
    rintro (_ | v)
    · simp
    · by_cases hjk : j = k
      · simp [hjk]
      · have hne : (j == k) = false := by simpa using hjk
        simp [List.lookup_cons, hne, hjk]
  have lookup_prepend : ∀ (o : Option ν) (rest : List (κ × ν)),
      (o.toList.map (k, ·) ++ rest).lookup j =
        if j = k then o.or (rest.lookup j) else rest.lookup j := by
    rintro (_ | v) rest
    · simp
    · by_cases hjk : j = k
      · simp [hjk]
      · have hne : (j == k) = false := by simpa using hjk
        simp [List.lookup_cons, hne, hjk]
  induction es with
  | nil => simpa [alterEntries] using lookup_single (f none)
  | cons e rest ih =>
    obtain ⟨i, w⟩ := e
    obtain ⟨hi, hr⟩ := List.pairwise_cons.mp h
    simp only [alterEntries]
    split
    · next hki =>
      have hnone : List.lookup k ((i, w) :: rest) = none :=
        lookup_eq_none_of_lt fun e he ↦ (List.mem_cons.mp he).elim (fun h ↦ h ▸ hki)
          fun he ↦ StrictOrder.trans hki (hi e he)
      rw [lookup_prepend, hnone]
      split
      · next hjk => rw [hjk, hnone, Option.or_none]
      · rfl
    · split
      · next hik =>
        have hki : (k == i) = false := by simpa using (StrictOrder.ne hik).symm
        rw [List.lookup_cons, List.lookup_cons, List.lookup_cons, hki, ih hr]
        by_cases hji : j = i
        · subst hji
          simp [StrictOrder.ne hik]
        · have hne : (j == i) = false := by simpa using hji
          simp [hne]
      · next hki hik =>
        obtain rfl : k = i := StrictOrder.eq_of_not_lt hki hik
        have hrest : rest.lookup k = none := lookup_eq_none_of_lt hi
        rw [lookup_prepend, List.lookup_cons, List.lookup_cons]
        by_cases hjk : j = k
        · subst hjk
          simp [hrest]
        · have hne : (j == k) = false := by simpa using hjk
          simp [hne, hjk]

end Lookup

end SortedMap

end LayeredPlanning
