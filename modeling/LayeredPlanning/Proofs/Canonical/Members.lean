import LayeredPlanning.Canonical.Json
import Mathlib.Data.List.Sort
import Mathlib.Data.String.Basic

/-!
# Members of objects

The members of an object stand by ascending key, wherever they are inserted.  Members that come in
this order stay as they are (`ofMembers_of_pairwise`), and in whatever order they come, the object
is the same (`ofMembers_congr`): its members are those that were inserted
(`mem_foldl_insertMember`).
-/

namespace LayeredPlanning

namespace Json

variable {members known : List (String × Json)} {key : String} {value : Json} {m : String × Json}

/-- A member whose key is above all others goes to the end. -/
theorem insertMember_of_lt (h : ∀ m ∈ known, m.1 < key) :
    insertMember key value known = known ++ [(key, value)] := by
  induction known with
  | nil => rfl
  | cons first known ih =>
    obtain ⟨k, v⟩ := first
    have hlt : k < key := h _ List.mem_cons_self
    rw [insertMember, if_neg (lt_asymm hlt), if_pos hlt,
      ih fun m hm ↦ h m (List.mem_cons_of_mem _ hm), List.cons_append]

/-- Members that are inserted by ascending key stay as they are. -/
theorem foldl_insertMember_of_pairwise (h : (known ++ members).Pairwise fun m n ↦ m.1 < n.1) :
    members.foldl (fun known m ↦ insertMember m.1 m.2 known) known = known ++ members := by
  induction members generalizing known with
  | nil => exact (List.append_nil known).symm
  | cons first members ih =>
    have hbelow : ∀ m ∈ known, m.1 < first.1 := fun m hm ↦
      (List.pairwise_append.mp h).2.2 m hm first List.mem_cons_self
    rw [List.foldl_cons, insertMember_of_lt hbelow, ih (by rwa [List.append_cons] at h),
      ← List.append_cons]

theorem ofMembers_of_pairwise (h : members.Pairwise fun m n ↦ m.1 < n.1) :
    ofMembers members = object members := by
  rw [ofMembers, foldl_insertMember_of_pairwise (by rwa [List.nil_append]), List.nil_append]

/-- After an insertion there are the new member, and those of other keys from before. -/
theorem mem_insertMember (hknown : known.Pairwise fun m n ↦ m.1 < n.1) :
    m ∈ insertMember key value known ↔ m = (key, value) ∨ m ∈ known ∧ m.1 ≠ key := by
  induction known with
  | nil => simp [insertMember]
  | cons first known ih =>
    obtain ⟨k, v⟩ := first
    obtain ⟨hfirst, hknown⟩ := List.pairwise_cons.mp hknown
    have habove : ∀ m ∈ known, k < m.1 := hfirst
    rw [insertMember]
    split_ifs with hlt hgt
    · have hall : m ∈ (k, v) :: known → m.1 ≠ key := by
        intro hm
        rcases List.mem_cons.mp hm with rfl | hm
        · exact hlt.ne'
        · exact (hlt.trans (habove m hm)).ne'
      rw [List.mem_cons, and_iff_left_of_imp hall]
    · have hother : m = (k, v) → m.1 ≠ key := by
        rintro rfl
        exact hgt.ne
      rw [List.mem_cons, ih hknown, List.mem_cons, or_left_comm, or_and_right,
        and_iff_left_of_imp hother]
    · obtain rfl : k = key := le_antisymm (not_lt.mp hlt) (not_lt.mp hgt)
      have hfirst : ¬ (m = (k, v) ∧ m.1 ≠ k) := by
        rintro ⟨rfl, hne⟩
        exact hne rfl
      have hall : m ∈ known → m.1 ≠ k := fun hm ↦ (habove m hm).ne'
      rw [List.mem_cons, List.mem_cons, or_and_right, or_iff_right hfirst, and_iff_left_of_imp hall]

theorem pairwise_insertMember (hknown : known.Pairwise fun m n ↦ m.1 < n.1) :
    (insertMember key value known).Pairwise fun m n ↦ m.1 < n.1 := by
  induction known with
  | nil => exact List.pairwise_singleton _ _
  | cons first known ih =>
    obtain ⟨k, v⟩ := first
    obtain ⟨hfirst, hrest⟩ := List.pairwise_cons.mp hknown
    rw [insertMember]
    split_ifs with hlt hgt
    · refine List.pairwise_cons.mpr ⟨?_, hknown⟩
      intro m hm
      rcases List.mem_cons.mp hm with rfl | hm
      · exact hlt
      · exact hlt.trans (hfirst m hm)
    · refine List.pairwise_cons.mpr ⟨?_, ih hrest⟩
      intro m hm
      rcases (mem_insertMember hrest).mp hm with rfl | ⟨hm, -⟩
      · exact hgt
      · exact hfirst m hm
    · obtain rfl : k = key := le_antisymm (not_lt.mp hlt) (not_lt.mp hgt)
      exact List.pairwise_cons.mpr ⟨hfirst, hrest⟩

/-- The members that an object has after insertions: those inserted, and those of other keys from
before. -/
theorem mem_foldl_insertMember (hknown : known.Pairwise fun m n ↦ m.1 < n.1)
    (hkeys : ∀ m ∈ members, ∀ n ∈ members, m.1 = n.1 → m = n) :
    m ∈ members.foldl (fun known m ↦ insertMember m.1 m.2 known) known ↔
      m ∈ members ∨ m ∈ known ∧ ∀ n ∈ members, m.1 ≠ n.1 := by
  induction members generalizing known with
  | nil => simp
  | cons first members ih =>
    have hrest : ∀ m ∈ members, ∀ n ∈ members, m.1 = n.1 → m = n := fun m hm n hn ↦
      hkeys m (List.mem_cons_of_mem _ hm) n (List.mem_cons_of_mem _ hn)
    -- A later member of the same key is the same member.
    have hagain : m = first → m ∈ members ∨ ∀ n ∈ members, m.1 ≠ n.1 := by
      rintro rfl
      by_contra! hnone
      obtain ⟨hnot, n, hn, heq⟩ := hnone
      rw [hkeys m List.mem_cons_self n (List.mem_cons_of_mem _ hn) heq] at hnot
      exact hnot hn
    rw [List.foldl_cons, ih (pairwise_insertMember hknown) hrest, mem_insertMember hknown,
      List.mem_cons, List.forall_mem_cons]
    constructor
    · rintro (hm | ⟨heq | ⟨hm, hne⟩, hall⟩)
      · exact .inl (.inr hm)
      · exact .inl (.inl heq)
      · exact .inr ⟨hm, hne, hall⟩
    · rintro ((heq | hm) | ⟨hm, hne, hall⟩)
      · exact (hagain heq).imp_right fun hall ↦ ⟨.inl heq, hall⟩
      · exact .inl hm
      · exact .inr ⟨.inr ⟨hm, hne⟩, hall⟩

theorem pairwise_foldl_insertMember (hknown : known.Pairwise fun m n ↦ m.1 < n.1) :
    (members.foldl (fun known m ↦ insertMember m.1 m.2 known) known).Pairwise
      fun m n ↦ m.1 < n.1 := by
  induction members generalizing known with
  | nil => exact hknown
  | cons first members ih => exact ih (pairwise_insertMember hknown)

theorem orderedMembers_iff : OrderedMembers members ↔ ∀ m ∈ members, m.2.Ordered := by
  induction members with
  | nil => simp [OrderedMembers]
  | cons first members ih => rw [OrderedMembers, ih, List.forall_mem_cons]

/-- Insertions build ordered objects from ordered values. -/
theorem ordered_ofMembers (h : ∀ m ∈ members, m.2.Ordered) : (ofMembers members).Ordered := by
  have hfold : ∀ known : List (String × Json), known.Pairwise (fun m n ↦ m.1 < n.1) →
      (∀ m ∈ known, m.2.Ordered) →
        ∀ m ∈ members.foldl (fun known m ↦ insertMember m.1 m.2 known) known,
          m.2.Ordered := by
    induction members with
    | nil => exact fun known _ hknown ↦ hknown
    | cons first members ih =>
      intro known hascending hknown
      refine ih (fun m hm ↦ h m (List.mem_cons_of_mem _ hm)) _
        (pairwise_insertMember hascending) ?_
      intro m hm
      rcases (mem_insertMember hascending).mp hm with rfl | ⟨hm, -⟩
      · exact h first List.mem_cons_self
      · exact hknown m hm
  exact ⟨pairwise_foldl_insertMember .nil, orderedMembers_iff.mpr (hfold [] .nil nofun)⟩

/-- An object does not remember the order in which its members were inserted. -/
theorem ofMembers_congr {others : List (String × Json)}
    (hsame : ∀ m, m ∈ members ↔ m ∈ others)
    (hkeys : ∀ m ∈ members, ∀ n ∈ members, m.1 = n.1 → m = n) :
    ofMembers members = ofMembers others := by
  have hothers : ∀ m ∈ others, ∀ n ∈ others, m.1 = n.1 → m = n := fun m hm n hn ↦
    hkeys m ((hsame m).mpr hm) n ((hsame n).mpr hn)
  have hascending : ∀ ms : List (String × Json),
      (ms.foldl (fun known m ↦ insertMember m.1 m.2 known) []).Pairwise fun m n ↦ m.1 < n.1 :=
    fun ms ↦ pairwise_foldl_insertMember .nil
  have hnodup : ∀ ms : List (String × Json),
      (ms.foldl (fun known m ↦ insertMember m.1 m.2 known) []).Nodup := fun ms ↦
    (hascending ms).imp fun hlt heq ↦ hlt.ne (congrArg Prod.fst heq)
  refine congrArg object
    (List.Perm.eq_of_pairwise (fun _ _ _ _ hlt hgt ↦ absurd hgt (lt_asymm hlt))
      (hascending members) (hascending others) ?_)
  refine (List.perm_ext_iff_of_nodup (hnodup members) (hnodup others)).mpr fun m ↦ ?_
  rw [mem_foldl_insertMember .nil hkeys, mem_foldl_insertMember .nil hothers, hsame]
  simp

end Json

end LayeredPlanning
