import LayeredPlanning.Proofs.Plans.Duplicates

/-!
# What a fingerprint says

The encoding that a fingerprint is the digest of can be read from the left: a sequence of actions
begins another exactly if its encoding does, as far as identifiers and names go.  So plans have the
same fingerprint if they have the same labels, or if the hash function collides on them:
`Plan.uniquely_decodable`.
-/

namespace LayeredPlanning

namespace Plan

variable {as bs : List Action} {plan other : Plan}

theorem sequenceBytes_append (as bs : List Action) :
    sequenceBytes (as ++ bs) = sequenceBytes as ++ sequenceBytes bs :=
  List.flatMap_append

/-- Where the labels of one sequence begin those of another, the encodings do. -/
theorem sequenceBytes_prefix_of_labels (h : as.map Action.label <+: bs.map Action.label) :
    sequenceBytes as <+: sequenceBytes bs := by
  obtain ⟨labels, h⟩ := h
  obtain ⟨first, rest, rfl, hfirst, -⟩ := List.map_eq_append_iff.mp h.symm
  rw [sequenceBytes_append, sequenceBytes_of_labels hfirst]
  exact List.prefix_append _ _

theorem sequenceBytes_prefix_iff (has : ∀ a ∈ as, a.Fits) (hbs : ∀ b ∈ bs, b.Fits) :
    sequenceBytes as <+: sequenceBytes bs ↔ as.map Action.label <+: bs.map Action.label :=
  ⟨labels_prefix_of_sequenceBytes has hbs, sequenceBytes_prefix_of_labels⟩

theorem fingerprint_eq_iff_labels (hplan : plan.Fits) (hother : other.Fits) :
    plan.fingerprint = other.fingerprint ↔
      plan.labels = other.labels ∨ plan.Collides other := by
  have hlabels : sequenceBytes plan.actions = sequenceBytes other.actions ↔
      plan.labels = other.labels := sequenceBytes_eq_iff hplan hother
  rw [fingerprint, fingerprint, ContentHash.ofBytes_inj, Collides, ← hlabels]
  constructor
  · intro hhash
    exact (Decidable.em _).imp_right fun hne ↦ ⟨hne, hhash⟩
  · rintro (hbytes | ⟨-, hhash⟩)
    · rw [hbytes]
    · exact hhash

/-- As long as the lengths of the names fit, two sequences of actions have the same encoding exactly
if they have the same labels, and one encoding begins another exactly if the labels do.  Two plans
have the same fingerprint exactly if they have the same labels, or if the hash function takes one
encoding for the other. -/
theorem uniquely_decodable :
    (∀ as bs : List Action, (∀ a ∈ as, a.Fits) → (∀ b ∈ bs, b.Fits) →
      (sequenceBytes as = sequenceBytes bs ↔ as.map Action.label = bs.map Action.label) ∧
      (sequenceBytes as <+: sequenceBytes bs ↔ as.map Action.label <+: bs.map Action.label)) ∧
    ∀ plan other : Plan, plan.Fits → other.Fits →
      (plan.fingerprint = other.fingerprint ↔
        plan.labels = other.labels ∨ plan.Collides other) := by
  constructor
  · intro as bs has hbs
    exact ⟨sequenceBytes_eq_iff has hbs, sequenceBytes_prefix_iff has hbs⟩
  · intro plan other hplan hother
    exact fingerprint_eq_iff_labels hplan hother

/-- A plan whose only action has a name that reads like the header of another action. -/
def masked : Plan :=
  ⟨[⟨0, "\x01\x00\x00\x00\x01\x00\x00\x00b", 1, Int.one_nonneg⟩], [.single 0, .single 1]⟩

/-- A plan with that other action, behind one without a name. -/
def unmasked (cost : Nat) : Plan :=
  ⟨[⟨0, "", cost, Int.natCast_nonneg cost⟩, ⟨1, "b", 1, Int.one_nonneg⟩],
    [.single 0, .single 0, .single 1]⟩

/-- A name that reads like the header of an action is told from that action, and costs do not
count. -/
theorem masked_uniquely_decodable :
    masked.Fits ∧ (unmasked 0).Fits ∧ (unmasked 5).Fits ∧ ¬ masked.Collides (unmasked 0) ∧
    sequenceBytes masked.actions ≠ sequenceBytes (unmasked 0).actions ∧
    masked.fingerprint ≠ (unmasked 0).fingerprint ∧
    (unmasked 0).fingerprint = (unmasked 5).fingerprint := by
  have hmasked : masked.Fits := by decide
  have hfree : (unmasked 0).Fits := by decide
  have hpaid : (unmasked 5).Fits := by decide
  have hdigests : ¬ masked.Collides (unmasked 0) := by decide +kernel
  have hlabels : masked.labels ≠ (unmasked 0).labels := by decide
  refine ⟨hmasked, hfree, hpaid, hdigests, ?_, ?_, ?_⟩
  · exact mt (uniquely_decodable.1 _ _ hmasked hfree).1.mp hlabels
  · exact mt (uniquely_decodable.2 _ _ hmasked hfree).mp (not_or.mpr ⟨hlabels, hdigests⟩)
  · exact (uniquely_decodable.2 _ _ hfree hpaid).mpr (.inl rfl)

end Plan

end LayeredPlanning
