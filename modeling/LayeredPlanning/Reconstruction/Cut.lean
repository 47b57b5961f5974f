import LayeredPlanning.Domain.Cost
import LayeredPlanning.Domain.StateSet

/-!
# Cuts

A cut is a set of states in which the two searches meet: they are reached from the initial state at
cost `g` and a goal is reached from them at cost `h`.  Cuts are ordered by their key `(f, g, h)`,
where `f` is the cost of every plan through the cut.
-/

namespace LayeredPlanning

/-- What orders and identifies a cut. -/
@[ext]
structure CutKey where
  /-- The cost of plans through the cut. -/
  f : Int
  /-- The cost from the initial state. -/
  g : Int
  /-- The cost to a goal. -/
  h : Int
deriving DecidableEq

namespace CutKey

/-- Keys are compared component by component. -/
instance instLT : LT CutKey where
  lt a b := a.f < b.f ∨ a.f = b.f ∧ (a.g < b.g ∨ a.g = b.g ∧ a.h < b.h)

/-- The order of keys, component by component. -/
theorem lt_iff {a b : CutKey} :
    a < b ↔ a.f < b.f ∨ a.f = b.f ∧ (a.g < b.g ∨ a.g = b.g ∧ a.h < b.h) := .rfl

instance instDecidableLT : DecidableLT CutKey :=
  fun a b ↦ inferInstanceAs
    (Decidable (a.f < b.f ∨ a.f = b.f ∧ (a.g < b.g ∨ a.g = b.g ∧ a.h < b.h)))

instance instStrictOrder : StrictOrder CutKey where
  irrefl a h := by
    rw [lt_iff] at h
    omega
  trans h h' := by
    rw [lt_iff] at h h' ⊢
    omega
  eq_of_not_lt h h' := by
    rw [lt_iff] at h h'
    ext <;> omega

end CutKey

/-- A set of meeting states with the costs on either side. -/
@[ext]
structure Cut where
  /-- The cost from the initial state. -/
  g : Int
  /-- The cost to a goal. -/
  h : Int
  /-- The meeting states. -/
  states : StateSet
deriving DecidableEq

namespace Cut

/-- The cost of every plan through the cut. -/
def f (cut : Cut) : Int := Cost.satAdd cut.g cut.h

/-- The key of the cut. -/
def key (cut : Cut) : CutKey := ⟨cut.f, cut.g, cut.h⟩

/-- Whether two cuts have the same costs on either side. -/
def sameKey (a b : Cut) : Bool := a.g == b.g && a.h == b.h

/-- The cut with the meeting states of another one added. -/
def merge (a b : Cut) : Cut := { a with states := a.states ∪ b.states }

/-- Puts a cut in its place by key; a cut of the same key takes up its states. -/
def insertInto (cut : Cut) : List Cut → List Cut
  | [] => [cut]
  | c :: cs =>
    if cut.key < c.key then cut :: c :: cs
    else if c.key < cut.key then c :: insertInto cut cs
    else c.merge cut :: cs

/-- Two cuts have the same key exactly if they have the same costs on either side. -/
theorem sameKey_iff {a b : Cut} : a.sameKey b = true ↔ a.key = b.key := by
  simp only [sameKey, Bool.and_eq_true, beq_iff_eq, key, CutKey.mk.injEq, f]
  constructor
  · rintro ⟨hg, hh⟩
    exact ⟨by rw [hg, hh], hg, hh⟩
  · rintro ⟨_, hg, hh⟩
    exact ⟨hg, hh⟩

/-- Merging keeps the key. -/
@[simp] theorem key_merge (a b : Cut) : (a.merge b).key = a.key := rfl

end Cut

end LayeredPlanning
