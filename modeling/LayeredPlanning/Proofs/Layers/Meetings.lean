import LayeredPlanning.Proofs.Layers.Costs
import LayeredPlanning.Proofs.Layers.Frontiers
import Mathlib.Data.List.Nodup
import Mathlib.Data.List.Perm.Basic

/-!
# Meetings, layer by layer

The cuts of all pairs of closed layers that meet (`meetingCuts`) need not be found in one sweep.
When a layer is recorded on one side, the new ones are those that it makes with the layers of the
other side, whichever side it is (`Grows.meetingCuts`, `Grows.perm_meetingCuts`).  So the cuts that
two searches make while they close their layers in turn are those of all pairs (`Paired.closeMany`).
-/

namespace LayeredPlanning

variable {cut : Cut} {k : Int} {layer : StateSet}

/-! ## All pairs -/

theorem Direction.eq_or_eq_opposite (d e : Direction) : e = d ∨ e = d.opposite := by
  cases d <;> cases e <;> decide

theorem StateSet.inter_comm (S T : StateSet) : S ∩ T = T ∩ S := by
  ext s
  rw [StateSet.mem_inter, StateSet.mem_inter, and_comm]

theorem mem_meetings_iff {d : Direction} {own : Int} {other : ClosedLayers} :
    cut ∈ meetings d own layer other ↔ ∃ c ∈ other.closedCosts,
      (layer ∩ other.closedAt c).isEmpty = false ∧
        cut = .ofMeeting d own c (layer ∩ other.closedAt c) := by
  rw [meetings, List.mem_filterMap]
  refine exists_congr fun c ↦ and_congr_right fun _ ↦ ?_
  dsimp only
  cases (layer ∩ other.closedAt c).isEmpty with
  | true => exact ⟨nofun, fun hmet ↦ nomatch hmet.1⟩
  | false => rw [if_neg Bool.false_ne_true, Option.some.injEq, eq_comm, and_iff_right rfl]

theorem nodup_meetings (own : Int) (layer : StateSet) (other : ClosedLayers) :
    (meetings .forward own layer other).Nodup := by
  refine List.Nodup.filterMap ?_ (other.pairwise_closedCosts.imp Int.ne_of_lt)
  intro c c' cut hcut hcut'
  dsimp only at hcut hcut'
  split at hcut
  · cases hcut
  split at hcut'
  · cases hcut'
  cases hcut
  exact (congrArg Cut.h (Option.some.inj hcut')).symm

variable {F F' B B' : ClosedLayers}

/-- The cuts are the pairs of layers that share states. -/
theorem mem_meetingCuts :
    cut ∈ meetingCuts F B ↔ ∃ g ∈ F.closedCosts, ∃ h ∈ B.closedCosts,
      (F.closedAt g ∩ B.closedAt h).isEmpty = false ∧
        cut = ⟨g, h, F.closedAt g ∩ B.closedAt h⟩ := by
  rw [meetingCuts, List.mem_flatMap]
  exact exists_congr fun g ↦ and_congr_right fun _ ↦ mem_meetings_iff

/-- No pair of layers makes two cuts. -/
theorem nodup_meetingCuts (F B : ClosedLayers) : (meetingCuts F B).Nodup := by
  rw [meetingCuts, List.nodup_flatMap]
  refine ⟨fun g _ ↦ nodup_meetings g _ B, ?_⟩
  refine F.pairwise_closedCosts.imp ?_
  intro g g' hlt cut hcut hcut'
  obtain ⟨_, _, _, rfl⟩ := mem_meetings_iff.mp hcut
  obtain ⟨_, _, _, heq⟩ := mem_meetings_iff.mp hcut'
  exact absurd (congrArg Cut.g heq) (Int.ne_of_lt hlt)

namespace ClosedLayers.Grows

/-- A new forward layer makes its cuts behind the others. -/
theorem meetingCuts (h : F.Grows k layer F') (B : ClosedLayers) :
    LayeredPlanning.meetingCuts F' B =
      LayeredPlanning.meetingCuts F B ++ meetings .forward k layer B := by
  have hold : F.closedCosts.flatMap (fun g ↦ meetings .forward g (F'.closedAt g) B) =
      F.closedCosts.flatMap fun g ↦ meetings .forward g (F.closedAt g) B :=
    List.flatMap_congr fun g hg ↦ by rw [h.closedAt_of_mem g hg]
  rw [LayeredPlanning.meetingCuts, h.closedCosts, List.flatMap_append, hold, List.flatMap_singleton,
    h.closedAt, LayeredPlanning.meetingCuts]

/-- The cuts of a forward layer are those from before, and the one with the new backward layer. -/
theorem meetings (h : B.Grows k layer B') (own : Int) (S : StateSet) :
    LayeredPlanning.meetings .forward own S B' = LayeredPlanning.meetings .forward own S B ++
      (if (S ∩ layer).isEmpty then none
        else some ⟨own, k, S ∩ layer⟩ : Option Cut).toList := by
  have hold : B.closedCosts.filterMap (fun c ↦ if (S ∩ B'.closedAt c).isEmpty then none
      else some (Cut.ofMeeting .forward own c (S ∩ B'.closedAt c))) =
        LayeredPlanning.meetings .forward own S B :=
    List.filterMap_congr fun c hc ↦ by rw [h.closedAt_of_mem c hc]
  rw [LayeredPlanning.meetings, h.closedCosts, List.filterMap_append, hold,
    List.filterMap_eq_flatMap_toList, List.flatMap_singleton, h.closedAt]
  rfl

/-- A new backward layer makes its cuts between the others. -/
theorem perm_meetingCuts (h : B.Grows k layer B') (F : ClosedLayers) :
    (LayeredPlanning.meetingCuts F B').Perm
      (LayeredPlanning.meetingCuts F B ++ LayeredPlanning.meetings .backward k layer F) := by
  have hnew : LayeredPlanning.meetings .backward k layer F = F.closedCosts.flatMap fun g ↦
      (if (F.closedAt g ∩ layer).isEmpty then none
        else some ⟨g, k, F.closedAt g ∩ layer⟩ : Option Cut).toList := by
    rw [LayeredPlanning.meetings, List.filterMap_eq_flatMap_toList]
    refine List.flatMap_congr fun g _ ↦ ?_
    rw [StateSet.inter_comm]
    rfl
  rw [hnew, LayeredPlanning.meetingCuts, LayeredPlanning.meetingCuts]
  simp only [h.meetings]
  exact (List.flatMap_append_perm _ _ _).symm

end ClosedLayers.Grows

/-! ## Layer by layer -/

namespace Frontiers

variable {task : Task} {horizon : Int} {frontiers next : Frontiers task horizon}
  {made cuts : List Cut}

/-- The search in a direction, if there is one. -/
def search? (frontiers : Frontiers task horizon) :
    (d : Direction) → Option (LayerSearch task d horizon)
  | .forward => frontiers.forward?
  | .backward => frontiers.backward?

/-- The costs at which layers are closed in a direction. -/
def closedCosts (frontiers : Frontiers task horizon) (d : Direction) : List Int :=
  ((frontiers.search? d).map (·.closed.closedCosts)).getD []

/-- All searches are on their way. -/
def Underway (frontiers : Frontiers task horizon) : Prop :=
  ∀ d search, frontiers.search? d = some search → search.Underway

/-- A step closes a layer in one direction, and leaves the other alone. -/
theorem exists_closeNext?_search (hclose : frontiers.closeNext? = some (cuts, next)) :
    ∃ d search k layer search', frontiers.search? d = some search ∧
      search.closeNext? = some ((k, layer), search') ∧ next.search? d = some search' ∧
      next.search? d.opposite = frontiers.search? d.opposite := by
  rcases closeNext?_eq_some hclose with
    ⟨search, k, layer, search', _, hsearch, hnext, _, rfl⟩ |
    ⟨search, k, layer, search', _, hsearch, hnext, _, rfl⟩
  · exact ⟨.forward, search, k, layer, search', hsearch, hnext, rfl, rfl⟩
  · exact ⟨.backward, search, k, layer, search', hsearch, hnext, rfl, rfl⟩

theorem Underway.closeNext (h : frontiers.Underway)
    (hclose : frontiers.closeNext? = some (cuts, next)) : next.Underway := by
  obtain ⟨d, search, k, layer, search', hsearch, hnext, hnew, hold⟩ :=
    exists_closeNext?_search hclose
  have hlast : search'.Underway := (h d search hsearch).closeNext hnext
  intro d' last hd'
  rcases d.eq_or_eq_opposite d' with rfl | rfl
  · obtain rfl := Option.some.inj (hnew.symm.trans hd')
    exact hlast
  · exact h _ last (hold ▸ hd')

/-- The searches after `n` more layers, or fewer if no more are left, with the cuts that these
make. -/
def closeMany (frontiers : Frontiers task horizon) : Nat → List Cut × Frontiers task horizon
  | 0 => ([], frontiers)
  | n + 1 =>
    match frontiers.closeMany n with
    | (made, current) =>
      match current.closeNext? with
      | none => (made, current)
      | some (cuts, next) => (made ++ cuts, next)

/-- What every layer keeps up holds after any number of them. -/
theorem closeMany_induction {P : List Cut → Frontiers task horizon → Prop}
    (hstart : P [] frontiers)
    (hclose : ∀ made current cuts next, P made current →
      current.closeNext? = some (cuts, next) → P (made ++ cuts) next)
    (n : Nat) : P (frontiers.closeMany n).1 (frontiers.closeMany n).2 := by
  induction n with
  | zero => exact hstart
  | succ n ih =>
    rw [closeMany]
    split
    next made current hmany =>
    rw [hmany] at ih
    split
    · exact ih
    · next cuts next hnext => exact hclose made current cuts next ih hnext

/-- After enough layers none is left. -/
theorem exists_closeMany_closeNext?_eq_none (frontiers : Frontiers task horizon) :
    ∃ n, (frontiers.closeMany n).2.closeNext? = none := by
  by_contra! hgoes
  -- Each layer leaves less to do, and there is only so much.
  have hless : ∀ n, (frontiers.closeMany n).2.remaining + n ≤ frontiers.remaining := by
    intro n
    induction n with
    | zero => exact Nat.le_refl _
    | succ n ih =>
      obtain ⟨⟨cuts, next⟩, hnext⟩ := Option.ne_none_iff_exists'.mp (hgoes n)
      have hlt := remaining_lt_of_closeNext? hnext
      have hmany : (frontiers.closeMany (n + 1)).2 = next := by
        rw [closeMany]
        dsimp only
        rw [hnext]
      rw [hmany]
      omega
  have hlast := hless (frontiers.remaining + 1)
  omega

/-- Two searches on their way, and the cuts of all pairs of their layers. -/
structure Paired (made : List Cut) (frontiers : Frontiers task horizon) : Prop where
  underway : frontiers.Underway
  perm : ∃ f b, frontiers = ⟨some f, some b⟩ ∧ made.Perm (meetingCuts f.closed b.closed)

/-- Closing a layer makes the cuts of the pairs that are new, whichever side it is on. -/
theorem Paired.closeNext (h : Paired made frontiers)
    (hclose : frontiers.closeNext? = some (cuts, next)) : Paired (made ++ cuts) next := by
  refine ⟨h.underway.closeNext hclose, ?_⟩
  obtain ⟨f, b, rfl, hperm⟩ := h.perm
  rcases closeNext?_eq_some hclose with
    ⟨search, k, layer, search', _, hsearch, hnext, rfl, rfl⟩ |
    ⟨search, k, layer, search', _, hsearch, hnext, rfl, rfl⟩
  · obtain rfl := Option.some.inj hsearch
    have hgrows := (h.underway .forward f rfl).grows hnext
    refine ⟨search', b, rfl, ?_⟩
    rw [hgrows.meetingCuts]
    exact hperm.append_right _
  · obtain rfl := Option.some.inj hsearch
    have hgrows := (h.underway .backward b rfl).grows hnext
    exact ⟨f, search', rfl,
      (hperm.append_right _).trans (hgrows.perm_meetingCuts f.closed).symm⟩

theorem Paired.closeMany (h : Paired [] frontiers) (n : Nat) :
    Paired (frontiers.closeMany n).1 (frontiers.closeMany n).2 :=
  closeMany_induction h (fun _ _ _ _ h hclose ↦ h.closeNext hclose) n

end Frontiers

end LayeredPlanning
