import LayeredPlanning.Layers.LayerSearch
import LayeredPlanning.Layers.LayerView
import LayeredPlanning.Reconstruction.Cut

/-!
# Where searches meet

A layer of one search and a layer of the other that share states make a cut.  `Frontiers` is the
pair of searches of a run, of which one may be missing: closing the cheaper next layer answers the
cuts that it makes with all layers closed on the other side.  Without another side the layer is met
with the states from which that side would start.
-/

namespace LayeredPlanning

/-- The cut of a layer of cost `own` in direction `d` and a layer of cost `other` in the other
direction. -/
def Cut.ofMeeting (d : Direction) (own other : Int) (states : StateSet) : Cut :=
  match d with
  | .forward => ⟨own, other, states⟩
  | .backward => ⟨other, own, states⟩

/-- The cuts that a layer makes with the closed layers of the other direction, by their cost. -/
def meetings (d : Direction) (own : Int) (layer : StateSet) (other : ClosedLayers) : List Cut :=
  other.closedCosts.filterMap fun cost ↦
    let states := layer ∩ other.closedAt cost
    if states.isEmpty then none else some (.ofMeeting d own cost states)

/-- The cuts of all pairs of closed layers, by the cost of the forward layer, then of the backward
layer. -/
def meetingCuts (forward backward : ClosedLayers) : List Cut :=
  forward.closedCosts.flatMap fun g ↦ meetings .forward g (forward.closedAt g) backward

/-- The searches of a run. -/
structure Frontiers (task : Task) (horizon : Int) where
  /-- The search from the initial state, if there is one. -/
  forward? : Option (LayerSearch task .forward horizon)
  /-- The search from the goals, if there is one. -/
  backward? : Option (LayerSearch task .backward horizon)

namespace Frontiers

variable {task : Task} {horizon : Int}

/-- The direction whose next layer is cheaper; forward where both are equal. -/
def nextDirection? (frontiers : Frontiers task horizon) : Option Direction :=
  match frontiers.forward?.bind (·.nextCost?), frontiers.backward?.bind (·.nextCost?) with
  | some f, some b => if b < f then some .backward else some .forward
  | some _, none => some .forward
  | none, some _ => some .backward
  | none, none => none

/-- The cuts that a newly closed layer makes. -/
def cutsWith (task : Task) (d : Direction) (cost : Int) (layer : StateSet)
    (other? : Option ClosedLayers) : List Cut :=
  match other? with
  | some other => meetings d cost layer other
  | none =>
    let states := layer ∩ task.root d.opposite
    if states.isEmpty then [] else [.ofMeeting d cost 0 states]

/-- Closes the next layer of a search; answers the cuts that it makes with the other side. -/
def closeLayer? {d : Direction} (search? : Option (LayerSearch task d horizon))
    (other? : Option ClosedLayers) : Option (List Cut × LayerSearch task d horizon) :=
  match search? with
  | none => none
  | some search =>
    match search.closeNext? with
    | none => none
    | some ((cost, layer), next) => some (cutsWith task d cost layer other?, next)

/-- Closes the cheaper next layer; answers the cuts that it makes. -/
def closeNext? (frontiers : Frontiers task horizon) :
    Option (List Cut × Frontiers task horizon) :=
  match frontiers.nextDirection? with
  | none => none
  | some .forward =>
    (closeLayer? frontiers.forward? (frontiers.backward?.map (·.closed))).map fun (cuts, next) ↦
      (cuts, { frontiers with forward? := some next })
  | some .backward =>
    (closeLayer? frontiers.backward? (frontiers.forward?.map (·.closed))).map fun (cuts, next) ↦
      (cuts, { frontiers with backward? := some next })

/-- What reconstruction reads of the searches. -/
def view (frontiers : Frontiers task horizon) : LayerView :=
  { task := task
    forward? := frontiers.forward?.map (·.closed)
    backward? := frontiers.backward?.map (·.closed) }

/-- The cost below which every plan has made a cut, where no action costs more than
`maxActionCost`.  Of a plan that costs less than what both searches have closed and two more, less
the largest action cost, the longest part that the forward search has closed leaves a rest that the
backward search has closed. -/
def provenBound (frontiers : Frontiers task horizon) (maxActionCost : Int) : Int :=
  match frontiers.forward?.map (·.closedThrough), frontiers.backward?.map (·.closedThrough) with
  | some f, some b => Cost.satSub (Cost.satAdd (Cost.satAdd f b) 2) maxActionCost
  | some f, none => Cost.satAdd f 1
  | none, some b => Cost.satAdd b 1
  | none, none => 0

/-- An upper bound on the number of layers that are still to be closed. -/
def remaining (frontiers : Frontiers task horizon) : Nat :=
  (frontiers.forward?.map (·.remaining)).getD 0 + (frontiers.backward?.map (·.remaining)).getD 0

/-- A layer is closed by a search, which makes its cuts with the other side. -/
theorem closeLayer?_eq_some {d : Direction} {search? : Option (LayerSearch task d horizon)}
    {other? : Option ClosedLayers} {cuts : List Cut} {next : LayerSearch task d horizon}
    (h : closeLayer? search? other? = some (cuts, next)) :
    ∃ search cost layer, search? = some search ∧
      search.closeNext? = some ((cost, layer), next) ∧
      cuts = cutsWith task d cost layer other? := by
  unfold closeLayer? at h
  split at h
  · cases h
  · next search =>
    split at h
    · cases h
    · next hclose =>
      cases h
      exact ⟨search, _, _, rfl, hclose, rfl⟩

/-- What a step closes: the next layer from the initial state, or the next layer from the goals. -/
theorem closeNext?_eq_some {frontiers next : Frontiers task horizon} {cuts : List Cut}
    (h : frontiers.closeNext? = some (cuts, next)) :
    (∃ search k layer search', frontiers.nextDirection? = some .forward ∧
      frontiers.forward? = some search ∧ search.closeNext? = some ((k, layer), search') ∧
      cuts = cutsWith task .forward k layer (frontiers.backward?.map (·.closed)) ∧
      next = { frontiers with forward? := some search' }) ∨
    (∃ search k layer search', frontiers.nextDirection? = some .backward ∧
      frontiers.backward? = some search ∧ search.closeNext? = some ((k, layer), search') ∧
      cuts = cutsWith task .backward k layer (frontiers.forward?.map (·.closed)) ∧
      next = { frontiers with backward? := some search' }) := by
  rw [closeNext?] at h
  split at h
  · cases h
  · next hdir =>
    obtain ⟨⟨_, search'⟩, hlayer, heq⟩ := Option.map_eq_some_iff.mp h
    obtain ⟨rfl, rfl⟩ := Prod.mk.inj heq
    obtain ⟨search, k, layer, hsearch, hnext, hcuts⟩ := closeLayer?_eq_some hlayer
    exact .inl ⟨search, k, layer, search', hdir, hsearch, hnext, hcuts, rfl⟩
  · next hdir =>
    obtain ⟨⟨_, search'⟩, hlayer, heq⟩ := Option.map_eq_some_iff.mp h
    obtain ⟨rfl, rfl⟩ := Prod.mk.inj heq
    obtain ⟨search, k, layer, hsearch, hnext, hcuts⟩ := closeLayer?_eq_some hlayer
    exact .inr ⟨search, k, layer, search', hdir, hsearch, hnext, hcuts, rfl⟩

/-- Closing a layer leaves less to do. -/
theorem remaining_lt_of_closeNext? {frontiers next : Frontiers task horizon} {cuts : List Cut}
    (h : frontiers.closeNext? = some (cuts, next)) : next.remaining < frontiers.remaining := by
  rcases closeNext?_eq_some h with
    ⟨search, k, layer, search', _, hsearch, hclose, _, rfl⟩ |
    ⟨search, k, layer, search', _, hsearch, hclose, _, rfl⟩
  all_goals
    have hlt := LayerSearch.remaining_lt_of_closeNext? hclose
    simp only [remaining, hsearch, Option.map_some, Option.getD_some]
    omega

end Frontiers

end LayeredPlanning
