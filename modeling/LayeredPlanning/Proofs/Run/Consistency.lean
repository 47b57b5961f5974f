import LayeredPlanning.Proofs.Reconstruction.Justification
import LayeredPlanning.Proofs.Run.Opening

/-!
# What can go wrong in a run

Layers that a run has closed are justified (`Frontiers.Exact.justified`), and the searches meet in
the states of all cuts that wait (`CutRegistry.Awaits`).  So a reconstruction never fails, whatever
the bound up to which it is asked for: `Awaits.construct_eq_ok`.

What is left is a cut that the registry refuses.  Its costs are those of two layers that meet, so
they are no less than zero, and the reason can only be that their sum is too large:
`Ends.overflows`.
-/

namespace LayeredPlanning

open Relation

variable {task : Task} {d : Direction} {horizon done : Int} {s : State} {c : Int}

/-! ## Closed layers are justified -/

/-- Only reached states are closed. -/
theorem LayerSearch.Exact.reachedAt {search : LayerSearch task d horizon} (h : search.Exact done)
    (hs : s ∈ search.closed.closedAt c) : c ≤ done ∧ ReachedAt task d s c := by
  have hle : c ≤ done := by
    by_contra hlt
    exact h.notMem_closedAt c (Int.not_le.mp hlt) s hs
  exact ⟨hle, (h.mem_closedAt c hle s).mp hs⟩

namespace ClosedBy

variable {search? : Option (LayerSearch task d horizon)}

theorem cost_nonneg
    (hexact : ∀ search, search? = some search → ∃ done, -1 ≤ done ∧ search.Exact done)
    (hs : ClosedBy search? s c) : 0 ≤ c := by
  cases search? with
  | none => exact hs.1.ge
  | some search =>
    obtain ⟨done, -, hdone⟩ := hexact search rfl
    exact (hdone.reachedAt hs).2.cost_nonneg

/-- A closed state is a root, or a step leads to it from a closed state. -/
theorem justifies
    (hexact : ∀ search, search? = some search → ∃ done, -1 ≤ done ∧ search.Exact done)
    (hs : ClosedBy search? s c) :
    c = 0 ∧ s ∈ task.root d ∨
      ∃ r ∈ task.transitions.relations, ∃ t, s ∈ r.step d (.singleton t) ∧
        r.action.cost ≤ c ∧ ClosedBy search? t (c - r.action.cost) := by
  cases search? with
  | none => exact .inl hs
  | some search =>
    obtain ⟨done, -, hdone⟩ := hexact search rfl
    obtain ⟨hle, hreached⟩ := hdone.reachedAt hs
    cases hreached with
    | root hroot => exact .inl ⟨rfl, hroot⟩
    | @step t _ b r ht hr hstep =>
      have hb := ht.cost_nonneg
      have hcost := r.action.cost_nonneg
      refine .inr ⟨r, hr, t, hstep, Int.le_add_of_nonneg_left hb, ?_⟩
      rw [Int.add_sub_cancel]
      exact (hdone.mem_closedAt b (by omega) t).mpr ht

end ClosedBy

namespace Frontiers

variable {frontiers next : Frontiers task horizon} {cuts : List Cut} {cut : Cut} {g h : Int}

theorem holds_forward_iff :
    frontiers.view.Holds .forward s c ↔ ClosedBy frontiers.forward? s c := by
  obtain ⟨_ | f, b⟩ := frontiers
  · exact Iff.rfl
  · exact Iff.rfl

theorem holds_backward_iff :
    frontiers.view.Holds .backward s c ↔ ClosedBy frontiers.backward? s c := by
  obtain ⟨f, _ | b⟩ := frontiers
  · exact Iff.rfl
  · exact Iff.rfl

/-- Exact searches leave justified layers. -/
theorem Exact.justified (h : frontiers.Exact) : frontiers.view.Justified := by
  intro d s c hs
  cases d with
  | forward =>
    simp only [holds_forward_iff] at hs ⊢
    exact hs.justifies h.forward
  | backward =>
    simp only [holds_backward_iff] at hs ⊢
    exact hs.justifies h.backward

/-! ## Searches that close layers -/

/-- Closing a layer leads from one state of the searches to the next. -/
def Closes (frontiers next : Frontiers task horizon) : Prop :=
  ∃ cuts, frontiers.closeNext? = some (cuts, next)

/-- No layer beyond the horizon is closed. -/
structure Within (frontiers : Frontiers task horizon) : Prop where
  forward : ∀ s c, ClosedBy frontiers.forward? s c → c ≤ horizon
  backward : ∀ s c, ClosedBy frontiers.backward? s c → c ≤ horizon

theorem within_start (task : Task) {policy : RunPolicy} (hpolicy : 0 ≤ policy.maxCost) :
    (Frontiers.start task policy).Within := by
  have hsearch : ∀ (d : Direction) (s : State) (c : Int),
      ClosedBy (some (LayerSearch.start task d policy.maxCost)) s c → c ≤ policy.maxCost := by
    intro d s c hs
    rw [ClosedBy, LayerSearch.start, dif_pos hpolicy] at hs
    exact absurd hs ClosedLayers.notMem_closedAt_empty
  have hroot : ∀ (d : Direction) (s : State) (c : Int),
      ClosedBy (none : Option (LayerSearch task d policy.maxCost)) s c → c ≤ policy.maxCost :=
    fun d s c hs ↦ hs.1.trans_le hpolicy
  rcases start_cases task policy with ⟨_, heq⟩ | ⟨_, heq⟩ | ⟨_, heq⟩
  · rw [heq]
    exact ⟨hsearch .forward, hroot .backward⟩
  · rw [heq]
    exact ⟨hroot .forward, hsearch .backward⟩
  · rw [heq]
    exact ⟨hsearch .forward, hsearch .backward⟩

theorem le_horizon_of_closeNext? {search search' : LayerSearch task d horizon} {k : Int}
    {layer : StateSet} (hclose : search.closeNext? = some ((k, layer), search'))
    (hsearch : ∀ s c, ClosedBy (some search) s c → c ≤ horizon) (s : State) (c : Int)
    (hs : ClosedBy (some search') s c) : c ≤ horizon := by
  rcases closedBy_of_closeNext? hclose hs with hold | ⟨rfl, -⟩
  · exact hsearch s c hold
  · exact LayerSearch.le_horizon_of_nextCost? (LayerSearch.nextCost?_of_closeNext? hclose)

theorem Within.closeNext (h : frontiers.Within)
    (hclose : frontiers.closeNext? = some (cuts, next)) : next.Within := by
  rcases closeNext?_eq_some hclose with
    ⟨search, k, layer, search', _, hsearch, hnext, _, rfl⟩ |
    ⟨search, k, layer, search', _, hsearch, hnext, _, rfl⟩
  · exact ⟨le_horizon_of_closeNext? hnext (hsearch ▸ h.forward), h.backward⟩
  · exact ⟨h.forward, le_horizon_of_closeNext? hnext (hsearch ▸ h.backward)⟩

/-- The searches of a run are exact, and stay within the horizon. -/
theorem exact_and_within {policy : RunPolicy} (hpolicy : 0 ≤ policy.maxCost)
    {frontiers : Frontiers task policy.maxCost}
    (h : ReflTransGen Closes (Frontiers.start task policy) frontiers) :
    frontiers.Exact ∧ frontiers.Within := by
  induction h with
  | refl => exact ⟨exact_start task hpolicy, within_start task hpolicy⟩
  | tail _ hcloses ih =>
    obtain ⟨cuts, hclose⟩ := hcloses
    exact ⟨ih.1.closeNext hclose, ih.2.closeNext hclose⟩

/-! ## The cuts of a layer -/

/-- Closing a layer closes its states, and leaves closed what is closed. -/
theorem closedBy_closeNext? {search search' : LayerSearch task d horizon} {k : Int}
    {layer : StateSet} (hclose : search.closeNext? = some ((k, layer), search'))
    (hs : ClosedBy (some search) s c ∨ c = k ∧ s ∈ layer) : ClosedBy (some search') s c := by
  obtain ⟨frontier, rest, _, rfl, _, hclosed⟩ := LayerSearch.closeNext?_eq_some hclose
  rw [ClosedBy, hclosed, ClosedLayers.mem_closedAt_pushSublayers]
  exact hs

/-- Where the searches have met they go on meeting. -/
theorem Meets.closeNext (h : frontiers.Meets g c s)
    (hclose : frontiers.closeNext? = some (cuts, next)) : next.Meets g c s := by
  rcases closeNext?_eq_some hclose with
    ⟨search, k, layer, search', _, hsearch, hnext, _, rfl⟩ |
    ⟨search, k, layer, search', _, hsearch, hnext, _, rfl⟩
  · exact ⟨closedBy_closeNext? hnext (.inl (hsearch ▸ h.1)), h.2⟩
  · exact ⟨h.1, closedBy_closeNext? hnext (.inl (hsearch ▸ h.2))⟩

/-- A cut is made of states of the layer that the other side has closed, and there are some. -/
theorem of_mem_cutsWith {own : Int} {layer : StateSet}
    (other? : Option (LayerSearch task d.opposite horizon))
    (hcut : cut ∈ cutsWith task d own layer (other?.map (·.closed))) :
    ∃ other states, cut = .ofMeeting d own other states ∧ (∃ s, s ∈ states) ∧
      ∀ s ∈ states, s ∈ layer ∧ ClosedBy other? s other := by
  cases other? with
  | none =>
    rw [Option.map_none, cutsWith] at hcut
    split at hcut
    · exact absurd hcut List.not_mem_nil
    · next hmet =>
      have hsome := StateSet.isEmpty_eq_false_iff.mp (Bool.not_eq_true _ ▸ hmet)
      refine ⟨0, _, List.mem_singleton.mp hcut, hsome, ?_⟩
      intro s hs
      obtain ⟨hlayer, hroot⟩ := StateSet.mem_inter.mp hs
      exact ⟨hlayer, rfl, hroot⟩
  | some search =>
    obtain ⟨other, -, hsome⟩ := List.mem_filterMap.mp hcut
    dsimp only at hsome
    split at hsome
    · cases hsome
    · next hmet =>
      have hstates := StateSet.isEmpty_eq_false_iff.mp (Bool.not_eq_true _ ▸ hmet)
      exact ⟨other, _, (Option.some.inj hsome).symm, hstates,
        fun s hs ↦ StateSet.mem_inter.mp hs⟩

/-- The cuts of a new layer have states, and the searches meet there. -/
theorem meets_of_mem_cuts (hclose : frontiers.closeNext? = some (cuts, next))
    (hcut : cut ∈ cuts) :
    (∃ s, s ∈ cut.states) ∧ ∀ s ∈ cut.states, next.Meets cut.g cut.h s := by
  rcases closeNext?_eq_some hclose with
    ⟨search, k, layer, search', _, hsearch, hnext, rfl, rfl⟩ |
    ⟨search, k, layer, search', _, hsearch, hnext, rfl, rfl⟩
  · obtain ⟨other, states, rfl, hmet, hall⟩ :=
      of_mem_cutsWith (d := .forward) frontiers.backward? hcut
    refine ⟨hmet, ?_⟩
    intro s hs
    obtain ⟨hlayer, hother⟩ := hall s hs
    exact ⟨closedBy_closeNext? hnext (.inr ⟨rfl, hlayer⟩), hother⟩
  · obtain ⟨other, states, rfl, hmet, hall⟩ :=
      of_mem_cutsWith (d := .backward) frontiers.forward? hcut
    refine ⟨hmet, ?_⟩
    intro s hs
    obtain ⟨hlayer, hother⟩ := hall s hs
    exact ⟨hother, closedBy_closeNext? hnext (.inr ⟨rfl, hlayer⟩)⟩

end Frontiers

/-! ## Cuts that wait -/

namespace CutRegistry

variable {frontiers next : Frontiers task horizon} {registry registry' : CutRegistry PlanDatabase}
  {cuts rest : List Cut} {cut : Cut} {bound : Int}

/-- A cut is refused if one of its costs is negative, or their sum too large. -/
theorem register_eq_error {e : ReconstructionError} (h : registry.register cut = .error e) :
    cut.g < 0 ∨ cut.h < 0 ∨
      Cost.max < cut.g + cut.h ∧ e = .invalidCut cut.g cut.h "g + h overflows" := by
  rw [register] at h
  split at h
  · next hneg =>
    rw [← or_assoc]
    exact .inl hneg
  · split at h
    · next hmax =>
      cases h
      exact .inr (.inr ⟨hmax, rfl⟩)
    · cases h

/-- The cuts that wait are in order, and the searches meet in their states; they have met where cuts
were decided. -/
structure Awaits (frontiers : Frontiers task horizon) (registry : CutRegistry PlanDatabase) :
    Prop where
  sorted : registry.cuts.Pairwise fun a b ↦ a.key < b.key
  valid : ∀ cut ∈ registry.cuts, cut.Valid
  occupied : ∀ cut ∈ registry.cuts, ∃ s, s ∈ cut.states
  meets : ∀ cut ∈ registry.cuts, ∀ s ∈ cut.states, frontiers.Meets cut.g cut.h s
  decided : ∀ event ∈ registry.events, ∃ s, frontiers.Meets event.g event.h s

namespace Awaits

theorem ofStore (frontiers : Frontiers task horizon) (database : PlanDatabase)
    (singleSolution : Bool) : (ofStore database singleSolution).Awaits frontiers := by
  have hnone : ∀ {p : Cut → Prop}, ∀ cut ∈ ([] : List Cut), p cut := fun _ hcut ↦
    absurd hcut List.not_mem_nil
  exact ⟨List.Pairwise.nil, hnone, hnone, hnone,
    fun _ hevent ↦ absurd hevent List.not_mem_nil⟩

theorem register (h : registry.Awaits frontiers) (hoccupied : ∃ s, s ∈ cut.states)
    (hmeets : ∀ s ∈ cut.states, frontiers.Meets cut.g cut.h s)
    (hregister : registry.register cut = .ok registry') : registry'.Awaits frontiers := by
  obtain ⟨hcut, rfl⟩ := register_eq_ok hregister
  constructor
  case sorted => exact Cut.pairwise_insertInto h.sorted
  case valid =>
    intro c hc
    rcases Cut.key_of_mem_insertInto hc with hkey | hc
    · exact Cut.valid_of_key hkey hcut
    · exact h.valid c hc
  case occupied => exact Cut.occupied_insertInto hoccupied h.occupied
  case meets =>
    intro c hc s hs
    rcases Cut.listed_insertInto.mp ⟨c, hc, rfl, rfl, hs⟩ with ⟨hg, hh, hs⟩ |
      ⟨b, hb, hg, hh, hs⟩
    · rw [← hg, ← hh]
      exact hmeets s hs
    · rw [← hg, ← hh]
      exact h.meets b hb s hs
  case decided => exact h.decided

theorem closeNext (h : registry.Awaits frontiers)
    (hclose : frontiers.closeNext? = some (cuts, next)) : registry.Awaits next := by
  refine ⟨h.sorted, h.valid, h.occupied, ?_, ?_⟩
  · intro cut hcut s hs
    exact (h.meets cut hcut s hs).closeNext hclose
  · intro event hevent
    obtain ⟨s, hs⟩ := h.decided event hevent
    exact ⟨s, hs.closeNext hclose⟩

/-- The searches have met where the first cut is decided. -/
theorem decide (h : registry.Awaits frontiers) (hcuts : registry.cuts = cut :: rest)
    {outcome : CutOutcome} (hcuts' : registry'.cuts.Sublist registry.cuts)
    (hevents : registry'.events = registry.events ++ [.ofCut cut outcome]) :
    registry'.Awaits frontiers := by
  have hfirst : cut ∈ registry.cuts := by
    rw [hcuts]
    exact List.mem_cons_self
  refine ⟨h.sorted.sublist hcuts', fun c hc ↦ h.valid c (hcuts'.subset hc),
    fun c hc ↦ h.occupied c (hcuts'.subset hc), fun c hc ↦ h.meets c (hcuts'.subset hc), ?_⟩
  intro event hevent
  rw [hevents] at hevent
  rcases List.mem_append.mp hevent with hold | hnew
  · exact h.decided event hold
  · obtain rfl := List.mem_singleton.mp hnew
    obtain ⟨s, hs⟩ := h.occupied cut hfirst
    exact ⟨s, h.meets cut hfirst s hs⟩

theorem decides {view : LayerView} (h : registry.Awaits frontiers)
    (hdecides : registry.Decides bound view registry') : registry'.Awaits frontiers := by
  cases hdecides with
  | drop hup | reconstruct hup =>
    refine h.decide hup.cuts ?_ rfl
    rw [hup.cuts]
    exact List.sublist_cons_self _ _

theorem construct (h : registry.Awaits frontiers) (bound : Int) (view : LayerView) :
    (registry.construct bound view).2.Awaits frontiers := by
  refine construct_induction (P := fun registry ↦ registry.Awaits frontiers)
    (fun _ _ h hdecides ↦ h.decides hdecides) ?_
    (fun _ _ h ↦ ⟨h.sorted, h.valid, h.occupied, h.meets, h.decided⟩) h
  intro registry result registry' h hstops
  cases hstops with
  | done | fail => exact ⟨h.sorted, h.valid, h.occupied, h.meets, h.decided⟩
  | refuse hup => exact h.decide hup.cuts (List.Sublist.refl _) rfl

/-- Cuts in whose states the searches meet are reconstructed without an error, whatever the
bound. -/
theorem construct_eq_ok (h : registry.Awaits frontiers) (hlawful : task.Lawful)
    (hexact : frontiers.Exact) (bound : Int) :
    (registry.construct bound frontiers.view).1 = .ok () := by
  rcases hconstruct : registry.construct bound frontiers.view with ⟨e | ⟨⟩, failed⟩
  · obtain ⟨last, hlast, hstops⟩ := construct_eq_error hconstruct
    have hwaits : last.Awaits frontiers :=
      decides_induction (fun _ _ h hdecides ↦ h.decides hdecides) h hlast
    cases hstops with
    | @fail cut rest _ _ hup hrec =>
      have hmem : cut ∈ last.cuts := by
        rw [hup.cuts]
        exact List.mem_cons_self
      have hheld : cut.HeldBy frontiers.view := fun m hm ↦
        ⟨Frontiers.holds_forward_iff.mpr (hwaits.meets cut hmem m hm).1,
          Frontiers.holds_backward_iff.mpr (hwaits.meets cut hmem m hm).2⟩
      obtain ⟨tally, htally⟩ := exists_tally_reconstruct hexact.justified hlawful.consistent
        (fun s hs ↦ (hlawful.isGoal_iff s).mpr hs) (hwaits.valid cut hmem) hheld last.missing
        last.store
      rw [hrec] at htally
      cases htally
  · rfl

end Awaits

end CutRegistry

/-! ## Turns -/

section Run

variable {frontiers next current : Frontiers task horizon} {progress progress' reached : Progress}
  {cuts made : List Cut} {policy : RunPolicy}

/-- Raising the bound never fails where the searches meet in the cuts that wait. -/
theorem Progress.raiseBound_ne_error (h : progress.registry.Awaits frontiers)
    (hlawful : task.Lawful) (hexact : frontiers.Exact) (bound : Int) (e : RunError) :
    progress.raiseBound bound frontiers.view ≠ .error e := by
  intro hraise
  obtain ⟨-, cause, failed, hconstruct, -⟩ := Progress.raiseBound_eq_error hraise
  have hok := h.construct_eq_ok hlawful hexact bound
  rw [hconstruct] at hok
  cases hok

/-- The cuts of a new layer join those that wait. -/
theorem Progress.awaits_registerCuts (h : progress.registry.Awaits frontiers)
    (hopen : progress.registry.foundAll = false)
    (hclose : frontiers.closeNext? = some (cuts, next))
    (hregister : progress.registerCuts cuts = .ok progress') : progress'.registry.Awaits next := by
  have hcuts := Progress.registerCuts_induction
    (P := fun made current ↦ (∀ cut ∈ made, cut ∈ cuts) → current.registry.Awaits next)
    ?_ [] hopen (fun _ ↦ h.closeNext hclose) hregister
  · exact hcuts.1 fun cut hcut ↦ hcut
  · intro made current cut registry ih hregistered hmade
    obtain ⟨hoccupied, hmeets⟩ := Frontiers.meets_of_mem_cuts hclose
      (hmade cut (List.mem_append_right _ (List.mem_singleton.mpr rfl)))
    exact (ih fun c hc ↦ hmade c (List.mem_append_left _ hc)).register hoccupied
      hmeets hregistered

/-- Raising the bound leaves the cuts that wait. -/
theorem Progress.awaits_raiseBound {bound : Int} {view : LayerView}
    (h : progress.registry.Awaits frontiers)
    (hraise : progress.raiseBound bound view = .ok progress') :
    progress'.registry.Awaits frontiers := by
  rcases Progress.raiseBound_eq_ok hraise with ⟨-, rfl⟩ | ⟨-, -, hconstruct, -⟩
  · exact h
  · have hwaits := h.construct bound view
    rwa [hconstruct] at hwaits

/-- In all that a run comes to by turns, the searches meet in the cuts that wait. -/
theorem Turns.awaits (h : Turns frontiers progress made current reached)
    (hstart : progress.registry.Awaits frontiers) :
    ReflTransGen Frontiers.Closes frontiers current ∧ reached.registry.Awaits current := by
  refine h.induction (P := fun _ current reached ↦
    ReflTransGen Frontiers.Closes frontiers current ∧ reached.registry.Awaits current)
    ⟨.refl, hstart⟩ ?_
  rintro _ current reached cuts next raised ⟨hcloses, hwaits⟩ hturn
  obtain ⟨registered, hregister, hraise⟩ := hturn.raises
  have hregistered := Progress.awaits_registerCuts hwaits hturn.missing hturn.closes hregister
  exact ⟨hcloses.tail ⟨cuts, hturn.closes⟩, Progress.awaits_raiseBound hregistered hraise⟩

/-- Two closed layers meet whose costs cannot be added. -/
def Frontiers.Overflows (frontiers : Frontiers task horizon) (g h : Int) : Prop :=
  Cost.max < g + h ∧ ∃ f b s, frontiers.forward? = some f ∧ frontiers.backward? = some b ∧
    s ∈ f.closed.closedAt g ∧ s ∈ b.closed.closedAt h

/-- A meeting whose costs cannot be added is one of two closed layers. -/
theorem Frontiers.Meets.overflows {g h : Int} (hmeets : frontiers.Meets g h s)
    (hwithin : frontiers.Within) (hrange : horizon ≤ Cost.max) (hmax : Cost.max < g + h) :
    frontiers.Overflows g h := by
  have hg := hwithin.forward s g hmeets.1
  have hh := hwithin.backward s h hmeets.2
  obtain ⟨_ | f, _ | b⟩ := frontiers
  · have hzero : g = 0 := hmeets.1.1
    omega
  · have hzero : g = 0 := hmeets.1.1
    omega
  · have hzero : h = 0 := hmeets.2.1
    omega
  · exact ⟨hmax, f, b, s, rfl, rfl, hmeets.1, hmeets.2⟩

/-- A run on searches that meet in the cuts that wait fails only if the next layer makes a cut whose
costs cannot be added. -/
theorem Ends.overflows {e : RunError} (h : Ends frontiers progress (.error e))
    (hlawful : task.Lawful) (hrange : horizon ≤ Cost.max) (hexact : frontiers.Exact)
    (hwithin : frontiers.Within) (hwaits : progress.registry.Awaits frontiers) :
    ∃ g h next, e = .aborted (.invalidCut g h "g + h overflows") progress.plans ∧
      frontiers.Closes next ∧ next.Overflows g h := by
  cases h with
  | failAtEnd _ hraise =>
    exact absurd hraise (Progress.raiseBound_ne_error hwaits hlawful hexact _ _)
  | fail hopen hclose hregister hraise =>
    have hregistered := Progress.awaits_registerCuts hwaits hopen hclose hregister
    exact absurd hraise
      (Progress.raiseBound_ne_error hregistered hlawful (hexact.closeNext hclose) _ _)
  | @refuse cuts next _ hopen hclose hregister =>
    obtain ⟨cut, hcut, registry, cause, hrefused, rfl⟩ :=
      Progress.registerCuts_eq_error hopen hregister
    obtain ⟨⟨s, hs⟩, hall⟩ := Frontiers.meets_of_mem_cuts hclose hcut
    have hmeets := hall s hs
    have hnext := hexact.closeNext hclose
    rcases CutRegistry.register_eq_error hrefused with hneg | hneg | ⟨hmax, rfl⟩
    · exact absurd (hmeets.1.cost_nonneg hnext.forward) (Int.not_le.mpr hneg)
    · exact absurd (hmeets.2.cost_nonneg hnext.backward) (Int.not_le.mpr hneg)
    · exact ⟨cut.g, cut.h, next, rfl, ⟨cuts, hclose⟩,
        hmeets.overflows (hwithin.closeNext hclose) hrange hmax⟩

/-! ## Runs -/

/-- A run under a policy without a fault fails only if two closed layers meet whose costs cannot be
added. -/
theorem overflows_of_run_eq_error (hlawful : task.Lawful) (hrange : policy.maxCost ≤ Cost.max)
    (hfault : policy.fault? = none) {e : RunError} (h : run task policy = .error e) :
    ∃ (g h : Int) (accepted : List Plan) (frontiers : Frontiers task policy.maxCost),
      e = .aborted (.invalidCut g h "g + h overflows") accepted ∧
        ReflTransGen Frontiers.Closes (.start task policy) frontiers ∧
        frontiers.Overflows g h := by
  obtain ⟨hpolicy, -⟩ := RunPolicy.exists_database hfault
  obtain ⟨database, made, frontiers, reached, result, -, hturns, hends, hrun⟩ :=
    exists_turns_of_run task hfault
  rw [h] at hrun
  cases result with
  | ok last => cases hrun
  | error e' =>
    obtain rfl : e = e' := Except.error.inj hrun
    obtain ⟨hcloses, hwaits⟩ := hturns.awaits (.ofStore _ database policy.singleSolution)
    obtain ⟨hexact, hwithin⟩ := Frontiers.exact_and_within hpolicy hcloses
    obtain ⟨g, k, next, rfl, hnext, hoverflows⟩ :=
      hends.overflows hlawful hrange hexact hwithin hwaits
    exact ⟨g, k, _, next, rfl, hcloses.tail hnext, hoverflows⟩

/-- A run fails at once if its policy has a fault.  It is never given up for layers that cannot
explain a cut, but only if two closed layers meet whose costs cannot be added, which is out of the
question if the horizon is at most half of the largest cost. -/
theorem run_aborts_only_on_overflow (task : ExplicitTask) (policy : RunPolicy)
    (hrange : policy.maxCost ≤ Cost.max) :
    (∀ cause, run task.toTask policy = .error (.setup cause) ↔ policy.fault? = some cause) ∧
    (∀ cause accepted, run task.toTask policy = .error (.aborted cause accepted) →
      cause.isConsistencyViolation = false) ∧
    (policy.fault? = none → ∀ e, run task.toTask policy = .error e →
      ∃ (g h : Int) (accepted : List Plan) (frontiers : Frontiers task.toTask policy.maxCost),
        e = .aborted (.invalidCut g h "g + h overflows") accepted ∧
          ReflTransGen Frontiers.Closes (.start task.toTask policy) frontiers ∧
          frontiers.Overflows g h) ∧
    (policy.fault? = none → policy.maxCost ≤ Cost.max / 2 →
      ∃ outcome, run task.toTask policy = .ok outcome) := by
  have honly : policy.fault? = none → ∀ e, run task.toTask policy = .error e → _ :=
    fun hfault _ ↦ overflows_of_run_eq_error task.lawful hrange hfault
  refine ⟨?_, ?_, honly, ?_⟩
  · intro cause
    constructor
    · intro h
      cases hfault : policy.fault? with
      | none =>
        obtain ⟨_, _, _, _, habort, -⟩ := honly hfault _ h
        cases habort
      | some fault =>
        rw [run_eq_setup hfault] at h
        cases h
        rfl
    · exact run_eq_setup
  · intro cause accepted h
    cases hfault : policy.fault? with
    | none =>
      obtain ⟨_, _, _, _, habort, -⟩ := honly hfault _ h
      cases habort
      rfl
    | some fault =>
      rw [run_eq_setup hfault] at h
      cases h
  · intro hfault hhalf
    cases hrun : run task.toTask policy with
    | ok outcome => exact ⟨outcome, rfl⟩
    | error e =>
      obtain ⟨hpolicy, -⟩ := RunPolicy.exists_database hfault
      obtain ⟨g, h, _, frontiers, -, hcloses, hmax, f, b, s, hf, hb, hg, hh⟩ :=
        honly hfault _ hrun
      obtain ⟨-, hwithin⟩ := Frontiers.exact_and_within hpolicy hcloses
      have hg := hwithin.forward s g (by rwa [hf])
      have hh := hwithin.backward s h (by rwa [hb])
      omega

/-- Along the detour two layers meet whose costs cannot be added. -/
theorem detour_aborts_only_on_overflow :
    RunPolicy.farthest.maxCost ≤ Cost.max ∧ RunPolicy.farthest.fault? = none ∧
      (∃ e, run detour.toTask .farthest = .error e) ∧
      ∃ (g h : Int) (frontiers : Frontiers detour.toTask RunPolicy.farthest.maxCost),
        ReflTransGen Frontiers.Closes (.start detour.toTask .farthest) frontiers ∧
          frontiers.Overflows g h := by
  have hrange : RunPolicy.farthest.maxCost ≤ Cost.max := Int.le_refl _
  have hfault : RunPolicy.farthest.fault? = none := by decide
  have hfails : (run detour.toTask .farthest).toOption = none := by decide +kernel
  obtain ⟨e, he⟩ : ∃ e, run detour.toTask .farthest = .error e := by
    cases hrun : run detour.toTask .farthest with
    | ok outcome =>
      rw [hrun] at hfails
      cases hfails
    | error e => exact ⟨e, rfl⟩
  obtain ⟨g, h, _, frontiers, -, hcloses, hoverflows⟩ :=
    (run_aborts_only_on_overflow detour .farthest hrange).2.2.1 hfault e he
  exact ⟨hrange, hfault, ⟨e, he⟩, g, h, frontiers, hcloses, hoverflows⟩

end Run

end LayeredPlanning
