import LayeredPlanning.Proofs.Plans.Labels
import LayeredPlanning.Proofs.Reconstruction.Registry

/-!
# Histories of a registry

Whoever calls a registry may register cuts in any order of their costs, the same one more than once,
and construct up to bounds in any order.  `RegistryCall` is one such call, `CutRegistry.after` the
registry after a history of calls.

All that is asked of the caller is that its bounds are honest: before it constructs up to a bound,
each eligible path below that bound is a witness of a cut that has been registered (`Honest`).  Then
no plan is lost, though cuts are dropped by their costs alone.  The reason is that a cut leaves the
queue only below a bound, and what costs less than the largest bound so far is known; `Accounts` is
this invariant.
-/

namespace LayeredPlanning

/-- A call of a registry. -/
inductive RegistryCall where
  /-- Registers a cut. -/
  | register (cut : Cut)
  /-- Reconstructs the cuts below a bound from the layers of a view. -/
  | construct (bound : Int) (view : LayerView)

namespace CutRegistry

section Calls

variable {σ : Type} [PlanStore σ]

/-- The answer to a call, with the registry that it leaves.  A cut that is refused changes
nothing. -/
def answer (registry : CutRegistry σ) :
    RegistryCall → Except ReconstructionError Unit × CutRegistry σ
  | .register cut =>
    match registry.register cut with
    | .error e => (.error e, registry)
    | .ok next => (.ok (), next)
  | .construct bound view => registry.construct bound view

/-- The registry after a history of calls, whatever the answers. -/
def after (registry : CutRegistry σ) (calls : List RegistryCall) : CutRegistry σ :=
  calls.foldl (fun current call ↦ (current.answer call).2) registry

/-- The answers to a history of calls. -/
def answers (registry : CutRegistry σ) :
    List RegistryCall → List (Except ReconstructionError Unit)
  | [] => []
  | call :: rest => (registry.answer call).1 :: (registry.answer call).2.answers rest

/-- No call is answered by an error. -/
def Succeeds (registry : CutRegistry σ) (calls : List RegistryCall) : Prop :=
  ∀ answer ∈ registry.answers calls, answer = .ok ()

instance instDecidableSucceeds (registry : CutRegistry σ) (calls : List RegistryCall) :
    Decidable (registry.Succeeds calls) :=
  inferInstanceAs (Decidable (∀ answer ∈ registry.answers calls, answer = .ok ()))

variable {registry : CutRegistry σ} {calls : List RegistryCall} {call : RegistryCall}

theorem after_concat :
    registry.after (calls ++ [call]) = ((registry.after calls).answer call).2 := by
  rw [after, List.foldl_append]
  rfl

theorem after_append (registry : CutRegistry σ) (calls more : List RegistryCall) :
    registry.after (calls ++ more) = (registry.after calls).after more :=
  List.foldl_append

theorem answers_concat :
    registry.answers (calls ++ [call]) =
      registry.answers calls ++ [((registry.after calls).answer call).1] := by
  induction calls generalizing registry with
  | nil => rfl
  | cons first calls ih => exact congrArg (_ :: ·) ih

theorem succeeds_concat :
    registry.Succeeds (calls ++ [call]) ↔
      registry.Succeeds calls ∧ ((registry.after calls).answer call).1 = .ok () := by
  rw [Succeeds, answers_concat, List.forall_mem_append, List.forall_mem_singleton, Succeeds]

theorem Succeeds.of_append {before rest : List RegistryCall}
    (h : registry.Succeeds (before ++ rest)) : registry.Succeeds before := by
  induction rest using List.reverseRecOn with
  | nil => rwa [List.append_nil] at h
  | append_singleton rest last ih =>
    rw [← List.append_assoc] at h
    exact ih (succeeds_concat.mp h).1

end Calls

/-- Calls never change what is wanted. -/
theorem wishes_answer (registry : CutRegistry PlanDatabase) (call : RegistryCall) :
    (registry.answer call).2.wishes = registry.wishes := by
  cases call with
  | register cut =>
    rw [answer]
    split
    · rfl
    · next hregister =>
      rw [(register_eq_ok hregister).2]
      rfl
  | construct bound view => exact wishes_construct bound view registry

theorem wishes_after (registry : CutRegistry PlanDatabase) (calls : List RegistryCall) :
    (registry.after calls).wishes = registry.wishes := by
  induction calls using List.reverseRecOn with
  | nil => rfl
  | append_singleton calls call ih => rw [after_concat, wishes_answer, ih]

end CutRegistry

/-! ## Honest bounds -/

/-- A witness of a cut is one of a cut that waits, if the meeting states are listed. -/
theorem Cut.HasWitness.exists_listed {view : LayerView} {cut : Cut} {cuts : List Cut}
    {w : Witness view.task.transitions} (hw : cut.HasWitness view w)
    (hlisted : ∀ s ∈ cut.states, Cut.Listed cuts cut.g cut.h s) :
    ∃ c ∈ cuts, c.HasWitness view w := by
  obtain ⟨m, hm, hmeets⟩ := hw.meets
  obtain ⟨c, hc, hg, hh, hmc⟩ := hlisted m hm
  refine ⟨c, hc, ⟨⟨m, hmc, hmeets⟩, ?_, ?_, hw.closed_before, ?_, hw.levelSimple⟩⟩
  · rw [hg]
    exact hw.cost_before
  · rw [hh]
    exact hw.cost_after
  · rw [hg, hh]
    exact hw.closed_after

/-- The path is a witness of a cut that has been registered. -/
def Announced (view : LayerView) (calls : List RegistryCall)
    (es : List (Step view.task.transitions)) : Prop :=
  ∃ cut, .register cut ∈ calls ∧ ∃ w, cut.HasWitness view w ∧ w.path = es

/-- Before each construction, the eligible paths below its bound have been announced. -/
def Honest (view : LayerView) (simpleOnly : Bool) (calls : List RegistryCall) : Prop :=
  ∀ before bound rest, calls = before ++ .construct bound view :: rest →
    ∀ es, view.task.Eligible simpleOnly es → pathCost es < bound → Announced view before es

theorem Honest.of_append {view : LayerView} {simpleOnly : Bool} {calls more : List RegistryCall}
    (h : Honest view simpleOnly (calls ++ more)) : Honest view simpleOnly calls := by
  rintro before bound rest rfl
  refine h before bound (rest ++ more) ?_
  rw [List.append_assoc, List.cons_append]

namespace CutRegistry

variable {view : LayerView} {calls : List RegistryCall} {lo bound : Int} {cut : Cut}
  {registry registry' : CutRegistry PlanDatabase}

/-- What holds after a history of calls: the registry is settled at the largest bound so far, and
the meeting states of the registered cuts from there on are listed. -/
structure Accounts (view : LayerView) (calls : List RegistryCall) (lo : Int)
    (registry : CutRegistry PlanDatabase) : Prop extends registry.Settled view.task lo where
  bound_le : ∀ bound, .construct bound view ∈ calls → bound ≤ lo
  reached : lo = 0 ∨ .construct lo view ∈ calls
  listed : registry.foundAll = false → ∀ cut, .register cut ∈ calls →
    lo ≤ cut.g + cut.h →
    ∀ s ∈ cut.states, Cut.Listed registry.cuts cut.g cut.h s

namespace Accounts

theorem register (h : registry.Accounts view calls lo)
    (hregister : registry.register cut = .ok registry') :
    registry'.Accounts view (calls ++ [.register cut]) lo := by
  have hsettled := h.toSettled.register hregister
  obtain ⟨_, rfl⟩ := register_eq_ok hregister
  constructor
  case toSettled => exact hsettled
  case bound_le =>
    intro bound hbound
    rw [List.mem_append, List.mem_singleton] at hbound
    exact h.bound_le bound (hbound.resolve_right RegistryCall.noConfusion)
  case reached => exact h.reached.imp_right (List.mem_append_left _)
  case listed =>
    intro hopen c hc hcost s hs
    apply Cut.listed_insertInto.mpr
    rcases List.mem_append.mp hc with hc | hc
    · exact .inr (h.listed hopen c hc hcost s hs)
    · cases List.mem_singleton.mp hc
      exact .inl ⟨rfl, rfl, hs⟩

/-- Below an honest bound no eligible path is missed: what costs less than `lo` is known, and what
costs more is a witness of a cut that still waits. -/
theorem pending (h : registry.Accounts view calls lo)
    (hhonest : ∀ es, view.task.Eligible registry.store.simpleOnly es → pathCost es < bound →
      Announced view calls es)
    (hopen : registry.foundAll = false) : registry.Pending view (max lo bound) := by
  intro es hes hlt
  by_cases hlow : pathCost es < lo
  · exact .inl (h.knowsBelow hopen es hes hlow)
  obtain ⟨cut, hcut, w, hw, rfl⟩ := hhonest es hes (by omega)
  have hcost := hw.eligible.2
  obtain ⟨c, hc, hcw⟩ := hw.exists_listed (h.listed hopen cut hcut (by omega))
  exact .inr ⟨c, hc, w, hcw, rfl⟩

theorem construct (h : registry.Accounts view calls lo)
    (hcons : ∀ r ∈ view.task.transitions.relations, r.Consistent)
    (hhonest : ∀ es, view.task.Eligible registry.store.simpleOnly es → pathCost es < bound →
      Announced view calls es)
    (hconstruct : registry.construct bound view = (.ok (), registry')) :
    registry'.Accounts view (calls ++ [.construct bound view]) (max lo bound) := by
  obtain ⟨hsettled, hlisted⟩ := h.toSettled.construct hcons (h.pending hhonest) hconstruct
  constructor
  case toSettled => exact hsettled
  case bound_le =>
    intro b hb
    rcases List.mem_append.mp hb with hb | hb
    · exact Int.le_trans (h.bound_le b hb) (Int.le_max_left _ _)
    · cases List.mem_singleton.mp hb
      exact Int.le_max_right _ _
  case reached =>
    rcases Int.le_total lo bound with hle | hle
    · rw [Int.max_eq_right hle]
      exact .inr (List.mem_append_right _ List.mem_cons_self)
    · rw [Int.max_eq_left hle]
      exact h.reached.imp_right (List.mem_append_left _)
  case listed =>
    intro hopen c hc hcost s hs
    -- A registry that wants no more plans would have stayed as it is.
    have hbefore : registry.foundAll = false := by
      rw [← Bool.not_eq_true]
      intro hall
      rw [construct_of_foundAll hall] at hconstruct
      rw [← (Prod.mk.inj hconstruct).2, hall] at hopen
      cases hopen
    have hc : .register c ∈ calls := by
      rw [List.mem_append, List.mem_singleton] at hc
      exact hc.resolve_right RegistryCall.noConfusion
    exact hlisted hopen _ _ s (by omega) (h.listed hbefore c hc (by omega) s hs)

end Accounts

/-- After successful calls with honest bounds, what is below the largest bound is accounted for. -/
theorem exists_accounts (hcons : ∀ r ∈ view.task.transitions.relations, r.Consistent)
    (hsettled : registry.Settled view.task 0) (hsucceeds : registry.Succeeds calls)
    (hviews : ∀ bound other, .construct bound other ∈ calls → other = view)
    (hhonest : Honest view registry.store.simpleOnly calls) :
    ∃ lo, (registry.after calls).Accounts view calls lo := by
  induction calls using List.reverseRecOn with
  | nil => exact ⟨0, hsettled, fun _ h ↦ absurd h List.not_mem_nil, .inl rfl,
      fun _ _ h ↦ absurd h List.not_mem_nil⟩
  | append_singleton calls call ih =>
    obtain ⟨hsucceeds, hanswer⟩ := succeeds_concat.mp hsucceeds
    obtain ⟨lo, haccounts⟩ := ih hsucceeds
      (fun bound other h ↦ hviews bound other (List.mem_append_left _ h)) hhonest.of_append
    have hsimple : (registry.after calls).store.simpleOnly = registry.store.simpleOnly :=
      congrArg (·.2.1) (wishes_after registry calls)
    rw [after_concat]
    cases call with
    | register cut =>
      rw [answer] at hanswer ⊢
      split at hanswer
      · cases hanswer
      · next hregister => exact ⟨lo, haccounts.register hregister⟩
    | construct bound other =>
      obtain rfl := hviews bound other (List.mem_append_right _ List.mem_cons_self)
      refine ⟨max lo bound, haccounts.construct hcons ?_ (Prod.ext hanswer rfl)⟩
      rw [hsimple]
      exact hhonest calls bound [] rfl

/-- Whatever the order of the calls, a construction up to an honest bound after which plans are
still missing leaves the action sequence of every eligible path below the bound among the accepted
plans. -/
theorem mem_actions_of_honest {selection : Selection} {simpleOnly singleSolution : Bool}
    {database : PlanDatabase} {before rest : List RegistryCall}
    (hcons : ∀ r ∈ view.task.transitions.relations, r.Consistent)
    (hcosts : view.task.LabelsDetermineCosts)
    (hdatabase : PlanDatabase.ofSelection? selection simpleOnly = .ok database)
    (hviews : ∀ bound other, .construct bound other ∈ calls → other = view)
    (hdistinct : ∀ bound, .construct bound view ∈ calls →
      view.task.Distinguishes simpleOnly bound)
    (hsucceeds : (ofStore database singleSolution).Succeeds calls)
    (hhonest : Honest view simpleOnly calls)
    (hcalls : calls = before ++ .construct bound view :: rest)
    (hopen : ((ofStore database singleSolution).after
      (before ++ [.construct bound view])).foundAll = false)
    {es : List (Step view.task.transitions)} (hes : view.task.Eligible simpleOnly es)
    (hlt : pathCost es < bound) :
    es.map Step.action ∈ ((ofStore database singleSolution).after
      (before ++ [.construct bound view])).store.plans.map fun plan ↦ plan.actions := by
  rw [List.append_cons] at hcalls
  subst hcalls
  have hsimple : database.simpleOnly = simpleOnly :=
    PlanDatabase.simpleOnly_of_ofSelection? hdatabase
  obtain ⟨lo, haccounts⟩ := exists_accounts hcons (settled_ofStore hdatabase singleSolution)
    hsucceeds.of_append (fun b other h ↦ hviews b other (List.mem_append_left _ h))
    (hsimple ▸ hhonest.of_append)
  have hle := haccounts.bound_le bound (List.mem_append_right _ List.mem_cons_self)
  have hkept : ((ofStore database singleSolution).after
      (before ++ [.construct bound view])).store.simpleOnly = simpleOnly :=
    (congrArg (·.2.1) (wishes_after _ _)).trans hsimple
  generalize (ofStore database singleSolution).after (before ++ [.construct bound view]) = last
    at haccounts hopen hkept ⊢
  subst hkept
  have hdistinct : view.task.Distinguishes last.store.simpleOnly lo := by
    rcases haccounts.reached with hzero | hreached
    · exact absurd (pathCost_nonneg es) (by omega)
    · exact hdistinct lo (List.mem_append_left _ hreached)
  exact haccounts.database.mem_of_knows hcosts hdistinct haccounts.cost_lt hes (by omega)
    (haccounts.knowsBelow hopen es hes (by omega))

end CutRegistry

/-- The cut of the cycle behind its paid step, and once its plan is known a cut that costs less. -/
def cycleCalls : List RegistryCall :=
  [.register ⟨1, 0, .ofList [.single 1, .single 2]⟩, .construct 2 cycleView,
    .register ⟨0, 0, .singleton (.single 0)⟩, .construct 2 cycleView]

theorem honest_cycleCalls : Honest cycleView false cycleCalls := by
  intro before bound rest hcalls es hes _
  obtain rfl := cycle.eq_of_eligible hes
  refine ⟨⟨1, 0, .ofList [.single 1, .single 2]⟩, ?_,
    ⟨[cycle.enter], [cycle.turn (.single 2)]⟩, (mem_witnesses cycle.consistent).mp ?_, rfl⟩
  · cases before with
    | nil => cases hcalls
    | cons call before =>
      rw [← (List.cons.inj hcalls).1]
      exact List.mem_cons_self
  · decide +kernel

/-- The cheaper cut is dropped, and the plan of the cycle stays known. -/
theorem cycle_mem_actions_of_honest :
    [cycle.enter, cycle.turn (.single 2)].map Step.action ∈
      ((CutRegistry.ofStore (⟨.topK 2, false, [], [], none, false⟩ : PlanDatabase) false).after
        cycleCalls).store.plans.map fun plan ↦ plan.actions := by
  refine @CutRegistry.mem_actions_of_honest cycleView cycleCalls 2 (.topK 2) false false _
    cycleCalls.dropLast [] cycle.consistent cycle.labelsDetermineCosts rfl ?_
    (fun _ _ ↦ cycle.distinguishes _ _) ?_ honest_cycleCalls rfl ?_ _ (cycle.eligible _) ?_
  · intro bound other hcall
    simp only [cycleCalls, List.mem_cons, List.not_mem_nil, RegistryCall.construct.injEq,
      reduceCtorEq, false_or, or_false, or_self] at hcall
    exact hcall.2
  · decide +kernel
  · decide +kernel
  · decide +kernel

end LayeredPlanning
