import LayeredPlanning.Proofs.Canonical.Values
import LayeredPlanning.Proofs.Plans.Encoding
import LayeredPlanning.Run.Basic

/-!
# Reports and outcomes are rendered without loss

A report and the outcome of a run are rendered as JSON values, and these as canonical bytes.  That
never fails for records whose costs fit signed and whose counts fit unsigned words of 64 bits
(`Report.Representable`, `RunOutcome.Representable`), and no two records have the same bytes:
`renderings_faithful`.  So the digest of a report determines the report, as long as the hash
function does not collide.

What is needed of a record is needed of its parts: a rendering that has it is `Json.Faithful`, and
so are the renderings built from it.
-/

namespace LayeredPlanning

/-- The number of things counted fits an unsigned 64-bit word. -/
def Count.InRange (n : Nat) : Prop := n < 18446744073709551616

instance Count.instDecidableInRange (n : Nat) : Decidable (InRange n) :=
  inferInstanceAs (Decidable (n < 18446744073709551616))

/-! ## Faithful renderings -/

namespace Json

variable {α : Type} {f : α → Json} {P : α → Prop} {members : List (String × Json)}

/-- The numbers in the value are integers of word size. -/
def Words (v : Json) : Prop := ∀ n ∈ v.numbers, n.IsWord

theorem forall_mem_numbersOfItems {items : List Json} :
    (∀ n ∈ numbersOfItems items, n.IsWord) ↔ ∀ v ∈ items, v.Words := by
  induction items with
  | nil => simp [numbersOfItems]
  | cons v items ih => rw [numbersOfItems, List.forall_mem_append, ih, List.forall_mem_cons, Words]

theorem words_object_nil : (object []).Words := List.forall_mem_nil _

theorem words_object_cons {m : String × Json} :
    (object (m :: members)).Words ↔ m.2.Words ∧ (object members).Words := by
  rw [Words, numbers, numbersOfMembers, List.forall_mem_append]
  rfl

/-- Objects with the same first key are the same if the values at this key are, and the other
members. -/
theorem object_cons_inj {key : String} {v w : Json} {others : List (String × Json)} :
    object ((key, v) :: members) = object ((key, w) :: others) ↔
      v = w ∧ object members = object others := by
  simp only [object.injEq, List.cons.injEq, Prod.mk.injEq, true_and]

theorem orderedItems_iff {items : List Json} :
    OrderedItems items ↔ ∀ v ∈ items, v.Ordered := by
  induction items with
  | nil => simp [OrderedItems]
  | cons v items ih => rw [OrderedItems, ih, List.forall_mem_cons]

/-- An object is ordered if its keys ascend and its values are ordered. -/
theorem ordered_object (hkeys : (members.map Prod.fst).Pairwise (· < ·))
    (hvalues : OrderedMembers members) : (object members).Ordered :=
  ⟨List.pairwise_map.mp hkeys, hvalues⟩

/-- A rendering of data as JSON values that loses nothing.  The values have one canonical text each,
if the data is such as `P` asks for. -/
structure Faithful (f : α → Json) (P : α → Prop) : Prop where
  ordered : ∀ a, (f a).Ordered
  words : ∀ a, P a → (f a).Words
  injective : Function.Injective f

namespace Faithful

theorem int : Faithful Json.int Cost.InRange where
  ordered _ := trivial
  words n hn := by
    have hmax : Cost.max < 18446744073709551616 := by decide
    rw [Words, Json.int, numbers, List.forall_mem_singleton]
    exact ⟨hn.1, hn.2.trans_lt hmax⟩
  injective _ _ h := JsonNumber.integer.inj (number.inj h)

theorem nat : Faithful Json.nat Count.InRange where
  ordered _ := trivial
  words n hn := by
    rw [Words, Json.nat, Json.int, numbers, List.forall_mem_singleton]
    exact ⟨(by decide : (-9223372036854775808 : Int) ≤ 0).trans (Int.natCast_nonneg n),
      Int.ofNat_lt.mpr hn⟩
  injective _ _ h := Int.ofNat.inj (int.injective h)

theorem string : Faithful Json.string fun _ ↦ True where
  ordered _ := trivial
  words _ _ := List.forall_mem_nil _
  injective _ _ h := string.inj h

theorem ofList (hf : Faithful f P) : Faithful (Json.ofList f) fun xs ↦ ∀ x ∈ xs, P x where
  ordered xs := orderedItems_iff.mpr (List.forall_mem_map.mpr fun x _ ↦ hf.ordered x)
  words xs hxs := by
    rw [Words, Json.ofList, numbers, forall_mem_numbersOfItems, List.forall_mem_map]
    exact fun x hx ↦ hf.words x (hxs x hx)
  injective _ _ h := hf.injective.list_map (array.inj h)

theorem ofOption (hf : Faithful f P) (hnull : ∀ a, f a ≠ null) :
    Faithful (Json.ofOption f) fun x? ↦ ∀ x ∈ x?, P x where
  ordered
    | none => trivial
    | some x => hf.ordered x
  words
    | none, _ => List.forall_mem_nil _
    | some x, hx => hf.words x (hx x rfl)
  injective
    | none, none, _ => rfl
    | none, some y, h => absurd h.symm (hnull y)
    | some x, none, h => absurd h (hnull x)
    | some _, some _, h => congrArg some (hf.injective h)

/-- A rendering through other data, if these say all there is to say. -/
theorem comp {β : Type} {Q : β → Prop} (hf : Faithful f P) {g : β → α}
    (hg : Function.Injective g) (hrange : ∀ b, Q b → P (g b)) :
    Faithful (fun b ↦ f (g b)) Q where
  ordered b := hf.ordered (g b)
  words b hb := hf.words (g b) (hrange b hb)
  injective := hf.injective.comp hg

/-- Where `P` holds, there are canonical bytes. -/
theorem exists_canonicalBytes (hf : Faithful f P) {a : α} (ha : P a) :
    ∃ bytes, (f a).canonicalBytes = .ok bytes :=
  ⟨_, canonicalBytes_of_words (hf.words a ha)⟩

/-- The canonical bytes determine what was rendered. -/
theorem eq_of_canonicalBytes (hf : Faithful f P) {a b : α} {bytes : List UInt8}
    (ha : (f a).canonicalBytes = .ok bytes) (hb : (f b).canonicalBytes = .ok bytes) : a = b := by
  have hread := ofBytes?_canonicalBytes (hf.ordered a) ha
  rw [ofBytes?_canonicalBytes (hf.ordered b) hb] at hread
  exact hf.injective (Option.some.inj hread).symm

end Faithful

end Json

open Json (Faithful)

/-! ## Reports -/

/-- The numbers of plans and the watermark fit their words. -/
def CutOutcome.Representable : CutOutcome → Prop
  | reconstructed accepted duplicates filtered =>
    Count.InRange accepted ∧ Count.InRange duplicates ∧ Count.InRange filtered
  | belowWatermark watermark => Cost.InRange watermark
  | outsideQualityBound => True

/-- The costs and counts fit their words. -/
structure CutEvent.Representable (event : CutEvent) : Prop where
  g : Cost.InRange event.g
  h : Cost.InRange event.h
  f : Cost.InRange event.f
  meetingStates : Count.InRange event.meetingStates
  outcome : event.outcome.Representable

/-- The costs and counts fit their words. -/
structure Report.Representable (report : Report) : Prop where
  events : ∀ event ∈ report.events, event.Representable
  planCostBound : ∀ bound ∈ report.planCostBound?, Cost.InRange bound
  acceptedPlans : Count.InRange report.acceptedPlans
  targetPlans : Count.InRange report.targetPlans
  goalPathStates : Count.InRange report.goalPathStates

/-- The numbers of plans are told from a watermark by their keys. -/
theorem CutOutcome.toJson_injective : Function.Injective CutOutcome.toJson := by
  intro a b h
  cases a with
  | reconstructed accepted duplicates filtered =>
    cases b with
    | reconstructed accepted' duplicates' filtered' =>
      simp only [toJson, Json.object_cons_inj] at h
      obtain ⟨haccepted, hduplicates, hfiltered, -, -⟩ := h
      rw [Faithful.nat.injective haccepted, Faithful.nat.injective hduplicates,
        Faithful.nat.injective hfiltered]
    | belowWatermark => simp [toJson] at h
    | outsideQualityBound => simp [toJson] at h
  | belowWatermark watermark =>
    cases b with
    | reconstructed => simp [toJson] at h
    | belowWatermark watermark' =>
      simp only [toJson, Json.object_cons_inj] at h
      obtain ⟨-, hwatermark, -⟩ := h
      rw [Faithful.int.injective hwatermark]
    | outsideQualityBound => simp [toJson] at h
  | outsideQualityBound =>
    cases b with
    | reconstructed => simp [toJson] at h
    | belowWatermark => simp [toJson] at h
    | outsideQualityBound => rfl

theorem CutOutcome.faithful_toJson : Faithful CutOutcome.toJson Representable where
  ordered
    | reconstructed _ _ _ => by
      have hkeys : ["accepted", "duplicates", "filtered", "type"].Pairwise (· < ·) := by decide
      exact Json.ordered_object hkeys ⟨trivial, trivial, trivial, trivial, trivial⟩
    | belowWatermark _ => by
      have hkeys : ["type", "watermark"].Pairwise (· < ·) := by decide
      exact Json.ordered_object hkeys ⟨trivial, trivial, trivial⟩
    | outsideQualityBound =>
      Json.ordered_object (List.pairwise_singleton _ _) ⟨trivial, trivial⟩
  words outcome houtcome := by
    cases outcome with
    | reconstructed accepted duplicates filtered =>
      obtain ⟨haccepted, hduplicates, hfiltered⟩ := houtcome
      simp only [toJson, Json.words_object_cons]
      exact ⟨Faithful.nat.words _ haccepted, Faithful.nat.words _ hduplicates,
        Faithful.nat.words _ hfiltered, Faithful.string.words _ trivial, Json.words_object_nil⟩
    | belowWatermark watermark =>
      simp only [toJson, Json.words_object_cons]
      exact ⟨Faithful.string.words _ trivial, Faithful.int.words _ houtcome,
        Json.words_object_nil⟩
    | outsideQualityBound =>
      exact Json.words_object_cons.mpr ⟨Faithful.string.words _ trivial, Json.words_object_nil⟩
  injective := toJson_injective

theorem CutEvent.faithful_toJson : Faithful CutEvent.toJson Representable where
  ordered event := by
    have hkeys : ["f", "g", "h", "meeting_states", "outcome"].Pairwise (· < ·) := by decide
    exact Json.ordered_object hkeys
      ⟨trivial, trivial, trivial, trivial, CutOutcome.faithful_toJson.ordered _, trivial⟩
  words event hevent := by
    simp only [toJson, Json.words_object_cons]
    exact ⟨Faithful.int.words _ hevent.f, Faithful.int.words _ hevent.g,
      Faithful.int.words _ hevent.h, Faithful.nat.words _ hevent.meetingStates,
      CutOutcome.faithful_toJson.words _ hevent.outcome, Json.words_object_nil⟩
  injective a b h := by
    obtain ⟨g, h', f, meetingStates, outcome⟩ := a
    simp only [toJson, Json.object_cons_inj] at h
    obtain ⟨hf, hg, hh, hmeeting, houtcome, -⟩ := h
    rw [Faithful.int.injective hf, Faithful.int.injective hg, Faithful.int.injective hh,
      Faithful.nat.injective hmeeting, CutOutcome.toJson_injective houtcome]

theorem Report.faithful_toJson : Faithful Report.toJson Representable where
  ordered report := by
    have hkeys : ["accepted_plans", "events", "goal_path_states", "plan_cost_bound",
      "target_plans"].Pairwise (· < ·) := by decide
    exact Json.ordered_object hkeys ⟨trivial, CutEvent.faithful_toJson.ofList.ordered _, trivial,
      (Faithful.int.ofOption nofun).ordered _, trivial, trivial⟩
  words report hreport := by
    simp only [toJson, Json.words_object_cons]
    exact ⟨Faithful.nat.words _ hreport.acceptedPlans,
      CutEvent.faithful_toJson.ofList.words _ hreport.events,
      Faithful.nat.words _ hreport.goalPathStates,
      (Faithful.int.ofOption nofun).words _ hreport.planCostBound,
      Faithful.nat.words _ hreport.targetPlans, Json.words_object_nil⟩
  injective a b h := by
    obtain ⟨events, bound?, accepted, target, goalPath⟩ := a
    simp only [toJson, Json.object_cons_inj] at h
    obtain ⟨haccepted, hevents, hgoalPath, hbound, htarget, -⟩ := h
    rw [Faithful.nat.injective haccepted, CutEvent.faithful_toJson.ofList.injective hevents,
      Faithful.nat.injective hgoalPath, (Faithful.int.ofOption nofun).injective hbound,
      Faithful.nat.injective htarget]

/-! ## Outcomes -/

/-- The costs of the actions fit their words. -/
def Plan.Representable (plan : Plan) : Prop := ∀ a ∈ plan.actions, Cost.InRange a.cost

/-- The costs and counts fit their words. -/
structure RunOutcome.Representable (outcome : RunOutcome) : Prop where
  plans : ∀ plan ∈ outcome.plans, plan.Representable
  lowerBound : Cost.InRange outcome.lowerBound
  upperBound : ∀ bound ∈ outcome.upperBound?, Cost.InRange bound
  report : outcome.report.Representable

theorem Plan.faithful_actionJson : Faithful actionJson fun a ↦ Cost.InRange a.cost where
  ordered a := by
    have hkeys : ["cost", "id", "name"].Pairwise (· < ·) := by decide
    exact Json.ordered_object hkeys ⟨trivial, trivial, trivial, trivial⟩
  words a ha := by
    have hid : Count.InRange a.id.toNat := a.id.toNat_lt.trans (by decide)
    simp only [actionJson, Json.words_object_cons]
    exact ⟨Faithful.int.words _ ha, Faithful.nat.words _ hid, Faithful.string.words _ trivial,
      Json.words_object_nil⟩
  injective a b h := by
    simp only [actionJson, Json.object_cons_inj] at h
    obtain ⟨hcost, hid, hname, -⟩ := h
    exact Action.ext (UInt32.toNat_inj.mp (Faithful.nat.injective hid))
      (Faithful.string.injective hname) (Faithful.int.injective hcost)

theorem Plan.faithful_stateJson : Faithful stateJson fun _ ↦ True := by
  have hvalue : Faithful (fun v : UInt32 ↦ Json.nat v.toNat) fun _ ↦ True :=
    Faithful.nat.comp (fun _ _ h ↦ UInt32.toNat_inj.mp h) fun v _ ↦ v.toNat_lt.trans (by decide)
  exact hvalue.ofList.comp (fun _ _ h ↦ State.ext h) fun _ _ _ _ ↦ trivial

/-- Cost and fingerprint of a plan are rendered too, but they follow from its actions. -/
theorem Plan.faithful_toJson : Faithful toJson Representable where
  ordered plan := by
    have hkeys : ["actions", "cost", "fingerprint", "states"].Pairwise (· < ·) := by decide
    exact Json.ordered_object hkeys ⟨faithful_actionJson.ofList.ordered _, trivial, trivial,
      faithful_stateJson.ofList.ordered _, trivial⟩
  words plan hplan := by
    simp only [toJson, Json.words_object_cons]
    exact ⟨faithful_actionJson.ofList.words _ hplan, Faithful.int.words _ plan.inRange_cost,
      Faithful.string.words _ trivial, faithful_stateJson.ofList.words _ fun _ _ ↦ trivial,
      Json.words_object_nil⟩
  injective p q h := by
    simp only [toJson, Json.object_cons_inj] at h
    obtain ⟨hactions, -, -, hstates, -⟩ := h
    exact Plan.ext (faithful_actionJson.ofList.injective hactions)
      (faithful_stateJson.ofList.injective hstates)

theorem Termination.name_injective : Function.Injective name := by
  intro s t h
  cases s <;> cases t <;> simp [name] at h ⊢

theorem RunOutcome.faithful_toJson : Faithful toJson Representable where
  ordered outcome := by
    have hkeys :
        ["lower_bound", "plans", "report", "termination", "upper_bound"].Pairwise (· < ·) := by
      decide
    exact Json.ordered_object hkeys ⟨trivial, Plan.faithful_toJson.ofList.ordered _,
      Report.faithful_toJson.ordered _, trivial, (Faithful.int.ofOption nofun).ordered _, trivial⟩
  words outcome houtcome := by
    simp only [toJson, Json.words_object_cons]
    exact ⟨Faithful.int.words _ houtcome.lowerBound,
      Plan.faithful_toJson.ofList.words _ houtcome.plans,
      Report.faithful_toJson.words _ houtcome.report, Faithful.string.words _ trivial,
      (Faithful.int.ofOption nofun).words _ houtcome.upperBound, Json.words_object_nil⟩
  injective a b h := by
    obtain ⟨plans, termination, lowerBound, upperBound?, report⟩ := a
    simp only [toJson, Json.object_cons_inj] at h
    obtain ⟨hlower, hplans, hreport, htermination, hupper, -⟩ := h
    rw [Faithful.int.injective hlower, Plan.faithful_toJson.ofList.injective hplans,
      Report.faithful_toJson.injective hreport,
      Termination.name_injective (Faithful.string.injective htermination),
      (Faithful.int.ofOption nofun).injective hupper]

/-! ## Digests -/

namespace Report

/-- The canonical bytes of the reports differ, and their digests do not. -/
def Collides (r s : Report) : Prop :=
  ∃ bytes bytes', r.toJson.canonicalBytes = .ok bytes ∧ s.toJson.canonicalBytes = .ok bytes' ∧
    bytes ≠ bytes' ∧
      Sha256.hash (ContentHash.reportDomain ++ bytes) =
        Sha256.hash (ContentHash.reportDomain ++ bytes')

variable {r s : Report}

theorem digest_of_canonicalBytes {bytes : List UInt8} (h : r.toJson.canonicalBytes = .ok bytes) :
    r.digest = .ok (.ofBytes ContentHash.reportDomain bytes) := by
  obtain ⟨text, htext, rfl⟩ : ∃ text, r.canonicalText = .ok text ∧
      ContentHash.textBytes text = bytes := by
    rw [Json.canonicalBytes] at h
    cases htext : r.toJson.canonicalText with
    | error e =>
      rw [htext] at h
      cases h
    | ok text =>
      rw [htext] at h
      exact ⟨text, htext, Except.ok.inj h⟩
  rw [digest, htext]
  rfl

/-- Reports with the same digest are the same, or the hash function takes one for the other. -/
theorem digest_eq_iff (hr : r.Representable) (hs : s.Representable) :
    r.digest = s.digest ↔ r = s ∨ r.Collides s := by
  obtain ⟨bytes, hbytes⟩ := faithful_toJson.exists_canonicalBytes hr
  obtain ⟨bytes', hbytes'⟩ := faithful_toJson.exists_canonicalBytes hs
  constructor
  · intro h
    rw [digest_of_canonicalBytes hbytes, digest_of_canonicalBytes hbytes'] at h
    have hhash := ContentHash.ofBytes_inj.mp (Except.ok.inj h)
    by_cases heq : bytes = bytes'
    · exact .inl (faithful_toJson.eq_of_canonicalBytes hbytes (heq ▸ hbytes'))
    · exact .inr ⟨bytes, bytes', hbytes, hbytes', heq, hhash⟩
  · rintro (rfl | ⟨_, _, hbytes, hbytes', -, hhash⟩)
    · rfl
    · rw [digest_of_canonicalBytes hbytes, digest_of_canonicalBytes hbytes']
      exact congrArg Except.ok (ContentHash.ofBytes_inj.mpr hhash)

end Report

/-- Reports and outcomes of runs have canonical bytes, and different ones have different bytes.
Reports have digests, and different ones have different digests, unless the hash function
collides. -/
theorem renderings_faithful :
    (∀ report : Report, report.Representable →
      ∃ bytes, report.toJson.canonicalBytes = .ok bytes) ∧
    (∀ (r s : Report) (bytes : List UInt8), r.toJson.canonicalBytes = .ok bytes →
      s.toJson.canonicalBytes = .ok bytes → r = s) ∧
    (∀ outcome : RunOutcome, outcome.Representable →
      ∃ bytes, outcome.toJson.canonicalBytes = .ok bytes) ∧
    (∀ (a b : RunOutcome) (bytes : List UInt8), a.toJson.canonicalBytes = .ok bytes →
      b.toJson.canonicalBytes = .ok bytes → a = b) ∧
    ∀ r s : Report, r.Representable → s.Representable →
      (∃ digest, r.digest = .ok digest) ∧ (r.digest = s.digest ↔ r = s ∨ r.Collides s) := by
  refine ⟨?_, ?_, ?_, ?_, ?_⟩
  · intro report hreport
    exact Report.faithful_toJson.exists_canonicalBytes hreport
  · intro r s bytes hr hs
    exact Report.faithful_toJson.eq_of_canonicalBytes hr hs
  · intro outcome houtcome
    exact RunOutcome.faithful_toJson.exists_canonicalBytes houtcome
  · intro a b bytes ha hb
    exact RunOutcome.faithful_toJson.eq_of_canonicalBytes ha hb
  · intro r s hr hs
    obtain ⟨bytes, hbytes⟩ := Report.faithful_toJson.exists_canonicalBytes hr
    exact ⟨⟨_, Report.digest_of_canonicalBytes hbytes⟩, Report.digest_eq_iff hr hs⟩

/-- A report with a decision of each kind. -/
def Report.ofEachKind (watermark? : Option Int) : Report where
  events := [⟨1, 2, 3, 1, .reconstructed 1 0 18446744073709551615⟩,
    ⟨0, 2, 2, 3, .belowWatermark 3⟩, ⟨Cost.max, 0, Cost.max, 1, .outsideQualityBound⟩]
  planCostBound? := watermark?
  acceptedPlans := 1
  targetPlans := 2
  goalPathStates := 2

theorem Report.representable_ofEachKind {watermark? : Option Int}
    (h : ∀ bound ∈ watermark?, Cost.InRange bound) : (ofEachKind watermark?).Representable where
  events := by
    refine List.forall_mem_cons.mpr
      ⟨?_, List.forall_mem_cons.mpr ⟨?_, List.forall_mem_singleton.mpr ?_⟩⟩
    · exact ⟨by decide, by decide, by decide, by decide, by decide, by decide, by decide⟩
    · exact ⟨by decide, by decide, by decide, by decide, (by decide : Cost.InRange 3)⟩
    · exact ⟨by decide, by decide, by decide, by decide, trivial⟩
  planCostBound := h
  acceptedPlans := (by decide : Count.InRange 1)
  targetPlans := (by decide : Count.InRange 2)
  goalPathStates := (by decide : Count.InRange 2)

/-- An outcome with a plan of one action. -/
def RunOutcome.ofOnePlan (termination : Termination) : RunOutcome where
  plans := [⟨[⟨0, "go \"far\"", 1, Int.one_nonneg⟩], [.single 0, .single 1]⟩]
  termination := termination
  lowerBound := 2
  upperBound? := none
  report := .ofEachKind none

theorem RunOutcome.representable_ofOnePlan (termination : Termination) :
    (ofOnePlan termination).Representable where
  plans := by
    refine List.forall_mem_singleton.mpr (List.forall_mem_singleton.mpr ?_)
    exact (by decide : Cost.InRange 1)
  lowerBound := (by decide : Cost.InRange 2)
  upperBound := nofun
  report := Report.representable_ofEachKind nofun

/-- A watermark that is not set is told from a watermark of zero, and so is why a run ended. -/
theorem ofEachKind_renderings_faithful :
    (Report.ofEachKind none).Representable ∧ (Report.ofEachKind (some 0)).Representable ∧
    (∃ bytes, (Report.ofEachKind none).toJson.canonicalBytes = .ok bytes ∧
      (Report.ofEachKind (some 0)).toJson.canonicalBytes ≠ .ok bytes) ∧
    (∀ termination, (RunOutcome.ofOnePlan termination).Representable) ∧
    (∃ bytes, (RunOutcome.ofOnePlan .foundAllPlans).toJson.canonicalBytes = .ok bytes ∧
      (RunOutcome.ofOnePlan .horizonExhausted).toJson.canonicalBytes ≠ .ok bytes) ∧
    ((Report.ofEachKind none).digest = (Report.ofEachKind (some 0)).digest →
      (Report.ofEachKind none).Collides (Report.ofEachKind (some 0))) := by
  have hunset : (Report.ofEachKind none).Representable := Report.representable_ofEachKind nofun
  have hset : (Report.ofEachKind (some 0)).Representable := by
    refine Report.representable_ofEachKind ?_
    rintro _ ⟨⟩
    decide
  have hne : Report.ofEachKind none ≠ Report.ofEachKind (some 0) := by decide
  have hends : RunOutcome.ofOnePlan .foundAllPlans ≠ RunOutcome.ofOnePlan .horizonExhausted := by
    decide
  have houtcome := RunOutcome.representable_ofOnePlan
  obtain ⟨bytes, hbytes⟩ := renderings_faithful.1 _ hunset
  obtain ⟨bytes', hbytes'⟩ := renderings_faithful.2.2.1 _ (houtcome .foundAllPlans)
  refine ⟨hunset, hset, ⟨bytes, hbytes, ?_⟩, houtcome, ⟨bytes', hbytes', ?_⟩, ?_⟩
  · exact fun hsame ↦ hne (renderings_faithful.2.1 _ _ bytes hbytes hsame)
  · exact fun hsame ↦ hends (renderings_faithful.2.2.2.1 _ _ bytes' hbytes' hsame)
  · exact fun hdigest ↦
      ((renderings_faithful.2.2.2.2 _ _ hunset hset).2.mp hdigest).resolve_left hne

end LayeredPlanning
