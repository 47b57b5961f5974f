import LayeredPlanning.Canonical.ContentHash
import LayeredPlanning.Canonical.JsonText
import LayeredPlanning.Domain.Action
import LayeredPlanning.Domain.State

/-!
# Plans

A plan is a sequence of actions with the states it visits, one more than it has actions.  Its
fingerprint identifies the sequence of action identifiers and names, whatever states are visited.
-/

namespace LayeredPlanning

/-- An action sequence with the states it visits, the initial state first. -/
@[ext]
structure Plan where
  /-- The actions, in order of execution. -/
  actions : List Action
  /-- The visited states. -/
  states : List State
deriving DecidableEq

namespace Plan

/-- The number of actions. -/
def length (plan : Plan) : Nat := plan.actions.length

/-- Whether the plan does nothing. -/
def isEmpty (plan : Plan) : Bool := plan.actions.isEmpty

/-- The sum of the action costs, which stops at the largest representable cost. -/
def cost (plan : Plan) : Int := plan.actions.foldl (fun total a ↦ Cost.satAdd total a.cost) 0

/-- Costs of plans are representable and not negative. -/
theorem cost_foldl_mem_range (actions : List Action) {c : Int} (hc : 0 ≤ c ∧ c ≤ Cost.max) :
    0 ≤ actions.foldl (fun total a ↦ Cost.satAdd total a.cost) c ∧
      actions.foldl (fun total a ↦ Cost.satAdd total a.cost) c ≤ Cost.max := by
  induction actions generalizing c with
  | nil => exact hc
  | cons a actions ih =>
    exact ih ⟨Cost.satAdd_nonneg hc.1 a.cost_nonneg, Cost.saturate_le_max _⟩

theorem cost_nonneg (plan : Plan) : 0 ≤ plan.cost :=
  (cost_foldl_mem_range plan.actions ⟨Int.le_refl 0, by decide⟩).1

theorem inRange_cost (plan : Plan) : Cost.InRange plan.cost :=
  ⟨Int.le_trans (by decide) plan.cost_nonneg,
    (cost_foldl_mem_range plan.actions ⟨Int.le_refl 0, by decide⟩).2⟩

/-- Whether no state is visited twice. -/
def isSimple (plan : Plan) : Bool := decide plan.states.Nodup

/-- The four bytes of a word, least significant first. -/
def wordBytes (w : UInt32) : List UInt8 :=
  [w.toUInt8, (w >>> 8).toUInt8, (w >>> 16).toUInt8, (w >>> 24).toUInt8]

/-- The bytes that identify an action: its identifier, the length of its name and its name.  A
length beyond 32 bits is written as the largest such number. -/
def actionBytes (a : Action) : List UInt8 :=
  let name := ContentHash.textBytes a.name
  wordBytes a.id ++ wordBytes (UInt32.ofNat (Nat.min name.length 4294967295)) ++ name

/-- The bytes that identify a sequence of actions. -/
def sequenceBytes (actions : List Action) : List UInt8 := actions.flatMap actionBytes

/-- The identity of the action sequence. -/
def fingerprint (plan : Plan) : ContentHash :=
  .ofBytes ContentHash.planDomain (sequenceBytes plan.actions)

/-- An action as a JSON value. -/
def actionJson (a : Action) : Json :=
  .object [("cost", .int a.cost), ("id", .nat a.id.toNat), ("name", .string a.name)]

/-- A state as a JSON value. -/
def stateJson (s : State) : Json := .ofList (fun v ↦ .nat v.toNat) s.values

/-- The plan as a JSON value. -/
def toJson (plan : Plan) : Json :=
  .object [("actions", .ofList actionJson plan.actions), ("cost", .int plan.cost),
    ("fingerprint", .string plan.fingerprint.text), ("states", .ofList stateJson plan.states)]

end Plan

end LayeredPlanning
