import LayeredPlanning.Reconstruction.Error

/-!
# Which plans are wanted

A selection asks for a number of cheapest plans, or for a number of plans within a percentage of the
optimal cost.
-/

namespace LayeredPlanning

/-- Which plans are wanted. -/
inductive Selection where
  /-- The cheapest `count` plans. -/
  | topK (count : Nat)
  /-- At most `count` plans, of at most `percent` hundredths of the optimal cost. -/
  | topQ (count : Nat) (percent : UInt32)
deriving DecidableEq

namespace Selection

/-- Without further wishes, one plan is wanted. -/
def default : Selection := topK 1

/-- The number of plans wanted. -/
def count : Selection → Nat
  | topK count => count
  | topQ count _ => count

/-- The fault of a selection: it asks for no plan, or for plans cheaper than optimal ones. -/
def fault? : Selection → Option ReconstructionError
  | topK count =>
    if count = 0 then some (.unsupportedPolicy "num_plans must be at least 1") else none
  | topQ count percent =>
    if count = 0 then some (.unsupportedPolicy "num_plans must be at least 1")
    else if percent.toNat < 100 then
      some (.unsupportedPolicy
        ("quality_percent must be at least 100, got " ++ toString percent.toNat))
    else none

/-- Whether a plan of cost `cost` is good enough where the optimal cost is `best?`.  While that is
not known, every cost is. -/
def admits (selection : Selection) (best? : Option Int) (cost : Int) : Bool :=
  match selection, best? with
  | topQ _ percent, some best => cost * 100 ≤ best * percent.toNat
  | _, _ => true

/-- The selection as a JSON value. -/
def toJson : Selection → Json
  | topK count => .object [("num_plans", .nat count), ("type", .string "top_k")]
  | topQ count percent =>
    .object [("num_plans", .nat count), ("quality_percent", .nat percent.toNat),
      ("type", .string "top_q")]

end Selection

end LayeredPlanning
