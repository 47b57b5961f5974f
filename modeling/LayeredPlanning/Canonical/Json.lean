import LayeredPlanning.Decimal.Shortest

/-!
# JSON values

A number is an integer or a float.  The members of an object are listed by ascending key, each key
once: `Json.ofMembers` brings members into that form, and `Ordered` says that a value has it at
every depth.
-/

namespace LayeredPlanning

/-- A JSON number. -/
inductive JsonNumber where
  /-- A number written without fraction and exponent. -/
  | integer (n : Int)
  /-- Any other number. -/
  | float (x : Float)

namespace JsonNumber

/-- The number is an integer that fits a 64-bit word, signed or not. -/
def IsWord : JsonNumber → Prop
  | integer n => -9223372036854775808 ≤ n ∧ n < 18446744073709551616
  | float _ => False

instance instDecidableIsWord : (n : JsonNumber) → Decidable n.IsWord
  | integer n =>
    inferInstanceAs (Decidable (-9223372036854775808 ≤ n ∧ n < 18446744073709551616))
  | float _ => inferInstanceAs (Decidable False)

/-- The text of a number. -/
def text : JsonNumber → String
  | integer n => toString n
  | float x => Decimal.text x

end JsonNumber

/-- A JSON value. -/
inductive Json where
  /-- The null value. -/
  | null
  /-- A truth value. -/
  | bool (b : Bool)
  /-- A number. -/
  | number (n : JsonNumber)
  /-- A string. -/
  | string (s : String)
  /-- An array. -/
  | array (items : List Json)
  /-- An object with its members. -/
  | object (members : List (String × Json))

namespace Json

/-- The number of an integer. -/
def int (n : Int) : Json := number (.integer n)

/-- The number of a natural number. -/
def nat (n : Nat) : Json := int n

/-- A value, or null. -/
def ofOption {α : Type} (f : α → Json) : Option α → Json
  | none => null
  | some a => f a

/-- The array of the values of a list. -/
def ofList {α : Type} (f : α → Json) (xs : List α) : Json := array (xs.map f)

/-- Puts a member in its place by key; a member of the same key is replaced. -/
def insertMember (key : String) (value : Json) : List (String × Json) → List (String × Json)
  | [] => [(key, value)]
  | (k, v) :: rest =>
    if key < k then (key, value) :: (k, v) :: rest
    else if k < key then (k, v) :: insertMember key value rest
    else (key, value) :: rest

/-- The object of the listed members, in any order; of two members of one key the later counts. -/
def ofMembers (members : List (String × Json)) : Json :=
  object (members.foldl (fun known m ↦ insertMember m.1 m.2 known) [])

mutual

/-- The first number, in order of the text, that is not an integer of word size. -/
def firstNonWord? : Json → Option JsonNumber
  | null => none
  | bool _ => none
  | number n => if n.IsWord then none else some n
  | string _ => none
  | array items => firstNonWordItem? items
  | object members => firstNonWordMember? members

/-- The first number among the items of an array that is not an integer of word size. -/
def firstNonWordItem? : List Json → Option JsonNumber
  | [] => none
  | v :: rest => (firstNonWord? v).or (firstNonWordItem? rest)

/-- The first number among the members of an object that is not an integer of word size. -/
def firstNonWordMember? : List (String × Json) → Option JsonNumber
  | [] => none
  | (_, v) :: rest => (firstNonWord? v).or (firstNonWordMember? rest)

end

mutual

/-- Members stand by strictly ascending key, at every depth. -/
def Ordered : Json → Prop
  | array items => OrderedItems items
  | object members =>
    members.Pairwise (fun m n ↦ m.1 < n.1) ∧ OrderedMembers members
  | _ => True

/-- All items of an array are ordered. -/
def OrderedItems : List Json → Prop
  | [] => True
  | v :: rest => Ordered v ∧ OrderedItems rest

/-- The values of all members of an object are ordered. -/
def OrderedMembers : List (String × Json) → Prop
  | [] => True
  | (_, v) :: rest => Ordered v ∧ OrderedMembers rest

end

end Json

end LayeredPlanning
