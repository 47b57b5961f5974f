import LayeredPlanning.Canonical.Json
import LayeredPlanning.Decimal.Reading

/-!
# Reading JSON

`Json.read?` reads a whole text.  Objects are brought into ascending key order, with the last of
several members of one key, so what is read is `Ordered`.  A number written without fraction and
exponent is an integer if it fits a 64-bit word; every other number, `-0` included, is a float.
-/

namespace LayeredPlanning

namespace Json

/-- JSON's blanks. -/
def isBlank (c : Char) : Bool := c = ' ' || c = '\n' || c = '\r' || c = '\t'

/-- Drops leading blanks. -/
def skipBlanks (cs : List Char) : List Char := cs.dropWhile isBlank

/-- The value of a hexadecimal digit. -/
def hexValue? (c : Char) : Option Nat :=
  if '0' ≤ c ∧ c ≤ '9' then some (c.toNat - 48)
  else if 'a' ≤ c ∧ c ≤ 'f' then some (c.toNat - 87)
  else if 'A' ≤ c ∧ c ≤ 'F' then some (c.toNat - 55)
  else none

/-- The value of four hexadecimal digits. -/
def hexWord? (a b c d : Char) : Option Nat := do
  let a ← hexValue? a
  let b ← hexValue? b
  let c ← hexValue? c
  let d ← hexValue? d
  return ((a * 16 + b) * 16 + c) * 16 + d

/-- The character after a backslash stands for this one. -/
def shortEscape? (c : Char) : Option Char :=
  if c = '"' then some '"'
  else if c = '\\' then some '\\'
  else if c = '/' then some '/'
  else if c = 'b' then some '\x08'
  else if c = 'f' then some '\x0c'
  else if c = 'n' then some '\n'
  else if c = 'r' then some '\r'
  else if c = 't' then some '\t'
  else none

/-- The code points of a string up to its closing quote, and what follows it.  A numbered escape
stands for one code point, which may be half of a surrogate pair. -/
def readCodePoints? : List Char → Option (List Nat × List Char)
  | [] => none
  | '"' :: rest => some ([], rest)
  | '\\' :: 'u' :: a :: b :: c :: d :: rest =>
    match hexWord? a b c d, readCodePoints? rest with
    | some point, some (points, rest) => some (point :: points, rest)
    | _, _ => none
  | '\\' :: c :: rest =>
    match shortEscape? c, readCodePoints? rest with
    | some e, some (points, rest) => some (e.toNat :: points, rest)
    | _, _ => none
  | c :: rest =>
    if c.toNat < 32 then none
    else match readCodePoints? rest with
      | some (points, rest) => some (c.toNat :: points, rest)
      | none => none

/-- The characters of a list of code points, with surrogate pairs joined; a surrogate that stands
alone is no character. -/
def joinSurrogates? : List Nat → Option (List Char)
  | [] => some []
  | high :: rest =>
    if high < 0xd800 ∨ 0xe000 ≤ high then
      (joinSurrogates? rest).map (Char.ofNat high :: ·)
    else match rest with
      | low :: rest =>
        if high < 0xdc00 ∧ 0xdc00 ≤ low ∧ low < 0xe000 then
          (joinSurrogates? rest).map
            (Char.ofNat (0x10000 + (high - 0xd800) * 0x400 + (low - 0xdc00)) :: ·)
        else none
      | [] => none

/-- The string after an opening quote, and what follows it. -/
def readString? (cs : List Char) : Option (String × List Char) :=
  match readCodePoints? cs with
  | some (points, rest) => (joinSurrogates? points).map (String.ofList ·, rest)
  | none => none

/-- The parts of a number as it is written. -/
structure NumberParts where
  /-- Whether there is a minus sign. -/
  negative : Bool
  /-- The digits before the point. -/
  whole : List Char
  /-- The digits after the point, if there is one. -/
  fraction? : Option (List Char)
  /-- The exponent, if there is one. -/
  exponent? : Option Int

/-- Digits at the front, at least one, and what follows them. -/
def readDigits? (cs : List Char) : Option (List Char × List Char) :=
  let digits := cs.takeWhile Char.isDigit
  if digits.isEmpty then none else some (digits, cs.dropWhile Char.isDigit)

/-- The exponent at the front, if there is one, and what follows it. -/
def readExponent? (cs : List Char) : Option (Option Int × List Char) :=
  match cs with
  | c :: rest =>
    if c = 'e' ∨ c = 'E' then
      let (negative, rest) := match rest with
        | '-' :: rest => (true, rest)
        | '+' :: rest => (false, rest)
        | rest => (false, rest)
      (readDigits? rest).map fun (digits, rest) ↦
        let n : Int := Nat.ofDigitChars 10 digits 0
        (some (if negative then -n else n), rest)
    else some (none, cs)
  | [] => some (none, [])

/-- The fraction at the front, if there is one, and what follows it. -/
def readFraction? (cs : List Char) : Option (Option (List Char) × List Char) :=
  match cs with
  | '.' :: rest => (readDigits? rest).map fun (digits, rest) ↦ (some digits, rest)
  | cs => some (none, cs)

/-- The parts of the number at the front, and what follows it.  A number of several digits does not
start with zero. -/
def readNumberParts? (cs : List Char) : Option (NumberParts × List Char) := do
  let (negative, cs) := match cs with
    | '-' :: rest => (true, rest)
    | cs => (false, cs)
  let (whole, cs) ← readDigits? cs
  if whole.head? = some '0' ∧ whole.length ≠ 1 then none
  let (fraction?, cs) ← readFraction? cs
  let (exponent?, cs) ← readExponent? cs
  return (⟨negative, whole, fraction?, exponent?⟩, cs)

/-- The values of digits. -/
def digitValues (digits : List Char) : List Nat := digits.map fun c ↦ c.toNat - 48

namespace NumberParts

/-- The number as an integer, if it is written as one, has no minus sign before a zero and fits a
64-bit word. -/
def integer? (parts : NumberParts) : Option Int :=
  if parts.fraction?.isSome ∨ parts.exponent?.isSome then none
  else
    let magnitude := Nat.ofDigitChars 10 parts.whole 0
    if parts.negative then
      if magnitude = 0 ∨ 9223372036854775808 < magnitude then none else some (-(magnitude : Int))
    else if magnitude < 18446744073709551616 then some magnitude else none

/-- The number, unless it is too large for a float. -/
def value? (parts : NumberParts) : Option JsonNumber :=
  match parts.integer? with
  | some n => some (.integer n)
  | none =>
    (Decimal.toFloat? parts.negative (digitValues parts.whole)
      (digitValues (parts.fraction?.getD [])) (parts.exponent?.getD 0)).map .float

end NumberParts

/-- The number at the front, and what follows it. -/
def readNumber? (cs : List Char) : Option (JsonNumber × List Char) := do
  let (parts, rest) ← readNumberParts? cs
  let n ← parts.value?
  return (n, rest)

/-- What follows `word` at the front. -/
def dropWord? : List Char → List Char → Option (List Char)
  | [], cs => some cs
  | _ :: _, [] => none
  | w :: word, c :: cs => if w = c then dropWord? word cs else none

mutual

/-- The value at the front, and what follows it.  The first argument bounds the number of values,
items and members entered one inside the other or one after the other. -/
def readValue? : Nat → List Char → Option (Json × List Char)
  | 0, _ => none
  | n + 1, cs =>
    match skipBlanks cs with
    | '\x7b' :: rest =>
      match skipBlanks rest with
      | '\x7d' :: rest => some (object [], rest)
      | rest => (readMembers? n rest).map fun (members, rest) ↦ (ofMembers members, rest)
    | '[' :: rest =>
      match skipBlanks rest with
      | ']' :: rest => some (array [], rest)
      | rest => (readItems? n rest).map fun (items, rest) ↦ (array items, rest)
    | '"' :: rest => (readString? rest).map fun (s, rest) ↦ (string s, rest)
    | 'n' :: rest => (dropWord? "ull".toList rest).map (null, ·)
    | 't' :: rest => (dropWord? "rue".toList rest).map (bool true, ·)
    | 'f' :: rest => (dropWord? "alse".toList rest).map (bool false, ·)
    | rest => (readNumber? rest).map fun (x, rest) ↦ (number x, rest)

/-- The items up to the closing bracket, at least one, and what follows it. -/
def readItems? : Nat → List Char → Option (List Json × List Char)
  | 0, _ => none
  | n + 1, cs =>
    match readValue? n cs with
    | none => none
    | some (v, rest) =>
      match skipBlanks rest with
      | ',' :: rest => (readItems? n rest).map fun (items, rest) ↦ (v :: items, rest)
      | ']' :: rest => some ([v], rest)
      | _ => none

/-- The members up to the closing brace, at least one, and what follows it. -/
def readMembers? : Nat → List Char → Option (List (String × Json) × List Char)
  | 0, _ => none
  | n + 1, cs =>
    match skipBlanks cs with
    | '"' :: rest =>
      match readString? rest with
      | none => none
      | some (key, rest) =>
        match skipBlanks rest with
        | ':' :: rest =>
          match readValue? n rest with
          | none => none
          | some (v, rest) =>
            match skipBlanks rest with
            | ',' :: rest =>
              (readMembers? n rest).map fun (members, rest) ↦ ((key, v) :: members, rest)
            | '\x7d' :: rest => some ([(key, v)], rest)
            | _ => none
        | _ => none
    | _ => none

end

/-- The value that a text holds. -/
def read? (s : String) : Option Json :=
  match readValue? (2 * s.toList.length + 2) s.toList with
  | some (v, rest) => if (skipBlanks rest).isEmpty then some v else none
  | none => none

end Json

end LayeredPlanning
