import LayeredPlanning.Canonical.Json

/-!
# Canonical JSON text

The compact text of a value: no blanks, members by ascending key, and only the escapes that JSON
requires.  `Json.canonicalText` refuses values with numbers other than integers of word size, so
that equal values have equal texts everywhere; the first offending number is reported.
-/

namespace LayeredPlanning

/-- Why a value has no canonical text. -/
inductive CanonicalError where
  /-- A number is not an integer of word size. -/
  | nonInteger (raw : String)
  /-- Writing failed. -/
  | serialization (detail : String)
deriving DecidableEq

/-- The text of the refusal. -/
def CanonicalError.message : CanonicalError → String
  | nonInteger raw => "non-integer number in canonical JSON: " ++ raw
  | serialization detail => "canonical JSON serialization failed: " ++ detail

namespace Json

/-- The lower-case hexadecimal digit of a number below sixteen. -/
def hexDigit (n : Nat) : Char := Nat.digitChar n

/-- How a character is written inside a string: quotes and backslashes are escaped, control
characters by their short escape or their number, everything else stands for itself. -/
def escapeChar (c : Char) : List Char :=
  if c = '"' then ['\\', '"']
  else if c = '\\' then ['\\', '\\']
  else if c = '\x08' then ['\\', 'b']
  else if c = '\x0c' then ['\\', 'f']
  else if c = '\n' then ['\\', 'n']
  else if c = '\r' then ['\\', 'r']
  else if c = '\t' then ['\\', 't']
  else if c.toNat < 32 then
    ['\\', 'u', '0', '0', hexDigit (c.toNat / 16), hexDigit (c.toNat % 16)]
  else [c]

/-- A string in quotes. -/
def quote (s : String) : List Char := '"' :: (s.toList.flatMap escapeChar ++ ['"'])

mutual

/-- The compact text of a value. -/
def write : Json → List Char
  | null => "null".toList
  | bool true => "true".toList
  | bool false => "false".toList
  | number n => n.text.toList
  | string s => quote s
  | array items => '[' :: (writeItems items ++ [']'])
  | object members => '\x7b' :: (writeMembers members ++ ['\x7d'])

/-- The items of an array, with commas between them. -/
def writeItems : List Json → List Char
  | [] => []
  | [v] => write v
  | v :: w :: rest => write v ++ ',' :: writeItems (w :: rest)

/-- The members of an object, with commas between them. -/
def writeMembers : List (String × Json) → List Char
  | [] => []
  | [(k, v)] => quote k ++ ':' :: write v
  | (k, v) :: m :: rest => quote k ++ ':' :: (write v ++ ',' :: writeMembers (m :: rest))

end

/-- The compact text of a value. -/
def text (v : Json) : String := String.ofList v.write

/-- The canonical text of a value, unless some number in it is not an integer of word size. -/
def canonicalText (v : Json) : Except CanonicalError String :=
  match v.firstNonWord? with
  | some n => .error (.nonInteger n.text)
  | none => .ok v.text

end Json

end LayeredPlanning
