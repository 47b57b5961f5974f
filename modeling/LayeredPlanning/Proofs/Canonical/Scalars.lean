import LayeredPlanning.Canonical.JsonReader
import LayeredPlanning.Canonical.JsonText
import Mathlib.Data.List.Basic

/-!
# Reading numbers and strings back

What is written for an integer of word size is read as that integer (`readNumber?_text`), and what
is written for a string as that string (`readString?_escape`).  A number has no end mark of its own,
so it is read back where the text that follows is one that follows a value: `Delimits`.
-/

namespace LayeredPlanning

namespace Json

variable {rest digits : List Char} {n : Nat}

/-- What follows a value in a text: nothing, a comma, or a closing bracket or brace. -/
def Delimits (rest : List Char) : Prop :=
  ∀ c ∈ rest.head?, c = ',' ∨ c = ']' ∨ c = '\x7d'

/-! ## Digits -/

theorem head?_toDigits_ne (h : 0 < n) : (Nat.toDigits 10 n).head? ≠ some '0' := by
  induction n using Nat.strongRecOn with
  | ind n ih =>
    by_cases hlt : n < 10
    · have hsingle : ∀ m < 10, 0 < m → [Nat.digitChar m].head? ≠ some '0' := by decide
      rw [Nat.toDigits_of_lt_base hlt]
      exact hsingle n hlt h
    · have hle : 10 ≤ n := Nat.le_of_not_lt hlt
      rw [Nat.toDigits_of_base_le (by decide) hle,
        List.head?_append_of_ne_nil _ Nat.toDigits_ne_nil]
      exact ih (n / 10) (Nat.div_lt_self h (by decide)) (Nat.div_pos hle (by decide))

/-- The digits of a number do not start with a zero, unless that is all. -/
theorem length_toDigits_of_head? (h : (Nat.toDigits 10 n).head? = some '0') :
    (Nat.toDigits 10 n).length = 1 := by
  rcases Nat.eq_zero_or_pos n with rfl | hpos
  · rfl
  · exact absurd h (head?_toDigits_ne hpos)

/-- Digits end where the rest starts with something else. -/
theorem readDigits?_append (hdigits : ∀ c ∈ digits, c.isDigit = true) (hne : digits ≠ [])
    (hrest : ∀ c ∈ rest.head?, c.isDigit = false) :
    readDigits? (digits ++ rest) = some (digits, rest) := by
  have htake : rest.takeWhile Char.isDigit = [] := by
    cases rest with
    | nil => rfl
    | cons c rest =>
      exact List.takeWhile_cons_of_neg (by rw [hrest c rfl]; exact Bool.false_ne_true)
  have hdrop : rest.dropWhile Char.isDigit = rest := by
    cases rest with
    | nil => rfl
    | cons c rest =>
      exact List.dropWhile_cons_of_neg (by rw [hrest c rfl]; exact Bool.false_ne_true)
  rw [readDigits?, List.takeWhile_append_of_pos hdigits,
    List.dropWhile_append_of_pos hdigits, htake, hdrop, List.append_nil]
  exact if_neg (by rwa [List.isEmpty_iff])

theorem Delimits.isDigit_eq_false (h : Delimits rest) :
    ∀ c ∈ rest.head?, c.isDigit = false := by
  intro c hc
  rcases h c hc with rfl | rfl | rfl <;> rfl

theorem Delimits.readFraction? (h : Delimits rest) : readFraction? rest = some (none, rest) := by
  cases rest with
  | nil => rfl
  | cons c rest => rcases h c rfl with rfl | rfl | rfl <;> rfl

theorem Delimits.readExponent? (h : Delimits rest) : readExponent? rest = some (none, rest) := by
  cases rest with
  | nil => rfl
  | cons c rest => rcases h c rfl with rfl | rfl | rfl <;> rfl

/-! ## Numbers -/

/-- A number of digits only is read as that, with a minus sign or without one. -/
theorem readNumberParts?_append (hdigits : ∀ c ∈ digits, c.isDigit = true) (hne : digits ≠ [])
    (hzero : digits.head? = some '0' → digits.length = 1) (hrest : Delimits rest) :
    readNumberParts? (digits ++ rest) = some (⟨false, digits, none, none⟩, rest) ∧
      readNumberParts? ('-' :: (digits ++ rest)) = some (⟨true, digits, none, none⟩, rest) := by
  have hread := readDigits?_append hdigits hne hrest.isDigit_eq_false
  constructor
  · obtain ⟨d, ds, rfl⟩ := List.exists_cons_of_ne_nil hne
    have hminus : d ≠ '-' := by
      rintro rfl
      cases hdigits '-' List.mem_cons_self
    rw [List.cons_append] at hread ⊢
    simpa [readNumberParts?, hminus, hread, hrest.readFraction?, hrest.readExponent?] using hzero
  · simpa [readNumberParts?, hread, hrest.readFraction?, hrest.readExponent?] using hzero

theorem readNumberParts?_toDigits (n : Nat) (hrest : Delimits rest) :
    readNumberParts? (Nat.toDigits 10 n ++ rest) =
        some (⟨false, Nat.toDigits 10 n, none, none⟩, rest) ∧
      readNumberParts? ('-' :: (Nat.toDigits 10 n ++ rest)) =
        some (⟨true, Nat.toDigits 10 n, none, none⟩, rest) :=
  readNumberParts?_append (fun _ hc ↦ Nat.isDigit_of_mem_toDigits (by decide) (by decide) hc)
    Nat.toDigits_ne_nil length_toDigits_of_head? hrest

theorem NumberParts.value?_of_lt (h : n < 18446744073709551616) :
    (⟨false, Nat.toDigits 10 n, none, none⟩ : NumberParts).value? = some (.integer n) := by
  have hinteger : (⟨false, Nat.toDigits 10 n, none, none⟩ : NumberParts).integer? =
      some (n : Int) := by
    simp [integer?, Nat.ofDigitChars_ten_toDigits, h]
  rw [value?, hinteger]

theorem NumberParts.value?_of_le (hpos : n ≠ 0) (h : n ≤ 9223372036854775808) :
    (⟨true, Nat.toDigits 10 n, none, none⟩ : NumberParts).value? = some (.integer (-n)) := by
  have hinteger : (⟨true, Nat.toDigits 10 n, none, none⟩ : NumberParts).integer? =
      some (-n : Int) := by
    simp [integer?, Nat.ofDigitChars_ten_toDigits, hpos, h]
  rw [value?, hinteger]

theorem readNumber?_of_parts {cs : List Char} {parts : NumberParts} {x : JsonNumber}
    (hparts : readNumberParts? cs = some (parts, rest)) (hvalue : parts.value? = some x) :
    readNumber? cs = some (x, rest) := by
  simp [readNumber?, hparts, hvalue]

theorem toList_text_ofNat (m : Nat) :
    (JsonNumber.integer (Int.ofNat m)).text.toList = Nat.toDigits 10 m :=
  Nat.toList_repr

theorem toList_text_negSucc (m : Nat) :
    (JsonNumber.integer (Int.negSucc m)).text.toList = '-' :: Nat.toDigits 10 (m + 1) := by
  rw [JsonNumber.text, Int.toString_eq_repr, Int.repr, String.toList_append, Nat.toList_repr]
  rfl

/-- The text of an integer starts with a digit or a minus sign. -/
theorem exists_text_eq_cons {x : JsonNumber} (hx : x.IsWord) :
    ∃ c cs, x.text.toList = c :: cs ∧ (c.isDigit = true ∨ c = '-') := by
  cases x with
  | float x => cases hx
  | integer i =>
    cases i with
    | ofNat m =>
      obtain ⟨c, cs, hdigits⟩ :=
        List.exists_cons_of_ne_nil (Nat.toDigits_ne_nil (n := m) (b := 10))
      refine ⟨c, cs, by rw [toList_text_ofNat, hdigits], .inl ?_⟩
      refine Nat.isDigit_of_mem_toDigits (b := 10) (n := m) (by decide) (by decide) ?_
      rw [hdigits]
      exact List.mem_cons_self
    | negSucc m => exact ⟨'-', _, toList_text_negSucc m, .inr rfl⟩

/-- What is written for an integer of word size is read as that integer. -/
theorem readNumber?_text {x : JsonNumber} (hx : x.IsWord) (hrest : Delimits rest) :
    readNumber? (x.text.toList ++ rest) = some (x, rest) := by
  cases x with
  | float x => cases hx
  | integer i =>
    obtain ⟨hlow, hhigh⟩ := hx
    cases i with
    | ofNat m =>
      rw [toList_text_ofNat]
      exact readNumber?_of_parts (readNumberParts?_toDigits m hrest).1
        (NumberParts.value?_of_lt (Int.ofNat_lt.mp hhigh))
    | negSucc m =>
      rw [toList_text_negSucc]
      exact readNumber?_of_parts (readNumberParts?_toDigits (m + 1) hrest).2
        (NumberParts.value?_of_le (Nat.succ_ne_zero m) (by omega))

/-! ## Strings -/

section Strings

variable {c e : Char} {k : Nat}

theorem readCodePoints?_short (hc : c ≠ 'u') (he : shortEscape? c = some e) :
    readCodePoints? ('\\' :: c :: rest) =
      (readCodePoints? rest).map fun read ↦ (e.toNat :: read.1, read.2) := by
  rw [readCodePoints?]
  · rw [he]
    cases readCodePoints? rest <;> rfl
  · rintro _ _ _ _ _ rfl
    exact absurd rfl hc

theorem readCodePoints?_numbered {x y z w : Char} (hword : hexWord? x y z w = some k) :
    readCodePoints? ('\\' :: 'u' :: x :: y :: z :: w :: rest) =
      (readCodePoints? rest).map fun read ↦ (k :: read.1, read.2) := by
  rw [readCodePoints?, hword]
  cases readCodePoints? rest <;> rfl

theorem readCodePoints?_plain (hquote : c ≠ '"') (hslash : c ≠ '\\') (hlow : ¬ c.toNat < 32) :
    readCodePoints? (c :: rest) =
      (readCodePoints? rest).map fun read ↦ (c.toNat :: read.1, read.2) := by
  rw [readCodePoints?, if_neg hlow]
  · cases readCodePoints? rest <;> rfl
  · exact hquote
  · rintro _ _ _ _ _ rfl
    exact absurd rfl hslash
  · rintro _ _ rfl
    exact absurd rfl hslash

/-- A character below the blank can be written by its number. -/
theorem hexWord?_of_lt (h : k < 32) :
    hexWord? '0' '0' (hexDigit (k / 16)) (hexDigit (k % 16)) = some k := by
  have hall : ∀ k < 32, hexWord? '0' '0' (hexDigit (k / 16)) (hexDigit (k % 16)) = some k := by
    decide
  exact hall k h

/-- What is written for a character is read as its code point. -/
theorem readCodePoints?_escapeChar (c : Char) (rest : List Char) :
    readCodePoints? (escapeChar c ++ rest) =
      (readCodePoints? rest).map fun read ↦ (c.toNat :: read.1, read.2) := by
  rw [escapeChar]
  split_ifs with hquote hslash hb hf hn hr ht hlow
  -- The seven short escapes.
  iterate 7
    · subst_vars
      exact readCodePoints?_short (by decide) rfl
  · exact readCodePoints?_numbered (hexWord?_of_lt hlow)
  · exact readCodePoints?_plain hquote hslash hlow

/-- What is written for characters is read as their code points, up to the closing quote. -/
theorem readCodePoints?_escape (cs rest : List Char) :
    readCodePoints? (cs.flatMap escapeChar ++ '"' :: rest) = some (cs.map Char.toNat, rest) := by
  induction cs with
  | nil => rw [List.flatMap_nil, List.nil_append, readCodePoints?, List.map_nil]
  | cons c cs ih =>
    rw [List.flatMap_cons, List.append_assoc, readCodePoints?_escapeChar, ih]
    rfl

/-- No character is half of a surrogate pair. -/
theorem joinSurrogates?_map_toNat (cs : List Char) :
    joinSurrogates? (cs.map Char.toNat) = some cs := by
  induction cs with
  | nil => rfl
  | cons c cs ih =>
    have hvalid : c.toNat < 0xd800 ∨ 0xe000 ≤ c.toNat := by
      rcases c.valid with hlow | ⟨hhigh, -⟩
      · exact .inl hlow
      · exact .inr hhigh
    rw [List.map_cons, joinSurrogates?.eq_def]
    dsimp only
    rw [if_pos hvalid, ih, Option.map_some, Char.ofNat_toNat]

/-- What is written for a string is read as that string, behind the opening quote. -/
theorem readString?_escape (s : String) (rest : List Char) :
    readString? (s.toList.flatMap escapeChar ++ '"' :: rest) = some (s, rest) := by
  rw [readString?, readCodePoints?_escape]
  dsimp only
  rw [joinSurrogates?_map_toNat, Option.map_some, String.ofList_toList]

theorem quote_append (s : String) (rest : List Char) :
    quote s ++ rest = '"' :: (s.toList.flatMap escapeChar ++ '"' :: rest) := by
  rw [quote, List.cons_append, List.append_assoc]
  rfl

end Strings

end Json

end LayeredPlanning
