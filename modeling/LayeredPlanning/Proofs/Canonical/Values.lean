import LayeredPlanning.Canonical.ContentHash
import LayeredPlanning.Proofs.Canonical.Members
import LayeredPlanning.Proofs.Canonical.Scalars

/-!
# Canonical JSON is faithful

A value has a canonical text exactly if all its numbers are integers of word size; otherwise the
first one that is not is reported (`numbers` lists them in the order of the text).  The text can be
read back (`readValue?_write`), so it determines the value: `canonicalBytes_faithful`.

Reading takes a bound on how much is entered.  Every value, item and member that is entered has a
character of its own in the text, so twice the length of the text is enough.
-/

namespace LayeredPlanning

namespace Json

/-! ## Numbers -/

mutual

/-- The numbers in a value, in the order of the text. -/
def numbers : Json → List JsonNumber
  | null => []
  | bool _ => []
  | number n => [n]
  | string _ => []
  | array items => numbersOfItems items
  | object members => numbersOfMembers members

/-- The numbers in the items of an array. -/
def numbersOfItems : List Json → List JsonNumber
  | [] => []
  | v :: rest => numbers v ++ numbersOfItems rest

/-- The numbers in the members of an object. -/
def numbersOfMembers : List (String × Json) → List JsonNumber
  | [] => []
  | (_, v) :: rest => numbers v ++ numbersOfMembers rest

end

mutual

/-- What is reported of a value is the first of its numbers that is not of word size. -/
theorem firstNonWord?_eq_find? : (v : Json) →
    v.firstNonWord? = v.numbers.find? fun n ↦ !decide n.IsWord
  | null => rfl
  | bool _ => rfl
  | number n => by
    rw [firstNonWord?, numbers]
    by_cases hn : n.IsWord <;> simp [hn]
  | string _ => rfl
  | array items => by
    rw [firstNonWord?, numbers, firstNonWordItem?_eq_find? items]
  | object members => by
    rw [firstNonWord?, numbers, firstNonWordMember?_eq_find? members]

theorem firstNonWordItem?_eq_find? : (items : List Json) →
    firstNonWordItem? items = (numbersOfItems items).find? fun n ↦ !decide n.IsWord
  | [] => rfl
  | v :: rest => by
    rw [firstNonWordItem?, numbersOfItems, List.find?_append, firstNonWord?_eq_find? v,
      firstNonWordItem?_eq_find? rest]

theorem firstNonWordMember?_eq_find? : (members : List (String × Json)) →
    firstNonWordMember? members = (numbersOfMembers members).find? fun n ↦ !decide n.IsWord
  | [] => rfl
  | (_, v) :: rest => by
    rw [firstNonWordMember?, numbersOfMembers, List.find?_append, firstNonWord?_eq_find? v,
      firstNonWordMember?_eq_find? rest]

end

/-! ## Reading values back -/

section Reading

variable {c : Char} {cs rest : List Char} {n : Nat}

theorem skipBlanks_cons (hc : isBlank c = false) : skipBlanks (c :: cs) = c :: cs :=
  List.dropWhile_cons_of_neg (by rw [hc]; exact Bool.false_ne_true)

/-- Where the text of a value can start: not with a blank, and not like the end of an array. -/
def Opens (c : Char) : Prop := isBlank c = false ∧ c ≠ ']'

instance instDecidableOpens (c : Char) : Decidable (Opens c) :=
  inferInstanceAs (Decidable (_ ∧ _))

theorem opens_of_number (h : c.isDigit = true ∨ c = '-') : Opens c := by
  constructor
  · rw [Bool.eq_false_iff]
    intro hblank
    simp only [isBlank, Bool.or_eq_true, decide_eq_true_eq] at hblank
    rcases hblank with ((rfl | rfl) | rfl) | rfl <;> exact absurd h (by decide)
  · rintro rfl
    exact absurd h (by decide)

theorem exists_write_eq_cons (v : Json) (hv : ∀ n ∈ v.numbers, n.IsWord) :
    ∃ c cs, v.write = c :: cs ∧ Opens c := by
  cases v with
  | null => exact ⟨_, _, rfl, by decide⟩
  | bool b => cases b <;> exact ⟨_, _, rfl, by decide⟩
  | number x =>
    obtain ⟨c, cs, htext, hc⟩ := exists_text_eq_cons (hv x (by simp [numbers]))
    exact ⟨c, cs, htext, opens_of_number hc⟩
  | string s => exact ⟨_, _, rfl, by decide⟩
  | array items => exact ⟨_, _, rfl, by decide⟩
  | object members => exact ⟨_, _, rfl, by decide⟩

theorem readValue?_number (hc : c.isDigit = true ∨ c = '-') :
    readValue? (n + 1) (c :: cs) =
      (readNumber? (c :: cs)).map fun read ↦ (number read.1, read.2) := by
  rw [readValue?, skipBlanks_cons (opens_of_number hc).1]
  split
  case h_7 => rfl
  all_goals
    next heq =>
      cases heq
      exact absurd hc (by decide)

theorem readValue?_string :
    readValue? (n + 1) ('"' :: cs) = (readString? cs).map fun read ↦ (string read.1, read.2) := by
  simp only [readValue?, skipBlanks_cons (c := '"') (by decide)]

theorem readValue?_array (hc : Opens c) :
    readValue? (n + 1) ('[' :: c :: cs) =
      (readItems? n (c :: cs)).map fun read ↦ (array read.1, read.2) := by
  simp only [readValue?, skipBlanks_cons (c := '[') (by decide), skipBlanks_cons hc.1]
  split
  · next heq =>
    cases heq
    exact absurd rfl hc.2
  · rfl

theorem readValue?_object :
    readValue? (n + 1) ('\x7b' :: '"' :: cs) =
      (readMembers? n ('"' :: cs)).map fun read ↦ (ofMembers read.1, read.2) := by
  simp only [readValue?, skipBlanks_cons (c := '\x7b') (by decide),
    skipBlanks_cons (c := '"') (by decide)]
  rfl

theorem readItems?_last {v : Json} (hv : readValue? n cs = some (v, ']' :: rest)) :
    readItems? (n + 1) cs = some ([v], rest) := by
  simp only [readItems?, hv, skipBlanks_cons (c := ']') (by decide)]

theorem readItems?_more {v : Json} (hv : readValue? n cs = some (v, ',' :: rest)) :
    readItems? (n + 1) cs = (readItems? n rest).map fun read ↦ (v :: read.1, read.2) := by
  simp only [readItems?, hv, skipBlanks_cons (c := ',') (by decide)]

theorem readMembers?_last {key : String} {v : Json} {tail : List Char}
    (hkey : readString? cs = some (key, ':' :: tail))
    (hv : readValue? n tail = some (v, '\x7d' :: rest)) :
    readMembers? (n + 1) ('"' :: cs) = some ([(key, v)], rest) := by
  simp only [readMembers?, hkey, hv, skipBlanks_cons (c := '"') (by decide),
    skipBlanks_cons (c := ':') (by decide), skipBlanks_cons (c := '\x7d') (by decide)]

theorem readMembers?_more {key : String} {v : Json} {tail : List Char}
    (hkey : readString? cs = some (key, ':' :: tail))
    (hv : readValue? n tail = some (v, ',' :: rest)) :
    readMembers? (n + 1) ('"' :: cs) =
      (readMembers? n rest).map fun read ↦ ((key, v) :: read.1, read.2) := by
  simp only [readMembers?, hkey, hv, skipBlanks_cons (c := '"') (by decide),
    skipBlanks_cons (c := ':') (by decide), skipBlanks_cons (c := ',') (by decide)]

theorem delimits_nil : Delimits [] := nofun

theorem delimits_cons (h : c = ',' ∨ c = ']' ∨ c = '\x7d') : Delimits (c :: cs) := by
  rintro _ ⟨⟩
  exact h

/-- The items of an array start like the first of them. -/
theorem exists_writeItems_eq_cons (v : Json) (items : List Json)
    (hv : ∀ x ∈ v.numbers, x.IsWord) :
    ∃ c cs, writeItems (v :: items) = c :: cs ∧ Opens c := by
  obtain ⟨c, cs, hwrite, hc⟩ := exists_write_eq_cons v hv
  cases items with
  | nil => exact ⟨c, cs, by rw [writeItems, hwrite], hc⟩
  | cons w items =>
    exact ⟨c, cs ++ ',' :: writeItems (w :: items), by rw [writeItems, hwrite]; rfl, hc⟩

/-- The members of an object start with the quote of the first key. -/
theorem exists_writeMembers_eq_cons (m : String × Json) (members : List (String × Json)) :
    ∃ cs, writeMembers (m :: members) = '"' :: cs := by
  obtain ⟨k, v⟩ := m
  cases members with
  | nil => exact ⟨_, by rw [writeMembers, quote_append]⟩
  | cons m members => exact ⟨_, by rw [writeMembers, quote_append]⟩

theorem length_write_pos {v : Json} (hv : ∀ x ∈ v.numbers, x.IsWord) : 0 < v.write.length := by
  obtain ⟨c, cs, hwrite, -⟩ := exists_write_eq_cons v hv
  rw [hwrite]
  exact Nat.succ_pos _

mutual

/-- A value is read back from its text, in front of what can follow a value. -/
theorem readValue?_write : (v : Json) → v.Ordered → (∀ x ∈ v.numbers, x.IsWord) →
    ∀ n rest, 2 * v.write.length ≤ n + 1 → Delimits rest →
      readValue? (n + 1) (v.write ++ rest) = some (v, rest)
  | null, _, _, n, rest, _, _ => rfl
  | bool true, _, _, n, rest, _, _ => rfl
  | bool false, _, _, n, rest, _, _ => rfl
  | number x, _, hwords, n, rest, _, hrest => by
    have hx : x.IsWord := hwords x List.mem_cons_self
    obtain ⟨c, cs, htext, hc⟩ := exists_text_eq_cons hx
    have hread := readNumber?_text hx hrest
    rw [htext, List.cons_append] at hread
    rw [write, htext, List.cons_append, readValue?_number hc, hread]
    rfl
  | string s, _, _, n, rest, _, _ => by
    rw [write, quote_append, readValue?_string, readString?_escape]
    rfl
  | array [], _, _, n, rest, _, _ => rfl
  | array (v :: items), hordered, hwords, n, rest, hn, _ => by
    rw [numbers] at hwords
    rw [write, List.length_cons, List.length_append, List.length_singleton] at hn
    obtain ⟨m, rfl⟩ : ∃ m, n = m + 1 := Nat.exists_eq_succ_of_ne_zero (by omega)
    have hread := readItems?_writeItems v items hordered hwords m rest (by omega)
    obtain ⟨c, cs, hitems, hc⟩ := exists_writeItems_eq_cons v items
      fun x hx ↦ hwords x (List.mem_append_left _ hx)
    rw [hitems, List.cons_append] at hread
    rw [write, List.cons_append, List.append_assoc, hitems, List.cons_append, List.singleton_append,
      readValue?_array hc, hread]
    rfl
  | object [], _, _, n, rest, _, _ => rfl
  | object (m :: members), hordered, hwords, n, rest, hn, _ => by
    obtain ⟨hascending, hordered⟩ := hordered
    rw [numbers] at hwords
    rw [write, List.length_cons, List.length_append, List.length_singleton] at hn
    obtain ⟨l, rfl⟩ : ∃ l, n = l + 1 := Nat.exists_eq_succ_of_ne_zero (by omega)
    have hread := readMembers?_writeMembers m members hordered hwords l rest (by omega)
    obtain ⟨cs, hmembers⟩ := exists_writeMembers_eq_cons m members
    rw [hmembers, List.cons_append] at hread
    rw [write, List.cons_append, List.append_assoc, hmembers, List.cons_append,
      List.singleton_append, readValue?_object, hread, Option.map_some,
      ofMembers_of_pairwise hascending]

/-- The items of an array are read back, up to the closing bracket. -/
theorem readItems?_writeItems : (v : Json) → (items : List Json) → OrderedItems (v :: items) →
    (∀ x ∈ numbersOfItems (v :: items), x.IsWord) → ∀ n rest,
      2 * (writeItems (v :: items)).length ≤ n →
        readItems? (n + 1) (writeItems (v :: items) ++ ']' :: rest) = some (v :: items, rest)
  | v, [], hordered, hwords, n, rest, hn => by
    rw [numbersOfItems, List.forall_mem_append] at hwords
    rw [writeItems] at hn ⊢
    have hpos := length_write_pos hwords.1
    obtain ⟨m, rfl⟩ : ∃ m, n = m + 1 := Nat.exists_eq_succ_of_ne_zero (by omega)
    exact readItems?_last
      (readValue?_write v hordered.1 hwords.1 m _ hn (delimits_cons (by decide)))
  | v, w :: items, hordered, hwords, n, rest, hn => by
    rw [numbersOfItems, List.forall_mem_append] at hwords
    rw [writeItems, List.length_append, List.length_cons] at hn
    have hpos := length_write_pos hwords.1
    obtain ⟨m, rfl⟩ : ∃ m, n = m + 1 := Nat.exists_eq_succ_of_ne_zero (by omega)
    have hfirst := readValue?_write v hordered.1 hwords.1 m
      (',' :: (writeItems (w :: items) ++ ']' :: rest)) (by omega) (delimits_cons (by decide))
    have hrest := readItems?_writeItems w items hordered.2 hwords.2 m rest (by omega)
    rw [writeItems, List.append_assoc, List.cons_append, readItems?_more hfirst, hrest]
    rfl

/-- The members of an object are read back, up to the closing brace. -/
theorem readMembers?_writeMembers : (m : String × Json) → (members : List (String × Json)) →
    OrderedMembers (m :: members) → (∀ x ∈ numbersOfMembers (m :: members), x.IsWord) →
      ∀ n rest, 2 * (writeMembers (m :: members)).length ≤ n →
        readMembers? (n + 1) (writeMembers (m :: members) ++ '\x7d' :: rest) =
          some (m :: members, rest)
  | (k, v), [], hordered, hwords, n, rest, hn => by
    rw [numbersOfMembers, List.forall_mem_append] at hwords
    rw [writeMembers, List.length_append, List.length_cons] at hn
    obtain ⟨l, rfl⟩ : ∃ l, n = l + 1 := Nat.exists_eq_succ_of_ne_zero (by omega)
    have hvalue := readValue?_write v hordered.1 hwords.1 l ('\x7d' :: rest) (by omega)
      (delimits_cons (by decide))
    rw [writeMembers, List.append_assoc, quote_append, List.cons_append]
    exact readMembers?_last (readString?_escape k _) hvalue
  | (k, v), m :: members, hordered, hwords, n, rest, hn => by
    rw [numbersOfMembers, List.forall_mem_append] at hwords
    rw [writeMembers, List.length_append, List.length_cons, List.length_append,
      List.length_cons] at hn
    obtain ⟨l, rfl⟩ : ∃ l, n = l + 1 := Nat.exists_eq_succ_of_ne_zero (by omega)
    have hvalue := readValue?_write v hordered.1 hwords.1 l
      (',' :: (writeMembers (m :: members) ++ '\x7d' :: rest)) (by omega)
      (delimits_cons (by decide))
    have hrest := readMembers?_writeMembers m members hordered.2 hwords.2 l rest (by omega)
    rw [writeMembers, List.append_assoc, quote_append, List.cons_append, List.append_assoc,
      List.cons_append, readMembers?_more (readString?_escape k _) hvalue, hrest]
    rfl

end

/-- A value is read back from its whole text. -/
theorem read?_text {v : Json} (hordered : v.Ordered) (hwords : ∀ x ∈ v.numbers, x.IsWord) :
    read? v.text = some v := by
  have hread := readValue?_write v hordered hwords (2 * v.write.length + 1) []
    (by omega) delimits_nil
  rw [List.append_nil] at hread
  rw [read?, text, String.toList_ofList, hread]
  rfl

end Reading

/-! ## Canonical bytes -/

/-- The canonical text of a value, as bytes. -/
def canonicalBytes (v : Json) : Except CanonicalError (List UInt8) :=
  v.canonicalText.map ContentHash.textBytes

/-- The value that the bytes of a text hold. -/
def ofBytes? (bytes : List UInt8) : Option Json := (String.fromUTF8? ⟨bytes.toArray⟩).bind read?

theorem ofBytes?_textBytes (s : String) : ofBytes? (ContentHash.textBytes s) = read? s := by
  have hbytes : (⟨(ContentHash.textBytes s).toArray⟩ : ByteArray) = s.toByteArray := rfl
  rw [ofBytes?, hbytes, String.fromUTF8?, dif_pos s.isValidUTF8]
  rfl

variable {v : Json} {bytes : List UInt8}

theorem canonicalBytes_of_words (h : ∀ n ∈ v.numbers, n.IsWord) :
    v.canonicalBytes = .ok (ContentHash.textBytes v.text) := by
  have hnone : v.firstNonWord? = none := by
    rw [firstNonWord?_eq_find?, List.find?_eq_none]
    intro n hn
    simpa using h n hn
  rw [canonicalBytes, canonicalText, hnone]
  rfl

/-- The number that is reported is the first one that is not an integer of word size. -/
theorem canonicalBytes_of_not_words (h : ¬ ∀ n ∈ v.numbers, n.IsWord) :
    ∃ before n after, v.numbers = before ++ n :: after ∧ (∀ x ∈ before, x.IsWord) ∧
      ¬ n.IsWord ∧ v.canonicalBytes = .error (.nonInteger n.text) := by
  obtain ⟨n, hfirst⟩ : ∃ n, v.firstNonWord? = some n := by
    rw [← Option.ne_none_iff_exists', firstNonWord?_eq_find?, Ne, List.find?_eq_none]
    simpa using h
  have hfind := hfirst
  rw [firstNonWord?_eq_find?, List.find?_eq_some_iff_append] at hfind
  obtain ⟨hn, before, after, hnumbers, hbefore⟩ := hfind
  refine ⟨before, n, after, hnumbers, fun x hx ↦ by simpa using hbefore x hx,
    by simpa using hn, ?_⟩
  rw [canonicalBytes, canonicalText, hfirst]
  rfl

theorem words_of_canonicalBytes (h : v.canonicalBytes = .ok bytes) :
    ∀ n ∈ v.numbers, n.IsWord := by
  rw [canonicalBytes, canonicalText] at h
  cases hfirst : v.firstNonWord? with
  | some n =>
    rw [hfirst] at h
    cases h
  | none =>
    rw [firstNonWord?_eq_find?, List.find?_eq_none] at hfirst
    intro n hn
    simpa using hfirst n hn

/-- A value is read back from its canonical bytes. -/
theorem ofBytes?_canonicalBytes (hordered : v.Ordered) (h : v.canonicalBytes = .ok bytes) :
    ofBytes? bytes = some v := by
  have hwords := words_of_canonicalBytes h
  obtain rfl := Except.ok.inj ((canonicalBytes_of_words hwords).symm.trans h)
  rw [ofBytes?_textBytes, read?_text hordered hwords]

/-- A value has canonical bytes exactly if all its numbers are integers of word size; otherwise the
first that is not is reported, in the order of the text.  The bytes can be read back, so no two
values have the same.  The order in which the members of an object were inserted does not matter. -/
theorem canonicalBytes_faithful :
    (∀ v : Json, (∃ bytes, v.canonicalBytes = .ok bytes) ↔ ∀ n ∈ v.numbers, n.IsWord) ∧
    (∀ v : Json, ¬ (∀ n ∈ v.numbers, n.IsWord) → ∃ before n after,
      v.numbers = before ++ n :: after ∧ (∀ x ∈ before, x.IsWord) ∧ ¬ n.IsWord ∧
        v.canonicalBytes = .error (.nonInteger n.text)) ∧
    (∀ (v : Json) (bytes : List UInt8), v.Ordered → v.canonicalBytes = .ok bytes →
      ofBytes? bytes = some v) ∧
    (∀ (v w : Json) (bytes : List UInt8), v.Ordered → w.Ordered →
      v.canonicalBytes = .ok bytes → w.canonicalBytes = .ok bytes → v = w) ∧
    ∀ members others : List (String × Json), (∀ m, m ∈ members ↔ m ∈ others) →
      (∀ m ∈ members, ∀ n ∈ members, m.1 = n.1 → m = n) →
        (ofMembers members).canonicalBytes = (ofMembers others).canonicalBytes := by
  refine ⟨?_, ?_, ?_, ?_, ?_⟩
  · intro v
    constructor
    · rintro ⟨bytes, hbytes⟩
      exact words_of_canonicalBytes hbytes
    · intro hwords
      exact ⟨_, canonicalBytes_of_words hwords⟩
  · intro v hnot
    exact canonicalBytes_of_not_words hnot
  · intro v bytes hordered hbytes
    exact ofBytes?_canonicalBytes hordered hbytes
  · intro v w bytes hv hw hbytes hbytes'
    have hread := ofBytes?_canonicalBytes hv hbytes
    rw [ofBytes?_canonicalBytes hw hbytes'] at hread
    exact (Option.some.inj hread).symm
  · intro members others hsame hkeys
    rw [ofMembers_congr hsame hkeys]

/-- A value with the least and the largest integer of word size, and with characters that are
escaped. -/
def sample : Json :=
  .ofMembers [("b\"", .array [.int (-9223372036854775808), .nat 18446744073709551615, .object []]),
    ("a", .string "\\\n\x01")]

/-- The canonical text of the sample. -/
def sampleText : String :=
  "\x7b\"a\":\"\\\\\\n\\u0001\",\"b\\\"\":[-9223372036854775808,18446744073709551615,\x7b\x7d]\x7d"

/-- The sample is written as expected, and read back. -/
theorem sample_canonicalBytes_faithful :
    sample.Ordered ∧ sample.canonicalBytes = .ok (ContentHash.textBytes sampleText) ∧
      ofBytes? (ContentHash.textBytes sampleText) = some sample := by
  have hordered : sample.Ordered := by
    refine ordered_ofMembers
      (List.forall_mem_cons.mpr ⟨?_, List.forall_mem_singleton.mpr trivial⟩)
    exact ⟨trivial, trivial, ⟨.nil, trivial⟩, trivial⟩
  have hbytes : sample.canonicalBytes = .ok (ContentHash.textBytes sampleText) := rfl
  exact ⟨hordered, hbytes, canonicalBytes_faithful.2.2.1 sample _ hordered hbytes⟩

end Json

end LayeredPlanning
