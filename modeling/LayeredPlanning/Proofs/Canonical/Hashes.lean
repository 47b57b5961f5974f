import LayeredPlanning.Proofs.Plans.Encoding
import Mathlib.Data.List.TakeWhile

/-!
# Texts of content hashes

A hash is read from its text by the first colon, and neither side of it is empty
(`parse?_eq_some_iff`).  The same is said of the bytes of the text, where the colon has a byte of
its own that is part of no other character (`parse?_eq_some_iff_bytes`).

A text with several colons is read too, unless it begins with one, so the digest may hold colons:
`reads_one_colon_iff`.  Hashes of data have one colon only.
-/

namespace LayeredPlanning

namespace ContentHash

variable {s : String} {h : ContentHash} {c : Char}

/-! ## Reading by the first colon -/

/-- Both parts hold text, and the algorithm ends at the first colon. -/
structure WellFormed (h : ContentHash) : Prop where
  algorithm_ne : h.algorithm ≠ ""
  hexDigest_ne : h.hexDigest ≠ ""
  notMem : ':' ∉ h.algorithm.toList

theorem toList_text (h : ContentHash) :
    h.text.toList = h.algorithm.toList ++ ':' :: h.hexDigest.toList := by
  rw [text, String.toList_append, String.toList_append, List.append_assoc]
  rfl

/-- Up to the first colon there is the algorithm, and from there on the digest. -/
theorem WellFormed.parts_text (hwell : h.WellFormed) :
    h.text.toList.takeWhile (· ≠ ':') = h.algorithm.toList ∧
      h.text.toList.dropWhile (· ≠ ':') = ':' :: h.hexDigest.toList := by
  have hbefore : ∀ c ∈ h.algorithm.toList, decide (c ≠ ':') = true := by
    intro c hc
    rw [decide_eq_true_eq]
    rintro rfl
    exact hwell.notMem hc
  rw [toList_text, List.takeWhile_append_of_pos hbefore, List.dropWhile_append_of_pos hbefore]
  simp

theorem WellFormed.parse?_text (hwell : h.WellFormed) : parse? h.text = some h := by
  obtain ⟨htake, hdrop⟩ := hwell.parts_text
  obtain ⟨c, rest, hdigest⟩ : ∃ c rest, h.hexDigest.toList = c :: rest :=
    List.exists_cons_of_ne_nil (mt String.toList_eq_nil_iff.mp hwell.hexDigest_ne)
  have hne : h.algorithm.toList.isEmpty = false :=
    List.isEmpty_eq_false_iff.mpr (mt String.toList_eq_nil_iff.mp hwell.algorithm_ne)
  rw [parse?, htake, hdrop, hdigest]
  dsimp only
  rw [hne, ← hdigest, String.ofList_toList, String.ofList_toList]
  rfl

/-- What is read is what was written. -/
theorem parse?_eq_some_iff : parse? s = some h ↔ h.WellFormed ∧ h.text = s := by
  constructor
  · intro hparse
    rw [parse?] at hparse
    split at hparse
    · next d c rest hdrop =>
      split at hparse
      · cases hparse
      · next hne =>
        obtain rfl := Option.some.inj hparse
        have hcolon : d = ':' := by
          have hhead := List.head?_dropWhile_not (· ≠ ':') s.toList
          rw [hdrop] at hhead
          simpa using hhead
        have hsplit := List.takeWhile_append_dropWhile (p := (· ≠ ':')) (l := s.toList)
        rw [hdrop, hcolon] at hsplit
        refine ⟨⟨?_, ?_, ?_⟩, ?_⟩
        · simpa using hne
        · simp
        · intro hmem
          rw [String.toList_ofList] at hmem
          simpa using List.mem_takeWhile_imp hmem
        · rw [← String.toList_inj, toList_text, String.toList_ofList,
            String.toList_ofList, hsplit]
    · cases hparse
  · rintro ⟨hwell, rfl⟩
    exact hwell.parse?_text

/-! ## The bytes of the text -/

/-- The byte of a colon. -/
def colonByte : UInt8 := 58

/-- Where the first colon stands among the bytes of a text. -/
def separator (s : String) : Nat := (textBytes s).idxOf colonByte

theorem textBytes_eq_flatMap (s : String) :
    textBytes s = s.toList.flatMap String.utf8EncodeChar := by
  have hbytes : s.toByteArray = s.toList.utf8Encode := by
    rw [← String.toByteArray_ofList, String.ofList_toList]
  rw [textBytes, String.toUTF8_eq_toByteArray, hbytes, List.utf8Encode, List.data_toByteArray]

/-- The other characters have no byte in common with the colon. -/
theorem colonByte_mem_utf8EncodeChar : colonByte ∈ String.utf8EncodeChar c ↔ c = ':' := by
  constructor
  · intro hmem
    have hbyte : ∀ n : Nat, colonByte = UInt8.ofNat n ↔ n % 256 = 58 := by
      intro n
      rw [← UInt8.toNat_inj, UInt8.toNat_ofNat', eq_comm]
      rfl
    have hval : c.val.toNat = 58 := by
      rw [String.utf8EncodeChar] at hmem
      -- Only the first case has a byte below 128.
      split_ifs at hmem <;> simp only [List.mem_cons, List.not_mem_nil, or_false, hbyte] at hmem <;>
        omega
    exact Char.ext (UInt32.toNat_inj.mp hval)
  · rintro rfl
    decide

theorem colonByte_mem_textBytes : colonByte ∈ textBytes s ↔ ':' ∈ s.toList := by
  rw [textBytes_eq_flatMap, List.mem_flatMap]
  simp [colonByte_mem_utf8EncodeChar]

theorem textBytes_eq_nil_iff : textBytes s = [] ↔ s = "" :=
  ⟨fun hnil ↦ textBytes_injective hnil, fun hempty ↦ hempty ▸ rfl⟩

theorem textBytes_text (h : ContentHash) :
    textBytes h.text = textBytes h.algorithm ++ colonByte :: textBytes h.hexDigest := by
  rw [text, textBytes_append, textBytes_append, List.append_assoc]
  rfl

theorem separator_text (hnotMem : ':' ∉ h.algorithm.toList) :
    separator h.text = (textBytes h.algorithm).length := by
  rw [separator, textBytes_text,
    List.idxOf_append_of_notMem (mt colonByte_mem_textBytes.mp hnotMem),
    List.idxOf_cons_self, Nat.add_zero]

/-- The bytes around the first colon, if there is one. -/
theorem textBytes_eq_of_separator (hlt : separator s < (textBytes s).length) :
    textBytes s = (textBytes s).take (separator s) ++
        colonByte :: (textBytes s).drop (separator s + 1) ∧
      colonByte ∉ (textBytes s).take (separator s) := by
  have hmem : colonByte ∈ textBytes s := List.idxOf_lt_length_iff.mp hlt
  have hdrop : (textBytes s).drop (separator s) =
      colonByte :: (textBytes s).drop (separator s + 1) := by
    rw [List.drop_eq_getElem_cons hlt]
    exact congrArg (· :: _) (List.getElem_idxOf hlt)
  constructor
  · rw [← hdrop, List.take_append_drop]
  · rw [List.mem_take_iff_idxOf_lt hmem]
    exact Nat.lt_irrefl _

/-- A hash is read by cutting the bytes at the first colon, unless it is the first or the last of
them. -/
theorem parse?_eq_some_iff_bytes :
    parse? s = some h ↔
      0 < separator s ∧ separator s + 1 < (textBytes s).length ∧
        textBytes h.algorithm = (textBytes s).take (separator s) ∧
          textBytes h.hexDigest = (textBytes s).drop (separator s + 1) := by
  rw [parse?_eq_some_iff]
  constructor
  · rintro ⟨hwell, rfl⟩
    have halgorithm : 0 < (textBytes h.algorithm).length :=
      List.length_pos_iff.mpr (mt textBytes_eq_nil_iff.mp hwell.algorithm_ne)
    have hdigest : 0 < (textBytes h.hexDigest).length :=
      List.length_pos_iff.mpr (mt textBytes_eq_nil_iff.mp hwell.hexDigest_ne)
    rw [separator_text hwell.notMem, textBytes_text, List.length_append, List.length_cons]
    refine ⟨halgorithm, by omega, List.take_left.symm, ?_⟩
    rw [← List.drop_drop, List.drop_left]
    rfl
  · rintro ⟨hpos, hlt, halgorithm, hdigest⟩
    obtain ⟨hbytes, hnotMem⟩ := textBytes_eq_of_separator (Nat.lt_of_succ_lt hlt)
    rw [← halgorithm] at hnotMem
    refine ⟨⟨?_, ?_, mt colonByte_mem_textBytes.mpr hnotMem⟩, ?_⟩
    · intro hempty
      rw [hempty] at halgorithm
      have hlength := congrArg List.length halgorithm
      rw [List.length_take, Nat.min_eq_left (by omega)] at hlength
      exact absurd hlength.symm hpos.ne'
    · intro hempty
      rw [hempty] at hdigest
      have hlength := congrArg List.length hdigest
      rw [List.length_drop] at hlength
      exact absurd hlength.symm (Nat.sub_pos_of_lt hlt).ne'
    · apply textBytes_injective
      rw [textBytes_text, halgorithm, hdigest, ← hbytes]

/-! ## Where hashes come from -/

/-- A hash is read from a text, or made of data under a domain. -/
inductive Obtained : ContentHash → Prop where
  | parsed {s : String} {h : ContentHash} : parse? s = some h → Obtained h
  | hashed (domain data : List UInt8) : Obtained (ofBytes domain data)

theorem length_hash (message : List UInt8) : (Sha256.hash message).length = 32 := by
  rw [Sha256.hash]
  rfl

theorem digitChar_ne_colon {n : Nat} (hn : n < 16) : Nat.digitChar n ≠ ':' := by
  have hall : ∀ n < 16, Nat.digitChar n ≠ ':' := by decide
  exact hall n hn

theorem colon_notMem_hexByte (b : UInt8) : ':' ∉ hexByte b := by
  have hb := b.toNat_lt
  intro hmem
  rcases List.mem_cons.mp hmem with hhigh | hmem
  · exact digitChar_ne_colon (by omega) hhigh.symm
  · exact digitChar_ne_colon (by omega) (List.mem_singleton.mp hmem).symm

theorem colon_notMem_hexDigest_ofBytes (domain data : List UInt8) :
    ':' ∉ (ofBytes domain data).hexDigest.toList := by
  rw [ofBytes, String.toList_ofList, List.mem_flatMap]
  rintro ⟨b, -, hmem⟩
  exact colon_notMem_hexByte b hmem

theorem wellFormed_ofBytes (domain data : List UInt8) : (ofBytes domain data).WellFormed where
  algorithm_ne := (by decide : "sha256" ≠ "")
  hexDigest_ne := by
    intro hempty
    have hdigits := String.toList_eq_nil_iff.mpr hempty
    rw [ofBytes, String.toList_ofList, List.flatMap_eq_nil_iff] at hdigits
    obtain ⟨b, hb⟩ := List.exists_mem_of_length_pos
      (show 0 < (Sha256.hash (domain ++ data)).length by rw [length_hash]; decide)
    cases hdigits b hb
  notMem := (by decide : ':' ∉ "sha256".toList)

theorem Obtained.wellFormed (hobtained : h.Obtained) : h.WellFormed := by
  cases hobtained with
  | parsed hparse => exact (parse?_eq_some_iff.mp hparse).1
  | hashed domain data => exact wellFormed_ofBytes domain data

/-! ## Counting colons -/

/-- One colon, with text on both sides of it. -/
def OneColon (s : String) : Prop :=
  s.toList.count ':' = 1 ∧ s.toList.head? ≠ some ':' ∧ s.toList.getLast? ≠ some ':'

instance instDecidableOneColon (s : String) : Decidable (OneColon s) :=
  inferInstanceAs (Decidable (_ ∧ _))

namespace WellFormed

theorem count_text (hwell : h.WellFormed) :
    h.text.toList.count ':' = h.hexDigest.toList.count ':' + 1 := by
  rw [toList_text, List.count_append, List.count_eq_zero_of_not_mem hwell.notMem,
    List.count_cons_self, Nat.zero_add]

theorem head?_text (hwell : h.WellFormed) : h.text.toList.head? ≠ some ':' := by
  rw [toList_text, List.head?_append_of_ne_nil _
    (mt String.toList_eq_nil_iff.mp hwell.algorithm_ne)]
  exact fun hhead ↦ hwell.notMem (List.mem_of_head? hhead)

/-- The text has one colon if there is none in the digest. -/
theorem oneColon_text_iff (hwell : h.WellFormed) :
    OneColon h.text ↔ ':' ∉ h.hexDigest.toList := by
  rw [OneColon, hwell.count_text, Nat.add_eq_right, List.count_eq_zero]
  refine ⟨And.left, fun hnotMem ↦ ⟨hnotMem, hwell.head?_text, ?_⟩⟩
  rw [toList_text, List.getLast?_append_of_ne_nil _ (List.cons_ne_nil _ _),
    List.getLast?_cons_of_ne_nil (mt String.toList_eq_nil_iff.mp hwell.hexDigest_ne)]
  exact fun hlast ↦ hnotMem (List.mem_of_getLast? hlast)

end WellFormed

/-- What is read are the texts with one colon between other text, and those with several colons that
do not begin with one. -/
theorem exists_parse?_iff :
    (∃ h, parse? s = some h) ↔
      OneColon s ∨ 2 ≤ s.toList.count ':' ∧ s.toList.head? ≠ some ':' := by
  constructor
  · rintro ⟨h, hparse⟩
    obtain ⟨hwell, rfl⟩ := parse?_eq_some_iff.mp hparse
    by_cases hdigest : ':' ∈ h.hexDigest.toList
    · refine .inr ⟨?_, hwell.head?_text⟩
      rw [hwell.count_text]
      exact Nat.succ_le_succ (List.count_pos_iff.mpr hdigest)
    · exact .inl (hwell.oneColon_text_iff.mpr hdigest)
  · intro hcolons
    have hcount : 0 < s.toList.count ':' := by
      rcases hcolons with ⟨hone, -⟩ | ⟨htwo, -⟩ <;> omega
    have hhead : s.toList.head? ≠ some ':' := by
      rcases hcolons with ⟨-, hhead, -⟩ | ⟨-, hhead⟩ <;> exact hhead
    obtain ⟨before, after, hsplit, hnotMem⟩ :=
      List.eq_append_cons_of_mem (List.count_pos_iff.mp hcount)
    rw [hsplit] at hhead
    have hbefore : before ≠ [] := by
      rintro rfl
      exact hhead rfl
    have hafter : after ≠ [] := by
      rintro rfl
      -- The only colon would be the last character.
      have hone : s.toList.count ':' = 1 := by
        rw [hsplit, List.count_append, List.count_eq_zero_of_not_mem hnotMem]
        rfl
      rcases hcolons with ⟨-, -, hlast⟩ | ⟨htwo, -⟩
      · rw [hsplit, List.getLast?_append_of_ne_nil _ (List.cons_ne_nil _ _)] at hlast
        exact hlast rfl
      · omega
    refine ⟨⟨String.ofList before, String.ofList after⟩,
      parse?_eq_some_iff.mpr ⟨⟨?_, ?_, ?_⟩, ?_⟩⟩
    · simpa using hbefore
    · simpa using hafter
    · rwa [String.toList_ofList]
    · rw [← String.toList_inj, toList_text, String.toList_ofList, String.toList_ofList, hsplit]

/-- Texts with one colon between other text are read and no others, but for those with several
colons of which none is in front: these are read too.  A text is cut at the first colon.  A hash
that has been obtained has two parts that are not empty and is read back from its text, which has
one colon exactly if its digest has none; so it is for hashes of data. -/
theorem reads_one_colon_iff (s : String) :
    (((∃ h, parse? s = some h) ↔ OneColon s) ↔
      (2 ≤ s.toList.count ':' → s.toList.head? = some ':')) ∧
    ((∃ h, parse? s = some h) ↔
      OneColon s ∨ 2 ≤ s.toList.count ':' ∧ s.toList.head? ≠ some ':') ∧
    (∀ h : ContentHash, parse? s = some h ↔
      0 < separator s ∧ separator s + 1 < (textBytes s).length ∧
        textBytes h.algorithm = (textBytes s).take (separator s) ∧
          textBytes h.hexDigest = (textBytes s).drop (separator s + 1)) ∧
    (∀ h : ContentHash, parse? s = some h → h.text = s) ∧
    (∀ h : ContentHash, h.Obtained →
      h.text = h.algorithm ++ ":" ++ h.hexDigest ∧ h.algorithm ≠ "" ∧ h.hexDigest ≠ "" ∧
        parse? h.text = some h ∧ (OneColon h.text ↔ ':' ∉ h.hexDigest.toList)) ∧
    ∀ domain data : List UInt8,
      OneColon (ofBytes domain data).text ∧ separator (ofBytes domain data).text = 6 := by
  refine ⟨?_, exists_parse?_iff, fun h ↦ parse?_eq_some_iff_bytes, ?_, ?_, ?_⟩
  · rw [exists_parse?_iff, or_iff_left_iff_imp]
    constructor
    · intro hone htwo
      by_contra hhead
      exact absurd (hone ⟨htwo, hhead⟩).1 (Nat.ne_of_gt htwo)
    · rintro hfront ⟨htwo, hhead⟩
      exact absurd (hfront htwo) hhead
  · intro h hparse
    exact (parse?_eq_some_iff.mp hparse).2
  · intro h hobtained
    have hwell := hobtained.wellFormed
    exact ⟨rfl, hwell.algorithm_ne, hwell.hexDigest_ne, hwell.parse?_text,
      hwell.oneColon_text_iff⟩
  · intro domain data
    have hwell := wellFormed_ofBytes domain data
    exact ⟨hwell.oneColon_text_iff.mpr (colon_notMem_hexDigest_ofBytes domain data),
      separator_text hwell.notMem⟩

/-- Characters of two bytes around the colon do not get in the way, and a second colon goes to the
digest. -/
theorem accented_reads_one_colon_iff :
    parse? "é:ü:" = some ⟨"é", "ü:"⟩ ∧ Obtained ⟨"é", "ü:"⟩ ∧
      parse? (text ⟨"é", "ü:"⟩) = some ⟨"é", "ü:"⟩ ∧
      ¬ OneColon (text ⟨"é", "ü:"⟩) ∧
      (∃ h, parse? "é:ü" = some h) ∧ OneColon "é:ü" := by
  obtain ⟨-, -, hcut, -, hinvariant, -⟩ := reads_one_colon_iff "é:ü:"
  have hparse : parse? "é:ü:" = some ⟨"é", "ü:"⟩ := (hcut _).mpr (by decide)
  have hobtained := Obtained.parsed hparse
  obtain ⟨-, -, -, hread, hone⟩ := hinvariant _ hobtained
  have hsingle : OneColon "é:ü" := by decide
  exact ⟨hparse, hobtained, hread, fun h ↦ hone.mp h (by decide),
    (reads_one_colon_iff "é:ü").2.1.mpr (.inl hsingle), hsingle⟩

/-- The text has two colons, and is read. -/
theorem two_colons_read :
    ¬ OneColon "a:b:c" ∧ parse? "a:b:c" = some ⟨"a", "b:c"⟩ ∧
    ¬ OneColon (text ⟨"a", "b:c"⟩) := by
  decide

end ContentHash

end LayeredPlanning
