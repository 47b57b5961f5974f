import LayeredPlanning.Proofs.Plans.Labels

/-!
# The encoding of action sequences

A fingerprint is the digest of an encoding, in which the actions follow each other without a mark
between them: four bytes of identifier, four bytes with the length of the name, and the name.  As
long as each length fits its four bytes (`Action.Fits`), the encoding can be read back from the
left, so it determines the labels: `Plan.sequenceBytes_eq_iff`.  For longer names it does not
(`Plan.sequenceBytes_of_overlong`).

The digest in hexadecimal determines the digest (`ContentHash.ofBytes_eq_iff`).  Whether the digest
determines the encoding is a question about the hash function, and is not answered here.
-/

namespace LayeredPlanning

/-! ## Texts -/

theorem ContentHash.textBytes_injective {s t : String} (h : textBytes s = textBytes t) : s = t := by
  apply String.toByteArray_inj.mp
  exact ByteArray.ext (Array.toList_inj.mp h)

theorem ContentHash.textBytes_append (s t : String) :
    textBytes (s ++ t) = textBytes s ++ textBytes t := by
  rw [textBytes, String.toUTF8_eq_toByteArray, String.toByteArray_append, ByteArray.data_append,
    Array.toList_append]
  rfl

theorem digitChar_injective {m n : Nat} (hm : m < 16) (hn : n < 16)
    (h : Nat.digitChar m = Nat.digitChar n) : m = n := by
  have hall : ∀ m < 16, ∀ n < 16, Nat.digitChar m = Nat.digitChar n → m = n := by decide
  exact hall m hm n hn h

theorem hexByte_injective {b c : UInt8} (h : hexByte b = hexByte c) : b = c := by
  obtain ⟨hhigh, hlow⟩ := List.cons.inj h
  have hb := b.toNat_lt
  have hc := c.toNat_lt
  have hhigh := digitChar_injective (by omega) (by omega) hhigh
  have hlow := digitChar_injective (by omega) (by omega) (List.cons.inj hlow).1
  apply UInt8.toNat_inj.mp
  omega

/-- Bytes are read back from their hexadecimal digits. -/
theorem flatMap_hexByte_injective {bs cs : List UInt8}
    (h : bs.flatMap hexByte = cs.flatMap hexByte) : bs = cs := by
  induction bs generalizing cs with
  | nil =>
    cases cs with
    | nil => rfl
    | cons c cs => cases h
  | cons b bs ih =>
    cases cs with
    | nil => cases h
    | cons c cs =>
      rw [List.flatMap_cons, List.flatMap_cons] at h
      obtain ⟨hbyte, hbytes⟩ := List.append_inj h rfl
      rw [hexByte_injective hbyte, ih hbytes]

/-- Hashes of data are equal if the digests are. -/
theorem ContentHash.ofBytes_eq_iff {domain data domain' data' : List UInt8} :
    (ofBytes domain data).hexDigest = (ofBytes domain' data').hexDigest ↔
      Sha256.hash (domain ++ data) = Sha256.hash (domain' ++ data') := by
  constructor
  · exact fun h ↦ flatMap_hexByte_injective (String.ofList_injective h)
  · intro h
    rw [ofBytes, ofBytes, h]

theorem ContentHash.ofBytes_inj {domain data domain' data' : List UInt8} :
    ofBytes domain data = ofBytes domain' data' ↔
      Sha256.hash (domain ++ data) = Sha256.hash (domain' ++ data') := by
  rw [← ofBytes_eq_iff]
  exact ⟨congrArg hexDigest, ContentHash.ext rfl⟩

/-! ## Actions -/

/-- The length of the name fits four bytes. -/
def Action.Fits (a : Action) : Prop := (ContentHash.textBytes a.name).length < 4294967296

instance Action.instDecidableFits (a : Action) : Decidable a.Fits :=
  inferInstanceAs (Decidable (_ < _))

namespace Plan

theorem wordBytes_injective {v w : UInt32} (h : wordBytes v = wordBytes w) : v = w := by
  obtain ⟨h₀, h⟩ := List.cons.inj h
  obtain ⟨h₁, h⟩ := List.cons.inj h
  obtain ⟨h₂, h⟩ := List.cons.inj h
  have h₃ := (List.cons.inj h).1
  have hv := v.toNat_lt
  have hw := w.toNat_lt
  rw [← UInt8.toNat_inj, UInt32.toNat_toUInt8, UInt32.toNat_toUInt8] at h₀ h₁ h₂ h₃
  rw [UInt32.toNat_shiftRight, UInt32.toNat_shiftRight, Nat.shiftRight_eq_div_pow,
    Nat.shiftRight_eq_div_pow] at h₁ h₂ h₃
  change v.toNat / 256 % 256 = w.toNat / 256 % 256 at h₁
  change v.toNat / 65536 % 256 = w.toNat / 65536 % 256 at h₂
  change v.toNat / 16777216 % 256 = w.toNat / 16777216 % 256 at h₃
  apply UInt32.toNat_inj.mp
  omega

/-- A length that fits is read back from its word. -/
theorem lengthWord_injective {m n : Nat} (hm : m < 4294967296) (hn : n < 4294967296)
    (h : UInt32.ofNat (Nat.min m 4294967295) = UInt32.ofNat (Nat.min n 4294967295)) : m = n := by
  have hmin : ∀ {k : Nat}, k < 4294967296 → Nat.min k 4294967295 = k :=
    fun hk ↦ Nat.min_eq_left (by omega)
  rw [hmin hm, hmin hn, ← UInt32.toNat_inj, UInt32.toNat_ofNat', UInt32.toNat_ofNat',
    Nat.mod_eq_of_lt hm, Nat.mod_eq_of_lt hn] at h
  exact h

/-- Two actions at the beginning of the same bytes have the same label, and the same bytes
follow. -/
theorem actionBytes_append_inj {a b : Action} (ha : a.Fits) (hb : b.Fits) {as bs : List UInt8}
    (h : actionBytes a ++ as = actionBytes b ++ bs) : a.label = b.label ∧ as = bs := by
  rw [actionBytes, actionBytes, List.append_assoc, List.append_assoc, List.append_assoc,
    List.append_assoc] at h
  obtain ⟨hid, h⟩ := List.append_inj h rfl
  obtain ⟨hlength, h⟩ := List.append_inj h rfl
  obtain ⟨hname, hrest⟩ :=
    List.append_inj h (lengthWord_injective ha hb (wordBytes_injective hlength))
  exact ⟨Prod.ext (wordBytes_injective hid) (ContentHash.textBytes_injective hname), hrest⟩

theorem actionBytes_ne_nil (a : Action) : actionBytes a ≠ [] := nofun

/-- The labels are read from the left, one action after the other: what begins with the encoding of
a sequence, begins with its labels. -/
theorem labels_prefix_of_sequenceBytes {as bs : List Action} (has : ∀ a ∈ as, a.Fits)
    (hbs : ∀ b ∈ bs, b.Fits) (h : sequenceBytes as <+: sequenceBytes bs) :
    as.map Action.label <+: bs.map Action.label := by
  induction as generalizing bs with
  | nil => exact List.nil_prefix
  | cons a as ih =>
    obtain ⟨rest, h⟩ := h
    rw [sequenceBytes, List.flatMap_cons, List.append_assoc] at h
    cases bs with
    | nil => exact absurd (List.append_eq_nil_iff.mp h).1 (actionBytes_ne_nil a)
    | cons b bs =>
      rw [sequenceBytes, List.flatMap_cons] at h
      obtain ⟨ha, has⟩ := List.forall_mem_cons.mp has
      obtain ⟨hb, hbs⟩ := List.forall_mem_cons.mp hbs
      obtain ⟨hlabel, hrest⟩ := actionBytes_append_inj ha hb h
      rw [List.map_cons, List.map_cons, hlabel]
      exact List.cons_prefix_cons.mpr ⟨rfl, ih has hbs ⟨rest, hrest⟩⟩

theorem labels_of_sequenceBytes {as bs : List Action} (has : ∀ a ∈ as, a.Fits)
    (hbs : ∀ b ∈ bs, b.Fits) (h : sequenceBytes as = sequenceBytes bs) :
    as.map Action.label = bs.map Action.label := by
  have hle := labels_prefix_of_sequenceBytes has hbs (h ▸ List.prefix_rfl)
  have hge := labels_prefix_of_sequenceBytes hbs has (h ▸ List.prefix_rfl)
  exact hle.eq_of_length_le hge.length_le

theorem sequenceBytes_eq_iff {as bs : List Action} (has : ∀ a ∈ as, a.Fits)
    (hbs : ∀ b ∈ bs, b.Fits) :
    sequenceBytes as = sequenceBytes bs ↔ as.map Action.label = bs.map Action.label :=
  ⟨labels_of_sequenceBytes has hbs, sequenceBytes_of_labels⟩

/-- A name whose length is beyond four bytes ends where it pleases the reader: eight zero bytes at
its end may as well be an action without a name. -/
theorem sequenceBytes_of_overlong {a b c : Action}
    (hlength : 4294967295 ≤ (ContentHash.textBytes a.name).length) (hid : b.id = a.id)
    (hname : b.name = a.name ++ "\x00\x00\x00\x00\x00\x00\x00\x00") (hc : c.label = (0, "")) :
    sequenceBytes [b] = sequenceBytes [a, c] := by
  have htext := congrArg ContentHash.textBytes hname
  rw [ContentHash.textBytes_append] at htext
  have hmin : ∀ {k : Nat}, 4294967295 ≤ k → Nat.min k 4294967295 = 4294967295 :=
    fun hk ↦ Nat.min_eq_right hk
  have hbytes : actionBytes b =
      actionBytes a ++ ContentHash.textBytes "\x00\x00\x00\x00\x00\x00\x00\x00" := by
    rw [actionBytes, actionBytes, hid, htext, List.length_append, hmin hlength, hmin (by omega)]
    exact (List.append_assoc _ _ _).symm
  rw [sequenceBytes, sequenceBytes, List.flatMap_cons, List.flatMap_cons, List.flatMap_cons,
    hbytes, actionBytes_of_label (b := ⟨0, "", 0, Int.le_refl 0⟩) hc, List.append_assoc]
  rfl

end Plan

end LayeredPlanning
