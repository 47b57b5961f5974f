import LayeredPlanning.Proofs.Reconstruction.Queue
import LayeredPlanning.Samples.ScrambledKeys
import Mathlib.Data.Nat.ModEq
import Mathlib.Tactic.NormNum.Prime

/-!
# Scrambled keys that come twice

The keys of a scrambled order come from steps of a fixed stride.  Two steps lead to the same key
exactly if they are congruent modulo the number of keys divided by what it shares with the stride
(`Samples.scrambledKey_eq_iff`).  The stride is a prime, so the keys are distinct exactly if it does
not divide their number.  If it does, cuts at these keys are merged:
`Samples.entries_of_scrambledKeys`.
-/

namespace LayeredPlanning

namespace Samples

variable {n i j : Nat}

/-! ## Steps of a fixed stride -/

/-- The key to which the `i`th step leads. -/
def scrambledKey (n i : Nat) : Nat × Nat :=
  (i * 7919 % n / leastSide n 1, i * 7919 % n % leastSide n 1)

theorem scrambledKeys_eq_map (n : Nat) :
    scrambledKeys n = (List.range n).map (scrambledKey n) := rfl

theorem leastSide_pos (n : Nat) : 0 < leastSide n 1 := by
  have hle : ∀ s, s ≤ leastSide n s := by
    intro s
    fun_induction leastSide n s with
    | case1 s hs => exact Nat.le_refl s
    | case2 s hs ih => exact (Nat.le_succ s).trans ih
  exact hle 1

theorem prime_stride : Nat.Prime 7919 := by norm_num

theorem pos_div_gcd (hn : 0 < n) : 0 < n / n.gcd 7919 :=
  Nat.div_pos (Nat.gcd_le_left _ hn) (Nat.gcd_pos_of_pos_left _ hn)

/-- What the number of keys shares with the stride does not count. -/
theorem scrambledKey_eq_iff (hn : 0 < n) :
    scrambledKey n i = scrambledKey n j ↔ i ≡ j [MOD n / n.gcd 7919] := by
  -- Row and column determine the number.
  have hsplit : scrambledKey n i = scrambledKey n j ↔ i * 7919 ≡ j * 7919 [MOD n] := by
    rw [scrambledKey, scrambledKey, Prod.mk.injEq, Nat.ModEq]
    constructor
    · rintro ⟨hrow, hcolumn⟩
      rw [← Nat.div_add_mod (i * 7919 % n) (leastSide n 1), hrow, hcolumn, Nat.div_add_mod]
    · intro heq
      rw [heq]
      exact ⟨rfl, rfl⟩
  rw [hsplit]
  refine ⟨Nat.ModEq.cancel_right_div_gcd hn, fun h ↦ ?_⟩
  have hdvd : n ∣ n / n.gcd 7919 * 7919 := by
    obtain ⟨k, hk⟩ := Nat.gcd_dvd_right n 7919
    refine ⟨k, ?_⟩
    calc n / n.gcd 7919 * 7919 = n / n.gcd 7919 * (n.gcd 7919 * k) := by rw [← hk]
      _ = n * k := by rw [← Nat.mul_assoc, Nat.div_mul_cancel (Nat.gcd_dvd_left n 7919)]
  exact (h.mul_right' 7919).of_dvd hdvd

/-- There are as many keys as there are remainders. -/
theorem card_scrambledKeys (hn : 0 < n) : (scrambledKeys n).toFinset.card = n / n.gcd 7919 := by
  have hpos := pos_div_gcd hn
  have himage : (scrambledKeys n).toFinset =
      (Finset.range (n / n.gcd 7919)).image (scrambledKey n) := by
    ext key
    rw [List.mem_toFinset, scrambledKeys_eq_map, List.mem_map, Finset.mem_image]
    constructor
    · rintro ⟨i, -, rfl⟩
      refine ⟨i % (n / n.gcd 7919), Finset.mem_range.mpr (Nat.mod_lt _ hpos), ?_⟩
      exact (scrambledKey_eq_iff hn).mpr (Nat.mod_modEq _ _)
    · rintro ⟨i, hi, rfl⟩
      have hlt := (Finset.mem_range.mp hi).trans_le (Nat.div_le_self _ _)
      exact ⟨i, List.mem_range.mpr hlt, rfl⟩
  rw [himage, Finset.card_image_of_injOn, Finset.card_range]
  intro i hi j hj heq
  rw [Finset.mem_coe, Finset.mem_range] at hi hj
  exact ((scrambledKey_eq_iff hn).mp heq).eq_of_lt_of_lt hi hj

theorem card_scrambledKeys_eq (hn : 0 < n) :
    (scrambledKeys n).toFinset.card = if 7919 ∣ n then n / 7919 else n := by
  rw [card_scrambledKeys hn]
  split
  · next hdvd => rw [Nat.gcd_eq_right hdvd]
  · next hndvd =>
    have hcoprime : n.gcd 7919 = 1 := (prime_stride.coprime_iff_not_dvd.mpr hndvd).symm
    rw [hcoprime, Nat.div_one]

theorem length_scrambledKeys (n : Nat) : (scrambledKeys n).length = n := by
  rw [scrambledKeys_eq_map, List.length_map, List.length_range]

/-- The keys are distinct exactly if the stride does not divide their number. -/
theorem nodup_scrambledKeys_iff (hn : 0 < n) : (scrambledKeys n).Nodup ↔ ¬ 7919 ∣ n := by
  have hcard := Multiset.toFinset_card_eq_card_iff_nodup
    (m := (scrambledKeys n : Multiset (Nat × Nat)))
  rw [Multiset.coe_nodup, Multiset.coe_card, length_scrambledKeys] at hcard
  rw [← hcard]
  show (scrambledKeys n).toFinset.card = n ↔ _
  rw [card_scrambledKeys_eq hn]
  split
  · next hdvd => exact iff_of_false (Nat.div_lt_self hn (by decide)).ne (not_not.mpr hdvd)
  · next hndvd => exact iff_of_true rfl hndvd

/-- Row and column are not above the number that they stand for. -/
theorem add_lt_of_mem_scrambledKeys {key : Nat × Nat} (hkey : key ∈ scrambledKeys n) :
    key.1 + key.2 < n := by
  rw [scrambledKeys_eq_map, List.mem_map] at hkey
  obtain ⟨i, hi, rfl⟩ := hkey
  have hlt : i * 7919 % n < n := Nat.mod_lt _ (Nat.zero_lt_of_lt (List.mem_range.mp hi))
  have hsplit := Nat.div_add_mod (i * 7919 % n) (leastSide n 1)
  have hrow := Nat.le_mul_of_pos_left (i * 7919 % n / leastSide n 1) (leastSide_pos n)
  rw [scrambledKey]
  omega

/-! ## Cuts at scrambled keys -/

/-- The cuts have the costs that the keys say, in this order. -/
def At (cuts : List Cut) (keys : List (Nat × Nat)) : Prop :=
  cuts.map (fun cut ↦ (cut.g, cut.h)) = keys.map fun key ↦ ((key.1 : Int), (key.2 : Int))

/-- A cut with the same states at each of the keys. -/
def cutsAt (keys : List (Nat × Nat)) (states : StateSet) : List Cut :=
  keys.map fun key ↦ ⟨key.1, key.2, states⟩

theorem at_cutsAt (keys : List (Nat × Nat)) (states : StateSet) :
    At (cutsAt keys states) keys := by
  rw [At, cutsAt, List.map_map]
  rfl

namespace At

variable {cuts : List Cut} {keys : List (Nat × Nat)}

theorem exists_key (hat : At cuts keys) {cut : Cut} (hcut : cut ∈ cuts) :
    ∃ key ∈ keys, cut.g = key.1 ∧ cut.h = key.2 := by
  have hmem : (cut.g, cut.h) ∈ cuts.map fun cut ↦ (cut.g, cut.h) := List.mem_map_of_mem hcut
  rw [hat, List.mem_map] at hmem
  obtain ⟨key, hkey, heq⟩ := hmem
  obtain ⟨hg, hh⟩ := Prod.mk.inj heq
  exact ⟨key, hkey, hg.symm, hh.symm⟩

/-- The costs of the cuts are as many as the keys are. -/
theorem card_keys (hat : At cuts keys) : (cuts.map Cut.key).toFinset.card = keys.toFinset.card := by
  have hkeys : cuts.map Cut.key = keys.map fun key ↦ CutKey.ofCosts key.1 key.2 := by
    have hcosts := congrArg (List.map fun costs ↦ CutKey.ofCosts costs.1 costs.2) hat
    rwa [List.map_map, List.map_map] at hcosts
  have hinjective : Function.Injective fun key : Nat × Nat ↦ CutKey.ofCosts key.1 key.2 := by
    intro a b heq
    obtain ⟨-, hg, hh⟩ := CutKey.mk.inj heq
    exact Prod.ext (Int.ofNat.inj hg) (Int.ofNat.inj hh)
  rw [hkeys, List.card_toFinset, List.dedup_map_of_injective hinjective, List.length_map,
    List.card_toFinset]

/-- The costs of the cuts are costs, and so are their sums. -/
theorem valid (hat : At cuts (scrambledKeys n)) (hfits : ((n : Int) - 1) * 7919 ≤ Cost.max) :
    ∀ cut ∈ cuts, cut.Valid := by
  intro cut hcut
  obtain ⟨key, hkey, hg, hh⟩ := hat.exists_key hcut
  have hlt := add_lt_of_mem_scrambledKeys hkey
  unfold Cost.max at hfits
  rw [Cut.Valid, hg, hh, Cost.max]
  omega

/-- Cuts at keys that come twice are merged. -/
theorem length_cuts {σ : Type} [PlanStore σ] (hat : At cuts (scrambledKeys n)) (hn : 0 < n)
    (hfits : ((n : Int) - 1) * 7919 ≤ Cost.max) (store : σ) (singleSolution : Bool) :
    ((CutRegistry.ofStore store singleSolution).after (cuts.map .register)).cuts.length =
      if 7919 ∣ n then n / 7919 else n := by
  rw [CutRegistry.length_cuts_registers store singleSolution (hat.valid hfits), hat.card_keys,
    card_scrambledKeys_eq hn]

end At

/-- As many keys are made as are asked for, and they are distinct unless the stride divides their
number.  Cuts at these keys are registered without failure, and leave an entry each, unless the
stride divides their number: then as many as the quotient. -/
theorem entries_of_scrambledKeys (n : Nat) (hn : 1 ≤ n)
    (hfits : ((n : Int) - 1) * 7919 ≤ Cost.max) :
    (scrambledKeys n).length = n ∧ ((scrambledKeys n).Nodup ↔ ¬ 7919 ∣ n) ∧
    ∀ (σ : Type) [PlanStore σ] (store : σ) (singleSolution : Bool) (cuts : List Cut),
      At cuts (scrambledKeys n) →
        (∀ cut ∈ cuts, cut.Valid) ∧
        (CutRegistry.ofStore store singleSolution).Succeeds (cuts.map .register) ∧
        ((CutRegistry.ofStore store singleSolution).after (cuts.map .register)).cuts.length =
          if 7919 ∣ n then n / 7919 else n := by
  refine ⟨length_scrambledKeys n, nodup_scrambledKeys_iff hn, ?_⟩
  intro σ _ store singleSolution cuts hat
  have hvalid := hat.valid hfits
  exact ⟨hvalid, CutRegistry.succeeds_registers hvalid,
    hat.length_cuts hn hfits store singleSolution⟩

/-- Sixteen keys are distinct, and of twice as many keys as the stride is long there are two. -/
theorem sixteen_entries_of_scrambledKeys :
    ∃ db, PlanDatabase.ofSelection? (.topK 1) false = .ok db ∧ (scrambledKeys 16).Nodup ∧
      ((CutRegistry.ofStore db false).after
        ((cutsAt (scrambledKeys 16) ∅).map .register)).cuts.length = 16 ∧
      ((CutRegistry.ofStore db false).after
        ((cutsAt (scrambledKeys 15838) ∅).map .register)).cuts.length = 2 := by
  have hsixteen := entries_of_scrambledKeys 16 (by decide) (by decide)
  have htwice := entries_of_scrambledKeys 15838 (by decide) (by decide)
  refine ⟨_, rfl, hsixteen.2.1.mpr (by decide), ?_, ?_⟩
  · exact (hsixteen.2.2 PlanDatabase _ false _ (at_cutsAt _ ∅)).2.2
  · exact (htwice.2.2 PlanDatabase _ false _ (at_cutsAt _ ∅)).2.2

/-- As many keys as the stride is long are all the same. -/
theorem stride_keys_coincide :
    1 ≤ 7919 ∧ ((7919 : Int) - 1) * 7919 ≤ Cost.max ∧ ¬ (scrambledKeys 7919).Nodup ∧
    ∃ db, PlanDatabase.ofSelection? (.topK 1) false = .ok db ∧
      ((CutRegistry.ofStore db false).after
        ((cutsAt (scrambledKeys 7919) ∅).map .register)).cuts.length = 1 := by
  have hfits : ((7919 : Int) - 1) * 7919 ≤ Cost.max := by decide
  refine ⟨by decide, hfits, ?_, _, rfl, ?_⟩
  · exact (nodup_scrambledKeys_iff (by decide)).not.mpr (not_not.mpr ⟨1, rfl⟩)
  · exact (at_cutsAt _ ∅).length_cuts (by decide) hfits _ false

end Samples

end LayeredPlanning
