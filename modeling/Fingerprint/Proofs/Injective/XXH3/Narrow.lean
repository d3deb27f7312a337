import Fingerprint.XXH3.Narrow
import Fingerprint.Proofs.Injective.Rotations
import Fingerprint.Proofs.Injective.XXH3.Mix
import Fingerprint.Proofs.Injective.XXHash
import Fingerprint.Proofs.Values.Functions
import Mathlib.Data.FinEnum

/-!
# The 64-bit XXH3 tells inputs of up to eight bytes apart

A digest of 64 bits has room for eight bytes. Up to that size what is read of the input is keyed and
mixed by steps that can be undone, the strong mix among them, although it adds the length between its
shifts.
-/

namespace Fingerprint.XXH3
open HashFunction Plan
set_option autoImplicit false

/-- The length is small enough not to reach the bits that are shifted. -/
theorem strongAvalanche_injective {len : UInt64} (hlen : len.toNat < 2 ^ 32) :
    Function.Injective (strongAvalanche · len) := by
  have hfits : 2 ^ (64 - 35) + len.toNat ≤ 2 ^ 35 := by
    change 2 ^ 29 + len.toNat ≤ 2 ^ 35
    omega
  intro x y h
  have h := xorShift_injective (by decide) (by decide) h
  have h := mul_injective_of_odd (by decide) h
  have h := xor_shiftRight_add_injective (k := 35) (by decide) hfits h
  have h := mul_injective_of_odd (by decide) h
  exact xorRotations_injective 49 24 h

namespace Narrow

section
variable (f : Narrow) {a b : Array UInt8}

theorem body_eq_byRegime (seed : UInt64) {len : UInt64} (h : len ≤ 16) :
    body seed len =
      byRegime (of9to16 seed) (of4to8 seed) (of1to3 seed) (void seed) len := if_pos h

theorem ofBytes_eq_run_byRegime (h : a.size ≤ 16) :
    ofBytes f a = (byRegime (of9to16 f.seed) (of4to8 f.seed) (of1to3 f.seed) (void f.seed)
      (UInt64.ofNat a.size)).run (tableWord a) := by
  have h16 : UInt64.ofNat a.size ≤ 16 := by
    rw [UInt64.le_iff_toNat_le, toNat_size (by omega)]
    exact h
  rw [ofBytes_eq_run (eachAlgorithm_readsRange.xxh3 f)]
  change (body f.seed _).run _ = _
  rw [body_eq_byRegime f.seed h16]

theorem injOn_1to3 (ha : 0 < a.size) (ha' : a.size ≤ 3) (hb : 0 < b.size) (hb' : b.size ≤ 3)
    (h : ofBytes f a = ofBytes f b) : a = b := by
  rw [ofBytes_eq_run_byRegime f (by omega), ofBytes_eq_run_byRegime f (by omega),
    run_byRegime_1to3 _ _ _ _ ha ha', run_byRegime_1to3 _ _ _ _ hb hb'] at h
  have hpacked := (UInt64.xor_left_inj _).1 (XXHash.avalanche_injective h)
  exact packed_injOn ha ha' hb' (UInt32.toUInt64_inj.1 hpacked)

theorem injOn_4to8 (hlow : 4 ≤ a.size) (hhigh : a.size ≤ 8) (hsize : b.size = a.size)
    (h : ofBytes f a = ofBytes f b) : a = b := by
  have hlen : (UInt64.ofNat a.size).toNat < 2 ^ 32 := by
    rw [toNat_size (by omega)]
    omega
  rw [ofBytes_eq_run_byRegime f (by omega), ofBytes_eq_run_byRegime f (by omega),
    run_byRegime_4to8 _ _ _ _ hlow hhigh,
    run_byRegime_4to8 _ _ _ _ (hsize ▸ hlow) (hsize ▸ hhigh), hsize] at h
  have hjoined := (UInt64.xor_left_inj _).1 (strongAvalanche_injective hlen h)
  obtain ⟨hlast, hfirst⟩ := halves_inj hjoined
  have hplace : (UInt64.ofNat a.size - 4).toNat = a.size - 4 := toNat_size_sub (by omega) hlow
  exact eq_of_outer_halves hsize.symm hlow hhigh hplace hfirst hlast

/-- Every word is the digest of one word, and of no other. -/
theorem ofU64_bijective : Function.Bijective (HashFunction.ofU64 f) := by
  apply Finite.injective_iff_bijective.1
  intro v v' h
  have himages := (everywhere_digestsImages.xxh3 f).ofUnsigned
  have hsize : ∀ w : UInt64, (Unsigned.u64 w).bytes.toArray.size = 8 :=
    fun w => (Unsigned.u64 w).length_bytes
  have hbytes := injOn_4to8 f (by rw [hsize]; decide) (by rw [hsize])
    ((hsize v').trans (hsize v).symm) ((himages (.u64 v)).symm.trans (h.trans (himages (.u64 v'))))
  have hvalue := congrArg (fun bytes : Array UInt8 => Bytes.value bytes.toList) hbytes
  simp only [Unsigned.value_bytes] at hvalue
  exact UInt64.toNat.inj hvalue

/-- Of four to eight bytes, no two arrays of one size have the same digest, and words have each digest
once. Of one to three, no two arrays have the same digest, whatever their sizes. -/
theorem noCollisions_upTo8 :
    (∀ a b : Array UInt8, 4 ≤ a.size → a.size ≤ 8 → b.size = a.size → a ≠ b →
      ofBytes f a ≠ ofBytes f b) ∧
    Function.Bijective (HashFunction.ofU64 f) ∧
    ∀ a b : Array UInt8, 1 ≤ a.size → a.size ≤ 3 → 1 ≤ b.size → b.size ≤ 3 → a ≠ b →
      ofBytes f a ≠ ofBytes f b := by
  refine ⟨?_, ofU64_bijective f, ?_⟩
  · intro a b hlow hhigh hsize hne h
    exact hne (injOn_4to8 f hlow hhigh hsize h)
  · intro a b ha ha' hb hb' hne h
    exact hne (injOn_1to3 f ha ha' hb hb' h)

/-- Five bytes and five others, a digest and its word, and one byte with and without a zero. -/
theorem noCollisions_ofSeed_seven :
    ofBytes (ofSeed 7) #[1, 2, 3, 4, 5] ≠ ofBytes (ofSeed 7) #[1, 2, 3, 4, 6] ∧
    (∃ v : UInt64, HashFunction.ofU64 (ofSeed 7) v = 0) ∧
    ofBytes (ofSeed 7) #[1] ≠ ofBytes (ofSeed 7) #[1, 0] := by
  obtain ⟨hfive, hword, hthree⟩ := noCollisions_upTo8 (ofSeed 7)
  refine ⟨hfive _ _ (by decide) (by decide) rfl (by decide), hword.2 0, ?_⟩
  exact hthree _ _ (by decide) (by decide) (by decide) (by decide) (by decide)

end

end Narrow

end Fingerprint.XXH3
