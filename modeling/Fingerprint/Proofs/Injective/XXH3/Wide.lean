import Fingerprint.XXH3.Wide
import Fingerprint.Proofs.Everywhere
import Fingerprint.Proofs.Injective.XXH3.Mix
import Fingerprint.Proofs.Injective.XXHash
import Mathlib.Data.FinEnum
import Mathlib.Data.Finite.Prod

/-!
# The 128-bit XXH3 tells short inputs apart

What the function reads of at most 16 bytes is all of them, and each step that follows can be undone
from the last. For four bytes and more it takes both words of the digest to do so; the low word is
enough for fewer.
-/

namespace Fingerprint.XXH3.Wide
open HashFunction Plan
set_option autoImplicit false

/-! ## The steps undone -/

theorem finish4to8_injective (len : UInt64) : Function.Injective (finish4to8 · len) := by
  intro x y h
  have hodd : (XXHash.prime1 + (len <<< 2)).toNat % 2 = 1 := by
    have hshift : (len <<< 2).toNat = len.toNat * 4 % 2 ^ 64 := by
      rw [UInt64.toNat_shiftLeft, Nat.shiftLeft_eq]
      rfl
    have hprime : XXHash.prime1.toNat % 2 = 1 := by decide
    rw [UInt64.toNat_add, hshift]
    omega
  -- The high word comes first: unmixed, it is what the low one was combined with.
  have hhigh := avalanche_injective (congrArg Digest128.high h)
  have hlow := xorShift_injective (by decide) (by decide) (congrArg Digest128.low h)
  have hlow := mul_injective_of_odd (by decide) hlow
  have hlow := xorShift_injective (by decide) (by decide) hlow
  rw [hhigh] at hlow
  exact mul_injective_of_odd hodd ((UInt64.xor_left_inj _).1 hlow)

/-- The last multiplication and the finishing mix, of two words at once. -/
theorem eq_of_finished_eq {low high low' high' : UInt64}
    (hlow : avalanche (low * XXHash.prime2) = avalanche (low' * XXHash.prime2))
    (hhigh : avalanche (highProduct low XXHash.prime2 + high * XXHash.prime2) =
      avalanche (highProduct low' XXHash.prime2 + high' * XXHash.prime2)) :
    low = low' ∧ high = high' := by
  have hlow := mul_injective_of_odd (by decide) (avalanche_injective hlow)
  have hhigh := avalanche_injective hhigh
  rw [hlow] at hhigh
  exact ⟨hlow, mul_injective_of_odd (by decide) ((UInt64.add_right_inj _).1 hhigh)⟩

theorem finish9to16_inj {flipLow flipHigh lastIndex first last first' last' : UInt64}
    (h : finish9to16 flipLow flipHigh first last lastIndex =
      finish9to16 flipLow flipHigh first' last' lastIndex) : first = first' ∧ last = last' := by
  obtain ⟨hlow, hhigh⟩ :=
    eq_of_finished_eq (congrArg Digest128.low h) (congrArg Digest128.high h)
  rw [hhigh] at hlow
  have hlow := (UInt64.add_left_inj _).1 ((UInt64.xor_left_inj _).1 hlow)
  have hkeyed : first ^^^ last ^^^ flipLow = first' ^^^ last' ^^^ flipLow :=
    mul_injective_of_odd (by decide) hlow
  rw [hkeyed] at hhigh
  -- The high products are equal now, so what was added to them is too.
  have hlast := add_low32_mul_injective (by decide) ((UInt64.add_right_inj _).1 hhigh)
  have hlast := (UInt64.xor_left_inj _).1 hlast
  rw [hlast] at hkeyed
  exact ⟨(UInt64.xor_left_inj _).1 ((UInt64.xor_left_inj _).1 hkeyed), hlast⟩

/-! ## What is read of short inputs -/

section
variable (f : Wide) {a b : Array UInt8}

theorem body_eq_byRegime (seed : UInt64) {len : UInt64} (h : len ≤ 16) :
    body seed len =
      byRegime (of9to16 seed) (of4to8 seed) (of1to3 seed) (void seed) len := by
  have hle : ∀ k : UInt64, 16 ≤ k → ¬ k < len := fun _ hk => UInt64.not_lt.2 (UInt64.le_trans h hk)
  rw [body, if_neg (hle 240 (by decide)), if_neg (hle 128 (by decide)), if_neg (hle 16 (by decide))]
  rfl

theorem ofBytes_eq_run_byRegime (h : a.size ≤ 16) :
    ofBytes f a = (byRegime (of9to16 f.seed) (of4to8 f.seed) (of1to3 f.seed) (void f.seed)
      (UInt64.ofNat a.size)).run (tableWord a) := by
  have h16 : UInt64.ofNat a.size ≤ 16 := by
    rw [UInt64.le_iff_toNat_le, toNat_size (by omega)]
    exact h
  rw [ofBytes_eq_run (eachAlgorithm_readsRange.xxh3Wide f)]
  change (body f.seed _).run _ = _
  rw [body_eq_byRegime f.seed h16]

theorem ofBytes_eq_run_of1to3 (hlow : 0 < a.size) (hhigh : a.size ≤ 3) :
    ofBytes f a = (of1to3 f.seed (a.getD 0 0) (a.getD (a.size / 2) 0) (a.getD (a.size - 1) 0)
      (UInt64.ofNat a.size)).run (tableWord a) := by
  rw [ofBytes_eq_run_byRegime f (by omega), run_byRegime_1to3 _ _ _ _ hlow hhigh]

theorem ofBytes_eq_run_of4to8 (hlow : 4 ≤ a.size) (hhigh : a.size ≤ 8) :
    ofBytes f a = (of4to8 f.seed (tableWord a .four 0).toUInt32
      (tableWord a .four (UInt64.ofNat a.size - 4)).toUInt32
      (UInt64.ofNat a.size)).run (tableWord a) := by
  rw [ofBytes_eq_run_byRegime f (by omega), run_byRegime_4to8 _ _ _ _ hlow hhigh]

theorem ofBytes_eq_run_of9to16 (hlow : 8 < a.size) (hhigh : a.size ≤ 16) :
    ofBytes f a = (of9to16 f.seed (tableWord a .eight 0)
      (tableWord a .eight (UInt64.ofNat a.size - 8))
      (UInt64.ofNat a.size)).run (tableWord a) := by
  rw [ofBytes_eq_run_byRegime f hhigh, run_byRegime_9to16 _ _ _ _ hlow hhigh]

/-! ## No collisions -/

theorem low_injOn (ha : 0 < a.size) (ha' : a.size ≤ 3) (hb : 0 < b.size) (hb' : b.size ≤ 3)
    (h : (ofBytes f a).low = (ofBytes f b).low) : a = b := by
  rw [ofBytes_eq_run_of1to3 f ha ha', ofBytes_eq_run_of1to3 f hb hb'] at h
  have hpacked := (UInt64.xor_left_inj _).1 (XXHash.avalanche_injective h)
  exact packed_injOn ha ha' hb' (UInt32.toUInt64_inj.1 hpacked)

theorem injOn_4to8 (hlow : 4 ≤ a.size) (hhigh : a.size ≤ 8) (hsize : b.size = a.size)
    (h : ofBytes f a = ofBytes f b) : a = b := by
  rw [ofBytes_eq_run_of4to8 f hlow hhigh,
    ofBytes_eq_run_of4to8 f (hsize ▸ hlow) (hsize ▸ hhigh), hsize] at h
  have hjoined := (UInt64.xor_left_inj _).1 (finish4to8_injective _ h)
  obtain ⟨hfirst, hlast⟩ := halves_inj hjoined
  have hplace : (UInt64.ofNat a.size - 4).toNat = a.size - 4 := toNat_size_sub (by omega) hlow
  exact eq_of_outer_halves hsize.symm hlow hhigh hplace hfirst hlast

theorem injOn_9to16 (hlow : 8 < a.size) (hhigh : a.size ≤ 16) (hsize : b.size = a.size)
    (h : ofBytes f a = ofBytes f b) : a = b := by
  rw [ofBytes_eq_run_of9to16 f hlow hhigh,
    ofBytes_eq_run_of9to16 f (hsize ▸ hlow) (hsize ▸ hhigh), hsize] at h
  obtain ⟨hfirst, hlast⟩ := finish9to16_inj h
  have hlow := Nat.le_of_lt hlow
  have hplace : (UInt64.ofNat a.size - 8).toNat = a.size - 8 := toNat_size_sub (by omega) hlow
  exact eq_of_outer_words (w := .eight) hsize.symm hlow hhigh hplace hfirst hlast

theorem ofBytes_injOn (hlow : 4 ≤ a.size) (hhigh : a.size ≤ 16) (hsize : b.size = a.size)
    (h : ofBytes f a = ofBytes f b) : a = b := by
  by_cases h8 : a.size ≤ 8
  · exact injOn_4to8 f hlow h8 hsize h
  · exact injOn_9to16 f (Nat.lt_of_not_le h8) hhigh hsize h

/-- Every digest is that of some 16 bytes, and of no other 16. The digest of the bytes of a pair of
words is again a pair of words, and there are only so many. -/
theorem ofBytes_bijective :
    Function.Bijective fun v : Vector UInt8 16 => ofBytes f v.toArray := by
  have hinj : Function.Injective fun v : Vector UInt8 16 => ofBytes f v.toArray := by
    intro v v' h
    have hsize : v'.toArray.size = v.toArray.size := v'.size_toArray.trans v.size_toArray.symm
    exact Vector.toArray_inj.1 (ofBytes_injOn f (by simp) (by simp) hsize h)
  have hpairs : Function.Injective fun d : Digest128 => pairBytes d.low d.high := by
    intro d d' h
    have hlow := congrArg (fun v => tableWord v.toArray .eight 0) h
    have hhigh := congrArg (fun v => tableWord v.toArray .eight 8) h
    simp only [tableWord_pairBytes_first, tableWord_pairBytes_last] at hlow hhigh
    exact congr (congrArg Digest128.mk hlow) hhigh
  refine ⟨hinj, fun d => ?_⟩
  have : Finite Digest128 :=
    .of_injective (fun d : Digest128 => (d.low, d.high)) (by rintro ⟨⟩ ⟨⟩ ⟨⟩; rfl)
  obtain ⟨d', hd'⟩ := Finite.surjective_of_injective (hinj.comp hpairs) d
  exact ⟨_, hd'⟩

/-- Of four to sixteen bytes, no two arrays of one size have the same digest, and 16 bytes have each
digest once. Of one to three, no two arrays have the same low word, whatever their sizes. -/
theorem noShortCollisions :
    (∀ a b : Array UInt8, 4 ≤ a.size → a.size ≤ 16 → b.size = a.size → a ≠ b →
      ofBytes f a ≠ ofBytes f b) ∧
    (Function.Bijective fun v : Vector UInt8 16 => ofBytes f v.toArray) ∧
    ∀ a b : Array UInt8, 1 ≤ a.size → a.size ≤ 3 → 1 ≤ b.size → b.size ≤ 3 → a ≠ b →
      (ofBytes f a).low ≠ (ofBytes f b).low := by
  refine ⟨?_, ofBytes_bijective f, ?_⟩
  · intro a b hlow hhigh hsize hne h
    exact hne (ofBytes_injOn f hlow hhigh hsize h)
  · intro a b ha ha' hb hb' hne h
    exact hne (low_injOn f ha ha' hb hb' h)

/-- Four bytes and four others, a digest and its 16 bytes, and one byte with and without a zero. -/
theorem noShortCollisions_ofSeed_seven :
    ofBytes (ofSeed 7) #[1, 2, 3, 4] ≠ ofBytes (ofSeed 7) #[1, 2, 3, 5] ∧
    (∃ v : Vector UInt8 16, ofBytes (ofSeed 7) v.toArray = ⟨0, 0⟩) ∧
    (ofBytes (ofSeed 7) #[1]).low ≠ (ofBytes (ofSeed 7) #[1, 0]).low := by
  obtain ⟨hfour, hsixteen, hthree⟩ := noShortCollisions (ofSeed 7)
  refine ⟨hfour _ _ (by decide) (by decide) rfl (by decide), hsixteen.2 ⟨0, 0⟩, ?_⟩
  exact hthree _ _ (by decide) (by decide) (by decide) (by decide) (by decide)

end

end Fingerprint.XXH3.Wide
