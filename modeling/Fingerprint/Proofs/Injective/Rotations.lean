import Fingerprint.Word.Mix
import Mathlib.Algebra.Group.Nat.Defs

/-!
# Rotations of words

A rotation moves the bits of a word around, so it can be undone, and it goes along with the exclusive
or. A word is also given away by the exclusive or of itself and any two of its rotations: to take that
again and again doubles both rotations, until they turn the word all the way round.
-/

namespace Fingerprint
set_option autoImplicit false

theorem toNat_sixtyFour_sub (k : UInt64) : (64 - k).toNat % 64 = (64 - k.toNat % 64) % 64 := by
  have hk := k.toNat_lt
  have h64 : (64 : UInt64).toNat = 64 := rfl
  rw [UInt64.toNat_sub, h64]
  omega

/-- Where a rotation takes a bit from. -/
theorem getLsbD_rotateLeft (x k : UInt64) {i : Nat} (hi : i < 64) :
    (rotateLeft x k).toBitVec.getLsbD i =
      x.toBitVec.getLsbD ((i + (64 - k.toNat % 64)) % 64) := by
  have hleft : (x <<< k).toBitVec = x.toBitVec <<< (k.toNat % 64) := by
    rw [UInt64.toBitVec_shiftLeft]
    rfl
  have hright : (x >>> (64 - k)).toBitVec = x.toBitVec >>> ((64 - k.toNat % 64) % 64) := by
    rw [UInt64.toBitVec_shiftRight, ← toNat_sixtyFour_sub]
    rfl
  rw [rotateLeft, UInt64.toBitVec_or, BitVec.getLsbD_or, hleft, hright, BitVec.getLsbD_shiftLeft,
    BitVec.getLsbD_ushiftRight]
  by_cases hzero : k.toNat % 64 = 0
  · have hsource : (i + (64 - k.toNat % 64)) % 64 = i := by omega
    rw [hsource]
    simp [hzero, hi]
  by_cases hlow : i < k.toNat % 64
  · have hsource : (i + (64 - k.toNat % 64)) % 64 = i + (64 - k.toNat % 64) := by omega
    have hshifted : (64 - k.toNat % 64) % 64 + i = i + (64 - k.toNat % 64) := by omega
    simp [hlow, hsource, hshifted]
  · have hsource : (i + (64 - k.toNat % 64)) % 64 = i - k.toNat % 64 := by omega
    have hbeyond : x.toBitVec.getLsbD ((64 - k.toNat % 64) % 64 + i) = false :=
      BitVec.getLsbD_of_ge _ _ (by omega)
    simp [hlow, hi, hsource, hbeyond]

theorem eq_of_getLsbD_eq {x y : UInt64}
    (h : ∀ i < 64, x.toBitVec.getLsbD i = y.toBitVec.getLsbD i) : x = y :=
  UInt64.toBitVec_inj.1 (BitVec.eq_of_getLsbD_eq h)

theorem rotateLeft_xor (x y k : UInt64) :
    rotateLeft (x ^^^ y) k = rotateLeft x k ^^^ rotateLeft y k := by
  apply eq_of_getLsbD_eq
  intro i hi
  rw [UInt64.toBitVec_xor, BitVec.getLsbD_xor]
  simp only [getLsbD_rotateLeft _ _ hi, UInt64.toBitVec_xor, BitVec.getLsbD_xor]

theorem rotateLeft_rotateLeft (x j k : UInt64) :
    rotateLeft (rotateLeft x j) k = rotateLeft x (j + k) := by
  apply eq_of_getLsbD_eq
  intro i hi
  have hsource : ((i + (64 - k.toNat % 64)) % 64 + (64 - j.toNat % 64)) % 64 =
      (i + (64 - (j + k).toNat % 64)) % 64 := by
    rw [UInt64.toNat_add]
    omega
  rw [getLsbD_rotateLeft _ _ hi, getLsbD_rotateLeft _ _ (Nat.mod_lt _ (by decide)),
    getLsbD_rotateLeft _ _ hi, hsource]

theorem rotateLeft_zero (k : UInt64) : rotateLeft 0 k = 0 := by
  rw [rotateLeft, UInt64.zero_shiftLeft, UInt64.zero_shiftRight, UInt64.or_zero]

/-- All the way round. -/
theorem rotateLeft_whole (x : UInt64) {k : UInt64} (hk : k.toNat % 64 = 0) :
    rotateLeft x k = x := by
  apply eq_of_getLsbD_eq
  intro i hi
  have hsource : (i + (64 - k.toNat % 64)) % 64 = i := by omega
  rw [getLsbD_rotateLeft _ _ hi, hsource]

theorem rotateLeft_injective (k : UInt64) : Function.Injective (rotateLeft · k) := by
  intro x y h
  have hback := congrArg (rotateLeft · (0 - k)) h
  have hround : k + (0 - k) = 0 := by
    rw [UInt64.zero_sub]
    exact UInt64.add_right_neg k
  simp only [rotateLeft_rotateLeft, hround] at hback
  rwa [rotateLeft_whole x rfl, rotateLeft_whole y rfl] at hback

/-! ## A word and two rotations of it -/

def xorRotations (j k x : UInt64) : UInt64 := x ^^^ (rotateLeft x j ^^^ rotateLeft x k)

theorem xorRotations_twice (j k x : UInt64) :
    xorRotations j k (xorRotations j k x) = xorRotations (j + j) (k + k) x := by
  simp only [xorRotations, rotateLeft_xor, rotateLeft_rotateLeft, UInt64.add_comm k j]
  -- What was rotated by `j`, by `k` and by `j + k` occurs twice, and cancels.
  calc
    _ = x ^^^ (rotateLeft x (j + j) ^^^ rotateLeft x (k + k)) ^^^
          (rotateLeft x j ^^^ rotateLeft x j ^^^ (rotateLeft x k ^^^ rotateLeft x k) ^^^
            (rotateLeft x (j + k) ^^^ rotateLeft x (j + k))) := by ac_rfl
    _ = x ^^^ (rotateLeft x (j + j) ^^^ rotateLeft x (k + k)) := by
      simp only [UInt64.xor_self, UInt64.xor_zero]

theorem xorRotations_injective (j k : UInt64) : Function.Injective (xorRotations j k) := by
  intro x y h
  have hdoubled : ∀ n : Nat,
      xorRotations (UInt64.ofNat (2 ^ n) * j) (UInt64.ofNat (2 ^ n) * k) x =
        xorRotations (UInt64.ofNat (2 ^ n) * j) (UInt64.ofNat (2 ^ n) * k) y := by
    intro n
    induction n with
    | zero => simpa using h
    | succ n ih =>
      have htwice : ∀ i : UInt64, UInt64.ofNat (2 ^ (n + 1)) * i =
          UInt64.ofNat (2 ^ n) * i + UInt64.ofNat (2 ^ n) * i := by
        intro i
        rw [Nat.pow_succ, Nat.mul_two, UInt64.ofNat_add, UInt64.add_mul]
      rw [htwice, htwice, ← xorRotations_twice, ← xorRotations_twice, ih]
  have hwhole : ∀ i : UInt64, (UInt64.ofNat (2 ^ 6) * i).toNat % 64 = 0 := by
    intro i
    have h64 : (UInt64.ofNat (2 ^ 6)).toNat = 64 := rfl
    rw [UInt64.toNat_mul, h64]
    omega
  have hsix := hdoubled 6
  simp only [xorRotations, rotateLeft_whole _ (hwhole _)] at hsix
  simpa using hsix

end Fingerprint
