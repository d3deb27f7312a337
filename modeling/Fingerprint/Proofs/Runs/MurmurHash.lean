import Fingerprint.Proofs.Lawful.Units
import Fingerprint.Proofs.Reads.MurmurHash
import Fingerprint.Proofs.Runs.Loops

/-!
# What MurmurHash computes

Single bytes, read one by one, make the word that they are the bytes of. A range of at most eight
bytes is nothing but one such word.
-/

namespace Fingerprint.MurmurHash
open Bytes Plan
set_option autoImplicit false

variable (read : Width → UInt64 → UInt64)

/-- A loop that puts each byte above those before it makes the number of the bytes in a row. -/
theorem toNat_run_stack {round : UInt64 → UInt64 → Plan UInt64} (byte : Nat → UInt8)
    (hround : ∀ i word, (round (UInt64.ofNat i) word).run read =
      word ||| (byte i).toUInt64 <<< (8 * UInt64.ofNat i))
    {n i : Nat} {word : UInt64} (hi : i + n ≤ 8) (hword : word.toNat < 2 ^ (8 * i)) :
    ((rounds 1 round n (UInt64.ofNat i) word).run read).toNat =
      word.toNat + 2 ^ (8 * i) * value (slice byte i n) := by
  induction n generalizing i word with
  | zero => simp [slice, value]
  | succ n ih =>
    have h8 : (8 : UInt64).toNat = 8 := rfl
    have hbyte : (byte i).toUInt64.toNat < 2 ^ 8 := (byte i).toNat_lt
    have hshift : (8 * UInt64.ofNat i).toNat = 8 * i := by
      rw [UInt64.toNat_mul, UInt64.toNat_ofNat', h8]
      omega
    have hput := Units.toNat_or_shiftLeft hshift hword hbyte (by omega) (by omega)
    have hnext : UInt64.ofNat i + 1 = UInt64.ofNat (i + 1) := by
      rw [UInt64.ofNat_add]
      rfl
    rw [run_rounds_succ, hround, hnext,
      ih (by omega) (hput ▸ Units.add_mul_two_pow_lt hword hbyte), hput, slice, value,
      UInt8.toNat_toUInt64, Nat.mul_succ, Nat.pow_add]
    ring

theorem run_partialWord (p : UInt64) {n : UInt64} (hn : n.toNat ≤ 8) :
    (partialWord p n).run read = UInt64.ofNat
      (value (slice (fun i => (read .one (p + UInt64.ofNat i)).toUInt8) 0 n.toNat)) := by
  let byte (i : Nat) : UInt8 := (read .one (p + UInt64.ofNat i)).toUInt8
  rw [partialWord, run_demand, run_range]
  apply Units.eq_ofNat
  refine (toNat_run_stack read byte (i := 0) (fun _ _ => rfl) ?_ (by decide)).trans ?_
  · simpa using hn
  · simp [byte]

/-- A range of at most eight bytes is all rest. -/
theorem run_body_of_le_eight (seed : UInt64) {n : UInt64} (hpos : 0 < n) (hn : n ≤ 8) :
    (body seed n).run read = ofWord seed ((partialWord 0 n).run read) n := by
  have hblocks : n / 16 = 0 := by
    apply UInt64.toNat.inj
    rw [toNat_blocks]
    exact Nat.div_eq_of_lt (Nat.lt_of_le_of_lt (UInt64.le_iff_toNat_le.1 hn) (by decide))
  have hmin : min n 8 = n := by
    apply UInt64.toNat.inj
    rw [toNat_min_eight]
    exact Nat.min_eq_left (UInt64.le_iff_toNat_le.1 hn)
  simp [body, hblocks, run_range, start, tail, takeSecond, takeFirst, takePartial,
    UInt64.not_lt.2 hn, hpos, hmin, ofWord]

end Fingerprint.MurmurHash
