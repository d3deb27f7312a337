import Fingerprint.Proofs.Heeds.Basic

/-!
# What wyhash mixes of up to eight bytes

The seed enters the digest of up to eight bytes only through one mixed word. The last product folds that
word with the length, and no seed enters it any more.
-/

namespace Fingerprint.WyHash
open Plan HashFunction
set_option autoImplicit false

/-- Up to eight bytes, mixed with the seed. -/
def mixed (seed len : UInt64) : Plan UInt64 :=
  if len < 4 then do return mix p0 p1 seed (← few 0 len) 0 ^^^ seed
  else do return mix p0 p1 seed (← half 0) (← half (← sub len 4)) ^^^ seed

def mixedOf (seed : UInt64) (a : Array UInt8) : UInt64 :=
  (mixed seed (UInt64.ofNat a.size)).run (tableWord a)

theorem xor_through (x a b : UInt64) : x ^^^ a ^^^ (a ^^^ b) = x ^^^ b := by
  rw [UInt64.xor_assoc, ← UInt64.xor_assoc a, UInt64.xor_self, UInt64.zero_xor]

section
variable {seed len : UInt64} {n : Nat}

theorem mixed_staysInside (hpos : 0 < len.toNat) (h : len.toNat ≤ 8) :
    (mixed seed len).StaysInside len := by
  simp [mixed, few, half, UInt64.lt_iff_toNat_lt, UInt64.le_iff_toNat_le, UInt64.toNat_sub]
  omega

theorem run_body_eq_finish (hpos : 0 < len.toNat) (h : len.toNat ≤ 8)
    (read : Width → UInt64 → UInt64) :
    (body seed len).run read = finish ((mixed seed len).run read) len := by
  simp only [body, upTo32, mixed, UInt64.le_iff_toNat_le, UInt64.lt_iff_toNat_lt,
    ← UInt64.toNat_inj, UInt64.reduceToNat]
  rw [if_pos (by omega), if_neg (by omega), if_pos h]
  split <;> rfl

/-- The digest of one to eight bytes is their mixed word, finished with the length. -/
theorem ofBytes_eq_finish {a : Array UInt8} (hpos : 0 < a.size) (h : a.size ≤ 8) :
    HashFunction.ofBytes (ofSeed seed) a = finish (mixedOf seed a) (UInt64.ofNat a.size) := by
  have hlen : (UInt64.ofNat a.size).toNat = a.size :=
    UInt64.toNat_ofNat_of_lt' (Nat.lt_of_le_of_lt h (by decide))
  rw [ofBytes_eq_run (eachAlgorithm_readsRange.wyHash (ofSeed seed))]
  exact run_body_eq_finish (by omega) (by omega) _

theorem mixedOf_arrayOf (hpos : 0 < n) (hn : n ≤ 8) (g : Nat → UInt8) :
    mixedOf seed (arrayOf n g) = (mixed seed (UInt64.ofNat n)).run (wordsOf g) := by
  have hlen : (UInt64.ofNat n).toNat = n := UInt64.toNat_ofNat_of_lt' (Nat.lt_of_le_of_lt hn (by decide))
  rw [mixedOf, size_arrayOf]
  apply run_congr (mixed_staysInside (by omega) (by omega))
  intro w p hin
  have hin : p.toNat + w.bytes ≤ (UInt64.ofNat n).toNat := hin
  exact tableWord_arrayOf (by omega)

end

end Fingerprint.WyHash
