import Fingerprint.Function.Selected
import Fingerprint.Proofs.Runs.MurmurHash
import Fingerprint.Proofs.Values.Image

/-!
# Shortcuts take what the body takes

Each function has formulas of its own for the empty input and for words of one, two, four and eight
bytes. They are what its body comes to when it is run over the words cut from the value.
-/

namespace Fingerprint
open HashFunction Plan
set_option autoImplicit false

/-- The shortcuts of a function are its body, run over single words. -/
structure Shortcuts {φ δ : Type} [HashFunction φ δ] (f : φ) : Prop where
  void : HashFunction.void f = (body f 0).eval
  ofU8 : ∀ v, HashFunction.ofU8 f v = (body f 1).run (Unsigned.u8 v).wordAt
  ofU16 : ∀ v, HashFunction.ofU16 f v = (body f 2).run (Unsigned.u16 v).wordAt
  ofU32 : ∀ v, HashFunction.ofU32 f v = (body f 4).run (Unsigned.u32 v).wordAt
  ofU64 : ∀ v, HashFunction.ofU64 f v = (body f 8).run (Unsigned.u64 v).wordAt

/-! ## The City and Farm functions -/

namespace CityHash

theorem run_upTo32_u8 (v : UInt8) : (upTo32 1).run (Unsigned.u8 v).wordAt = shortU8 v := by
  simp [upTo32, upTo16, shortU8]

theorem run_upTo32_u16 (v : UInt16) : (upTo32 2).run (Unsigned.u16 v).wordAt = shortU16 v := by
  simp [upTo32, upTo16, shortU16]

theorem run_upTo32_u32 (v : UInt32) : (upTo32 4).run (Unsigned.u32 v).wordAt = shortU32 v := by
  simp [upTo32, upTo16, shortU32]

theorem run_upTo32_u64 (v : UInt64) : (upTo32 8).run (Unsigned.u64 v).wordAt = shortU64 v := by
  simp [upTo32, upTo16, shortU64]

/-- A function that binds its seeds into the body up to 32 bytes, and into the single words. -/
theorem shortcuts_of_upTo32 {φ : Type} [HashFunction φ UInt64] {f : φ} (seeds : Seeds)
    (hbody : ∀ len, len ≤ 32 → HashFunction.body f len = seeds.finish <$> upTo32 len)
    (hvoid : HashFunction.void f = seeds.finish k2)
    (hU8 : ∀ v, HashFunction.ofU8 f v = seeds.finish (shortU8 v))
    (hU16 : ∀ v, HashFunction.ofU16 f v = seeds.finish (shortU16 v))
    (hU32 : ∀ v, HashFunction.ofU32 f v = seeds.finish (shortU32 v))
    (hU64 : ∀ v, HashFunction.ofU64 f v = seeds.finish (shortU64 v)) : Shortcuts f where
  void := by
    rw [hvoid, hbody 0 (by decide), eval, run_map]
    rfl
  ofU8 v := by rw [hU8, hbody 1 (by decide), run_map, run_upTo32_u8]
  ofU16 v := by rw [hU16, hbody 2 (by decide), run_map, run_upTo32_u16]
  ofU32 v := by rw [hU32, hbody 4 (by decide), run_map, run_upTo32_u32]
  ofU64 v := by rw [hU64, hbody 8 (by decide), run_map, run_upTo32_u64]

theorem body_of_le {len : UInt64} (h : len ≤ 32) : body len = upTo32 len := if_pos h

theorem shortcuts (f : CityHash) : Shortcuts f := by
  apply shortcuts_of_upTo32 f.seeds
  · intro len h
    exact congrArg (f.seeds.finish <$> ·) (body_of_le h)
  all_goals intros; rfl

end CityHash

namespace FarmHash

theorem Na.body_of_le {len : UInt64} (h : len ≤ 32) : Na.body len = CityHash.upTo32 len := if_pos h

theorem Na.shortcuts (f : Na) : Shortcuts f := by
  apply CityHash.shortcuts_of_upTo32 f.seeds
  · intro len h
    exact congrArg (f.seeds.finish <$> ·) (Na.body_of_le h)
  all_goals intros; rfl

theorem Uo.body_of_le (seeds : Seeds) {len : UInt64} (h : len ≤ 64) :
    Uo.body seeds len = seeds.finish <$> Na.body len := if_pos h

theorem Uo.shortcuts (f : Uo) : Shortcuts f := by
  apply CityHash.shortcuts_of_upTo32 f.seeds
  · intro len h
    have h64 : len ≤ 64 := UInt64.le_trans h (by decide)
    change Uo.body f.seeds len = _
    rw [Uo.body_of_le f.seeds h64, Na.body_of_le h]
  all_goals intros; rfl

end FarmHash

/-! ## MurmurHash -/

namespace MurmurHash
open Bytes

theorem run_partialWord_wordAt (v : Unsigned) {n : UInt64} (hn : n.toNat = v.width) (h8 : n ≤ 8) :
    (partialWord 0 n).run v.wordAt = UInt64.ofNat v.toNat := by
  have hwidth : v.width ≤ 8 := hn ▸ UInt64.le_iff_toNat_le.1 h8
  have hslice : slice (fun i => (v.wordAt .one (0 + UInt64.ofNat i)).toUInt8) 0 v.width =
      digits v.width v.toNat := by
    refine (slice_congr ?_).trans (slice_digits v.toNat 0 v.width)
    intro i _ hi
    have hindex : (0 + UInt64.ofNat i).toNat = i := by
      rw [UInt64.zero_add, UInt64.toNat_ofNat']
      omega
    rw [Unsigned.toUInt8_wordAt, Unsigned.byteAt, hindex]
  rw [run_partialWord _ _ (hn ▸ hwidth), hn, hslice]
  exact congrArg UInt64.ofNat v.value_bytes

/-- The formula for one word is the body over the bytes of that word. -/
theorem ofWord_eq_run_body (seed : UInt64) (v : Unsigned) {k len : UInt64} (hk : k.toNat = v.toNat)
    (hlen : len.toNat = v.width) (h8 : len ≤ 8) :
    ofWord seed k len = (body seed len).run v.wordAt := by
  have hwidth : 0 < v.width := by cases v <;> exact Nat.succ_pos _
  have hpos : 0 < len := UInt64.lt_iff_toNat_lt.2 (hlen ▸ hwidth)
  rw [run_body_of_le_eight _ _ hpos h8, run_partialWord_wordAt v hlen h8, Units.eq_ofNat hk]

theorem shortcuts (f : MurmurHash) : Shortcuts f where
  void := by
    simp [HashFunction.void, HashFunction.body, body, eval, run_range, tail, takeSecond, takeFirst]
  ofU8 v := ofWord_eq_run_body f.seed (.u8 v) rfl rfl (by decide)
  ofU16 v := ofWord_eq_run_body f.seed (.u16 v) rfl rfl (by decide)
  ofU32 v := ofWord_eq_run_body f.seed (.u32 v) rfl rfl (by decide)
  ofU64 v := ofWord_eq_run_body f.seed (.u64 v) rfl rfl (by decide)

end MurmurHash

/-! ## xxHash and XXH3 -/

namespace XXHash

theorem shortcuts (f : XXHash) : Shortcuts f where
  void := by
    simp [HashFunction.void, HashFunction.body, body, eval, stripes, rest, Stride.word,
      run_strides_of_not_le, run_range]
  ofU8 v := by
    simp [HashFunction.ofU8, HashFunction.body, body, stripes, rest, Stride.word,
      run_strides_of_not_le, run_range]
  ofU16 v := by
    simp [HashFunction.ofU16, HashFunction.body, body, stripes, rest, Stride.word,
      run_strides_of_not_le, run_range]
  ofU32 v := by
    simp [HashFunction.ofU32, HashFunction.body, body, stripes, rest, Stride.word,
      run_strides_of_not_le, run_range]
  ofU64 v := by
    simp [HashFunction.ofU64, HashFunction.body, body, stripes, rest, Stride.word,
      run_strides_of_le, run_strides_of_not_le, run_range]

end XXHash

namespace XXH3

theorem Narrow.shortcuts (f : Narrow) : Shortcuts f where
  void := by simp [HashFunction.void, HashFunction.body, body, upTo16]
  ofU8 v := by simp [HashFunction.ofU8, HashFunction.body, body, upTo16, eval, of1to3, halfKey]
  ofU16 v := by simp [HashFunction.ofU16, HashFunction.body, body, upTo16, eval, of1to3, halfKey]
  ofU32 v := by simp [HashFunction.ofU32, HashFunction.body, body, upTo16, eval, of4to8, key]
  ofU64 v := by simp [HashFunction.ofU64, HashFunction.body, body, upTo16, eval, of4to8, key]

theorem Wide.shortcuts (f : Wide) : Shortcuts f where
  void := by simp [HashFunction.void, HashFunction.body, body, upTo16]
  ofU8 v := by simp [HashFunction.ofU8, HashFunction.body, body, upTo16, eval, of1to3, halfKey]
  ofU16 v := by simp [HashFunction.ofU16, HashFunction.body, body, upTo16, eval, of1to3, halfKey]
  ofU32 v := by simp [HashFunction.ofU32, HashFunction.body, body, upTo16, eval, of4to8, key]
  ofU64 v := by simp [HashFunction.ofU64, HashFunction.body, body, upTo16, eval, of4to8, key]

end XXH3

/-! ## MetroHash and wyhash -/

theorem MetroHash.shortcuts (f : MetroHash) : Shortcuts f where
  void := by simp [HashFunction.void, HashFunction.body, body, eval, stripes]
  ofU8 v := by simp [HashFunction.ofU8, HashFunction.body, body, stripes]
  ofU16 v := by simp [HashFunction.ofU16, HashFunction.body, body, stripes]
  ofU32 v := by simp [HashFunction.ofU32, HashFunction.body, body, stripes]
  ofU64 v := by simp [HashFunction.ofU64, HashFunction.body, body, stripes]

theorem low32_eq_toUInt32 (x : UInt64) : low32 x = x.toUInt32.toUInt64 := by
  apply UInt64.toNat.inj
  rw [low32, UInt64.toNat_and, UInt32.toNat_toUInt64, UInt64.toNat_toUInt32]
  exact Nat.and_two_pow_sub_one_eq_mod x.toNat 32

theorem shiftRight_eq_toUInt32 (x : UInt64) : x >>> 32 = (x >>> 32).toUInt32.toUInt64 := by
  have hx := x.toNat_lt
  apply UInt64.toNat.inj
  rw [UInt32.toNat_toUInt64, UInt64.toNat_toUInt32, UInt64.toNat_shiftRight]
  change x.toNat >>> 32 = x.toNat >>> 32 % 2 ^ 32
  rw [Nat.shiftRight_eq_div_pow]
  omega

theorem WyHash.shortcuts (f : WyHash) : Shortcuts f where
  void := by simp [HashFunction.void, HashFunction.body, body, eval, upTo32]
  ofU8 v := by simp [HashFunction.ofU8, HashFunction.body, body, upTo32, few]
  ofU16 v := by simp [HashFunction.ofU16, HashFunction.body, body, upTo32, few]
  ofU32 v := by simp [HashFunction.ofU32, HashFunction.body, body, upTo32, half]
  ofU64 v := by
    -- The body reads the two halves of the word one by one.
    change ofTwo f.seed (low32 v) (v >>> 32) 8 = _
    rw [low32_eq_toUInt32, shiftRight_eq_toUInt32]
    simp [HashFunction.body, body, upTo32, half]

end Fingerprint
