import Fingerprint.Proofs.Injective.Images
import Fingerprint.Proofs.Injective.Words
import Fingerprint.Proofs.Lawful.Units

/-!
# What XXH3 does to short inputs first, and last

The finishing mixes can be undone. Both functions read ranges of at most 16 bytes in the same way: one
to three bytes are packed into one word together with their count, four to eight are read as two
halves of one, and more as two words. None of that loses a byte.
-/

namespace Fingerprint
open Plan
set_option autoImplicit false

namespace XXH3

theorem avalanche_injective : Function.Injective avalanche := by
  intro x y h
  have h := xorShift_injective (by decide) (by decide) h
  have h := mul_injective_of_odd (by decide) h
  exact xorShift_injective (by decide) (by decide) h

/-! ## Regimes of length -/

section
variable {δ : Type} (of9to16 : UInt64 → UInt64 → UInt64 → Plan δ)
variable (of4to8 : UInt32 → UInt32 → UInt64 → Plan δ)
variable (of1to3 : UInt8 → UInt8 → UInt8 → UInt64 → Plan δ) (void : Plan δ)

/-- What both functions do with a range of at most 16 bytes, each with regimes of its own. -/
def byRegime (len : UInt64) : Plan δ :=
  if 8 < len then do of9to16 (← u64 0) (← u64 (← sub len 8)) len
  else if 4 ≤ len then do of4to8 (← u32 0) (← u32 (← sub len 4)) len
  else if 0 < len then do of1to3 (← u8 0) (← u8 (len >>> 1)) (← u8 (← sub len 1)) len
  else void

theorem byRegime_1to3 {len : UInt64} (hlow : 1 ≤ len) (hhigh : len ≤ 3) :
    byRegime of9to16 of4to8 of1to3 void len =
      (do of1to3 (← u8 0) (← u8 (len >>> 1)) (← u8 (← sub len 1)) len) := by
  have h8 : ¬ 8 < len := UInt64.not_lt.2 (UInt64.le_trans hhigh (by decide))
  have h4 : ¬ 4 ≤ len := UInt64.not_le.2 (UInt64.lt_of_le_of_lt hhigh (by decide))
  have h0 : 0 < len := UInt64.lt_of_lt_of_le (by decide) hlow
  rw [byRegime, if_neg h8, if_neg h4, if_pos h0]

variable {a : Array UInt8}

theorem run_byRegime_1to3 (hlow : 0 < a.size) (hhigh : a.size ≤ 3) :
    (byRegime of9to16 of4to8 of1to3 void (UInt64.ofNat a.size)).run (tableWord a) =
      (of1to3 (a.getD 0 0) (a.getD (a.size / 2) 0) (a.getD (a.size - 1) 0)
        (UInt64.ofNat a.size)).run (tableWord a) := by
  have hsize : a.size < 2 ^ 64 := by omega
  have hsome : 1 ≤ UInt64.ofNat a.size := (UInt64.le_ofNat_iff hsize).2 hlow
  have hfew : UInt64.ofNat a.size ≤ 3 := (UInt64.ofNat_le_iff hsize).2 hhigh
  have hlast : (UInt64.ofNat a.size - 1).toNat = a.size - 1 := toNat_size_sub hsize hlow
  rw [byRegime_1to3 _ _ _ _ hsome hfew]
  simp only [run_bind, run_u8, run_sub, toUInt8_tableWord, toNat_size_half hsize, hlast]
  rfl

theorem run_byRegime_4to8 (hlow : 4 ≤ a.size) (hhigh : a.size ≤ 8) :
    (byRegime of9to16 of4to8 of1to3 void (UInt64.ofNat a.size)).run (tableWord a) =
      (of4to8 (tableWord a .four 0).toUInt32
        (tableWord a .four (UInt64.ofNat a.size - 4)).toUInt32
        (UInt64.ofNat a.size)).run (tableWord a) := by
  have hsize : a.size < 2 ^ 64 := by omega
  have h8 : ¬ 8 < UInt64.ofNat a.size := mt (UInt64.lt_ofNat_iff hsize).1 (Nat.not_lt.2 hhigh)
  have h4 : 4 ≤ UInt64.ofNat a.size := (UInt64.le_ofNat_iff hsize).2 hlow
  rw [byRegime, if_neg h8, if_pos h4]
  simp only [run_bind, run_u32, run_sub]

theorem run_byRegime_9to16 (hlow : 8 < a.size) (hhigh : a.size ≤ 16) :
    (byRegime of9to16 of4to8 of1to3 void (UInt64.ofNat a.size)).run (tableWord a) =
      (of9to16 (tableWord a .eight 0) (tableWord a .eight (UInt64.ofNat a.size - 8))
        (UInt64.ofNat a.size)).run (tableWord a) := by
  have hsize : a.size < 2 ^ 64 := by omega
  have h8 : 8 < UInt64.ofNat a.size := (UInt64.lt_ofNat_iff hsize).2 hlow
  rw [byRegime, if_pos h8]
  simp only [run_bind, run_u64, run_sub]

end

/-! ## One to three bytes -/

theorem toNat_combine (first middle last : UInt8) {len : UInt64} (h : len.toNat < 256) :
    (combine first middle last len).toNat =
      middle.toNat * 16777216 + (first.toNat * 65536 + (len.toNat * 256 + last.toNat)) := by
  have hfirst : first.toNat < 256 := first.toNat_lt
  have hmiddle : middle.toNat < 256 := middle.toNat_lt
  have hlast : last.toNat < 256 := last.toNat_lt
  obtain ⟨hlow, hmost⟩ : len.toNat * 256 + last.toNat < 2 ^ 16 ∧
      first.toNat * 65536 + (len.toNat * 256 + last.toNat) < 2 ^ 24 := by
    constructor <;> omega
  have hshift : ∀ b k : UInt32, b.toNat < 256 → k.toNat ≤ 24 →
      (b <<< k).toNat = b.toNat <<< k.toNat := by
    intro b k hb hk
    rw [UInt32.toNat_shiftLeft, Nat.mod_eq_of_lt (hk.trans_lt (by decide)), Nat.shiftLeft_eq]
    apply Nat.mod_eq_of_lt
    calc
      b.toNat * 2 ^ k.toNat ≤ b.toNat * 2 ^ 24 :=
        Nat.mul_le_mul_left _ (Nat.pow_le_pow_right (by decide) hk)
      _ < 256 * 2 ^ 24 := Nat.mul_lt_mul_of_pos_right hb (by decide)
  have hlen : len.toUInt32.toNat = len.toNat := by
    rw [UInt64.toNat_toUInt32]
    exact Nat.mod_eq_of_lt (h.trans (by decide))
  have hor : (combine first middle last len).toNat =
      middle.toNat <<< 24 ||| (first.toNat <<< 16 ||| (len.toNat <<< 8 ||| last.toNat)) := by
    rw [combine, UInt32.toNat_or, UInt32.toNat_or, UInt32.toNat_or,
      hshift first.toUInt32 16 hfirst (by decide), hshift middle.toUInt32 24 hmiddle (by decide),
      hshift len.toUInt32 8 (hlen.symm ▸ h) (by decide), hlen, UInt8.toNat_toUInt32,
      UInt8.toNat_toUInt32, UInt8.toNat_toUInt32, Nat.or_comm (first.toNat <<< _),
      Nat.or_assoc, Nat.or_assoc, Nat.or_comm last.toNat]
    rfl
  rw [hor, ← Nat.shiftLeft_add_eq_or_of_lt last.toNat_lt, Nat.shiftLeft_eq len.toNat,
    ← Nat.shiftLeft_add_eq_or_of_lt hlow, Nat.shiftLeft_eq first.toNat,
    ← Nat.shiftLeft_add_eq_or_of_lt hmost, Nat.shiftLeft_eq]

/-- The packed word of an array of one to three bytes. -/
def packed (a : Array UInt8) : UInt32 :=
  combine (a.getD 0 0) (a.getD (a.size / 2) 0) (a.getD (a.size - 1) 0) (UInt64.ofNat a.size)

theorem packed_injOn {a b : Array UInt8} (hapos : 0 < a.size) (ha : a.size ≤ 3)
    (hb : b.size ≤ 3) (h : packed a = packed b) : a = b := by
  have hlen := toNat_size (a := a) (by omega)
  have hlen' := toNat_size (a := b) (by omega)
  have hnat := congrArg UInt32.toNat h
  rw [packed, packed, toNat_combine _ _ _ (by omega), toNat_combine _ _ _ (by omega), hlen,
    hlen'] at hnat
  have hbound : ∀ (c : Array UInt8) (i : Nat), (c.getD i 0).toNat < 256 :=
    fun c i => (c.getD i 0).toNat_lt
  have hfirst := hbound a 0
  have hfirst' := hbound b 0
  have hlast := hbound a (a.size - 1)
  have hsize : a.size = b.size := by
    have hlast' := hbound b (b.size - 1)
    omega
  rw [← hsize] at hnat
  have hlast' := hbound b (a.size - 1)
  have hmiddle : a.getD (a.size / 2) 0 = b.getD (a.size / 2) 0 := UInt8.toNat.inj (by omega)
  have hend : a.getD (a.size - 1) 0 = b.getD (a.size - 1) 0 := UInt8.toNat.inj (by omega)
  apply eq_of_getD_eq hsize
  intro i hi
  obtain rfl | rfl | rfl : i = 0 ∨ i = a.size / 2 ∨ i = a.size - 1 := by omega
  · exact UInt8.toNat.inj (by omega)
  · exact hmiddle
  · exact hend

/-! ## Four to eight bytes -/

/-- Two halves of a word, added, stay apart. -/
theorem halves_inj {low high low' high' : UInt32}
    (h : low.toUInt64 + (high.toUInt64 <<< 32) = low'.toUInt64 + (high'.toUInt64 <<< 32)) :
    low = low' ∧ high = high' := by
  have hshift : ∀ x : UInt32, (x.toUInt64 <<< 32).toNat = x.toNat * 2 ^ 32 := by
    intro x
    have hlt := x.toNat_lt
    exact Units.toNat_shiftLeft_of_lt rfl (by decide) (by rw [UInt32.toNat_toUInt64]; omega)
  have hlow := low.toNat_lt
  have hlow' := low'.toNat_lt
  have hhigh := high.toNat_lt
  have hhigh' := high'.toNat_lt
  have hnat := congrArg UInt64.toNat h
  rw [UInt64.toNat_add, UInt64.toNat_add, hshift, hshift, UInt32.toNat_toUInt64,
    UInt32.toNat_toUInt64, Nat.mod_eq_of_lt (by omega), Nat.mod_eq_of_lt (by omega)] at hnat
  exact ⟨UInt32.toNat.inj (by omega), UInt32.toNat.inj (by omega)⟩

/-- The words of four bytes at both ends of an array of four to eight tell it from others of its
size. -/
theorem eq_of_outer_halves {a b : Array UInt8} {p : UInt64} (hsize : a.size = b.size)
    (hlow : 4 ≤ a.size) (hhigh : a.size ≤ 8) (hp : p.toNat = a.size - 4)
    (hfirst : (tableWord a .four 0).toUInt32 = (tableWord b .four 0).toUInt32)
    (hlast : (tableWord a .four p).toUInt32 = (tableWord b .four p).toUInt32) : a = b :=
  eq_of_outer_words (w := .four) hsize hlow hhigh hp (tableWord_eq_of_toUInt32_eq hfirst)
    (tableWord_eq_of_toUInt32_eq hlast)

end XXH3

end Fingerprint
