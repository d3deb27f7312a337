import Fingerprint.Proofs.Digest

/-!
# The byte image of one value

What reads of the image of an unsigned integer find: its bytes from the position on, as a number.
So the body of a function, run over the image of a value, is run over the words cut from that value.
-/

namespace Fingerprint
set_option autoImplicit false

namespace Unsigned

variable (v : Unsigned)

theorem toNat_lt_pow : v.toNat < 256 ^ v.width := by
  cases v with
  | u8 v => exact v.toNat_lt
  | u16 v => exact v.toNat_lt
  | u32 v => exact v.toNat_lt
  | u64 v => exact v.toNat_lt
  | u128 v => exact v.bits.isLt

theorem toNat_ofNat_width : (UInt64.ofNat v.width).toNat = v.width := by cases v <;> rfl

theorem value_bytes : Bytes.value v.bytes = v.toNat := by
  rw [bytes, Bytes.value_digits, Nat.mod_eq_of_lt v.toNat_lt_pow]

theorem getD_bytes {i : Nat} (hi : i < v.width) : v.bytes.toArray.getD i 0 = v.byteAt i := by
  rw [Array.getD_eq_getD_getElem?, List.getElem?_toArray, bytes, Bytes.getElem?_digits hi]
  rfl

/-- The word of `w` bytes from byte `p` on, least significant byte first. -/
def wordAt (w : Width) (p : UInt64) : UInt64 :=
  UInt64.ofNat (v.toNat >>> (8 * p.toNat) % 256 ^ w.bytes)

theorem toNat_wordAt (w : Width) (p : UInt64) :
    (v.wordAt w p).toNat = v.toNat >>> (8 * p.toNat) % 256 ^ w.bytes := by
  have hpos : 0 < 256 ^ w.bytes := Nat.pow_pos (by decide)
  have hle : 256 ^ w.bytes ≤ 256 ^ 8 := Nat.pow_le_pow_right (by decide) w.bytes_le_eight
  have hlt : v.toNat >>> (8 * p.toNat) % 256 ^ w.bytes < 2 ^ 64 :=
    Nat.lt_of_lt_of_le (Nat.mod_lt _ hpos) hle
  rw [wordAt, UInt64.toNat_ofNat', Nat.mod_eq_of_lt hlt]

theorem toNat_wordAt_whole {w : Width} (h : v.width = w.bytes) :
    (v.wordAt w 0).toNat = v.toNat := by
  rw [toNat_wordAt, ← h]
  exact Nat.mod_eq_of_lt v.toNat_lt_pow

theorem readLittle_bytes {w : Width} {p : UInt64} (h : p.toNat + w.bytes ≤ v.width) :
    Reader.memory.readLittle v.bytes.toArray w p.toNat = v.wordAt w p := by
  have hsize : v.bytes.toArray.size = v.width := v.length_bytes
  rw [(Reader.lawful_bytes _).readLittle (by omega),
    Bytes.slice_congr fun i _ hi => v.getD_bytes (by omega)]
  change UInt64.ofNat (Bytes.value (Bytes.slice (fun i => UInt8.ofNat (v.toNat >>> (8 * i))) _ _)) = _
  rw [Bytes.slice_digits, Bytes.value_digits, wordAt]

@[simp] theorem toUInt8_wordAt (p : UInt64) : (v.wordAt .one p).toUInt8 = v.byteAt p.toNat := by
  apply UInt8.toNat.inj
  rw [UInt64.toNat_toUInt8, toNat_wordAt, byteAt, UInt8.toNat_ofNat']
  exact Nat.mod_mod _ _

/-! ## Words cut from each width -/

section
variable (a : UInt8) (b : UInt16) (c : UInt32) (d : UInt64)

@[simp] theorem byteAt_u8 : (u8 a).byteAt 0 = a := UInt8.ofNat_toNat

@[simp] theorem byteAt_u16_low : (u16 b).byteAt 0 = b.toUInt8 := rfl

@[simp] theorem byteAt_u16_high : (u16 b).byteAt 1 = (b >>> 8).toUInt8 := by
  apply UInt8.toNat.inj
  rw [byteAt, UInt8.toNat_ofNat', UInt16.toNat_toUInt8, UInt16.toNat_shiftRight]
  rfl

@[simp] theorem wordAt_u16 : ((u16 b).wordAt .two 0).toUInt16 = b := by
  apply UInt16.toNat.inj
  rw [UInt64.toNat_toUInt16, (u16 b).toNat_wordAt_whole rfl]
  exact Nat.mod_eq_of_lt b.toNat_lt

@[simp] theorem wordAt_u32 : ((u32 c).wordAt .four 0).toUInt32 = c := by
  apply UInt32.toNat.inj
  rw [UInt64.toNat_toUInt32, (u32 c).toNat_wordAt_whole rfl]
  exact Nat.mod_eq_of_lt c.toNat_lt

@[simp] theorem wordAt_u64 : (u64 d).wordAt .eight 0 = d :=
  UInt64.toNat.inj ((u64 d).toNat_wordAt_whole rfl)

@[simp] theorem wordAt_u64_low : ((u64 d).wordAt .four 0).toUInt32 = d.toUInt32 := by
  apply UInt32.toNat.inj
  rw [UInt64.toNat_toUInt32, UInt64.toNat_toUInt32, toNat_wordAt]
  exact Nat.mod_mod _ _

@[simp] theorem wordAt_u64_high : ((u64 d).wordAt .four 4).toUInt32 = (d >>> 32).toUInt32 := by
  apply UInt32.toNat.inj
  rw [UInt64.toNat_toUInt32, UInt64.toNat_toUInt32, toNat_wordAt, UInt64.toNat_shiftRight]
  exact Nat.mod_mod _ _

end

end Unsigned

namespace HashFunction

variable {φ δ : Type} [HashFunction φ δ] {f : φ}

/-- The digest of the image of a value: the body, run over the words cut from the value. -/
theorem ofBytes_image (hf : ReadsRange f) (v : Unsigned) :
    ofBytes f v.bytes.toArray = (body f (UInt64.ofNat v.width)).run v.wordAt := by
  have hsize : v.bytes.toArray.size = v.width := v.length_bytes
  rw [ofBytes, hsize]
  apply Plan.run_congr (hf.staysInside _)
  intro w p hin
  have hin : p.toNat + w.bytes ≤ (UInt64.ofNat v.width).toNat := hin
  rw [UInt64.toNat_zero, Nat.zero_add, v.readLittle_bytes (v.toNat_ofNat_width ▸ hin)]

end HashFunction

end Fingerprint
