import Fingerprint.Proofs.Lawful.Basic
import Fingerprint.Text.Basic

/-!
# Unit sequences are read lawfully

A word of two, four or eight bytes at an even offset is a row of whole units. At an odd offset it is
the second byte of a unit, whole units, and the first byte of the next. Stacking units by shifts
gives the number of their bytes in a row, in either order, and the shifted bytes at both ends add
their places.
-/

namespace Fingerprint
set_option autoImplicit false

namespace Units
open Bytes

/-! ## Words by shifts -/

theorem toNat_shiftLeft_of_lt {a s : UInt64} {n : Nat} (hs : s.toNat = n) (hn : n < 64)
    (h : a.toNat * 2 ^ n < 2 ^ 64) : (a <<< s).toNat = a.toNat * 2 ^ n := by
  rw [UInt64.toNat_shiftLeft, hs, Nat.mod_eq_of_lt hn, Nat.shiftLeft_eq, Nat.mod_eq_of_lt h]

theorem toNat_or_of_lt {a b : UInt64} {m n : Nat} (ha : a.toNat < 2 ^ n)
    (hb : b.toNat = m * 2 ^ n) : (a ||| b).toNat = a.toNat + m * 2 ^ n := by
  rw [UInt64.toNat_or, hb, Nat.or_comm, ← Nat.shiftLeft_eq, ← Nat.shiftLeft_add_eq_or_of_lt ha,
    Nat.add_comm]

theorem add_mul_two_pow_lt {a m n k : Nat} (ha : a < 2 ^ n) (hm : m < 2 ^ k) :
    a + m * 2 ^ n < 2 ^ (n + k) := by
  calc
    a + m * 2 ^ n < 2 ^ n + m * 2 ^ n := Nat.add_lt_add_right ha _
    _ = (m + 1) * 2 ^ n := by ring
    _ ≤ 2 ^ k * 2 ^ n := Nat.mul_le_mul_right _ hm
    _ = 2 ^ (n + k) := by rw [Nat.add_comm, Nat.pow_add]

/-- A word stacked on the `n` bits of another. -/
theorem toNat_or_shiftLeft {a b s : UInt64} {n k : Nat} (hs : s.toNat = n) (ha : a.toNat < 2 ^ n)
    (hb : b.toNat < 2 ^ k) (hn : n < 64) (h : n + k ≤ 64) :
    (a ||| b <<< s).toNat = a.toNat + b.toNat * 2 ^ n := by
  have hsum := add_mul_two_pow_lt ha hb
  have hle : 2 ^ (n + k) ≤ 2 ^ 64 := Nat.pow_le_pow_right (by decide) h
  exact toNat_or_of_lt ha (toNat_shiftLeft_of_lt hs hn (by omega))

theorem toNat_lowByte (u : UInt16) : (lowByte u).toNat = u.toNat % 256 := by
  rw [lowByte, UInt16.toNat_toUInt64, UInt16.toNat_and]
  exact Nat.and_two_pow_sub_one_eq_mod u.toNat 8

theorem toNat_highByte (u : UInt16) : (highByte u).toNat = u.toNat / 256 := by
  rw [highByte, UInt16.toNat_toUInt64, UInt16.toNat_shiftRight]
  exact Nat.shiftRight_eq_div_pow u.toNat 8

/-! ## Bytes of units -/

/-- Byte `i` of the image, in the given order, of units given one by one. -/
def byteAt (order : ByteOrder) (unit : Nat → UInt16) (i : Nat) : UInt8 :=
  (order.layOut 2 (unit (i / 2)).toNat).getD (i % 2) 0

variable (unit : Nat → UInt16) (i : Nat)

theorem layOut_two (order : ByteOrder) (n : Nat) :
    order.layOut 2 n = match order with
      | .little => [UInt8.ofNat n, UInt8.ofNat (n / 256)]
      | .big => [UInt8.ofNat (n / 256), UInt8.ofNat n] := by
  cases order <;> rfl

theorem byteAt_even (order : ByteOrder) :
    (byteAt order unit (2 * i)).toNat = match order with
      | .little => (unit i).toNat % 256
      | .big => (unit i).toNat / 256 := by
  have hu := (unit i).toNat_lt
  rw [byteAt, Nat.mul_div_cancel_left i (by decide), Nat.mul_mod_right, layOut_two]
  cases order with
  | little => exact UInt8.toNat_ofNat'
  | big => exact UInt8.toNat_ofNat_of_lt' (by change _ < 256; omega)

theorem byteAt_odd (order : ByteOrder) :
    (byteAt order unit (2 * i + 1)).toNat = match order with
      | .little => (unit i).toNat / 256
      | .big => (unit i).toNat % 256 := by
  have hu := (unit i).toNat_lt
  have hdiv : (2 * i + 1) / 2 = i := by omega
  have hmod : (2 * i + 1) % 2 = 1 := by omega
  rw [byteAt, hdiv, hmod, layOut_two]
  cases order with
  | little => exact UInt8.toNat_ofNat_of_lt' (by change _ < 256; omega)
  | big => exact UInt8.toNat_ofNat'

theorem pow_two_mul (count : Nat) : 256 ^ (2 * count) = 2 ^ (16 * count) := by
  rw [show 256 = 2 ^ 8 from rfl, ← Nat.pow_mul]
  ring_nf

theorem value_slice_little (count : Nat) :
    value (slice (byteAt .little unit) (2 * i) (2 * (count + 1))) =
      (unit i).toNat + 2 ^ 16 * value (slice (byteAt .little unit) (2 * (i + 1)) (2 * count)) := by
  have heven := byteAt_even unit i .little
  have hodd := byteAt_odd unit i .little
  have hnext : 2 * (i + 1) = 2 * i + 1 + 1 := by omega
  dsimp only at heven hodd
  rw [Nat.mul_add 2 count, slice, slice, value, value, heven, hodd, hnext]
  omega

theorem value_slice_big (count : Nat) :
    value (slice (byteAt .big unit) (2 * i) (2 * (count + 1))).reverse =
      value (slice (byteAt .big unit) (2 * (i + 1)) (2 * count)).reverse +
        2 ^ (16 * count) * (unit i).toNat := by
  have heven := byteAt_even unit i .big
  have hodd := byteAt_odd unit i .big
  have hnext : 2 * (i + 1) = 2 * i + 1 + 1 := by omega
  have hunit : (unit i).toNat % 256 + 256 * ((unit i).toNat / 256 + 256 * 0) = (unit i).toNat := by
    omega
  dsimp only at heven hodd
  rw [Nat.mul_add 2 count, slice, slice, List.reverse_cons, List.reverse_cons, List.append_assoc,
    value_append, List.length_reverse, length_slice, pow_two_mul, List.singleton_append, value, value,
    heven, hodd, value, hunit, hnext]

/-! ## Stacked units -/

theorem toNat_stackUp {count shift : Nat} {word : UInt64} (hword : word.toNat < 2 ^ shift)
    (h : shift + 16 * count ≤ 64) :
    (stackUp unit shift count i word).toNat =
      word.toNat + 2 ^ shift * value (slice (byteAt .little unit) (2 * i) (2 * count)) := by
  induction count generalizing shift i word with
  | zero => simp [stackUp, slice, value]
  | succ count ih =>
    have hshift : (UInt64.ofNat shift).toNat = shift := by
      rw [UInt64.toNat_ofNat']
      omega
    have hunit : (unit i).toUInt64.toNat < 2 ^ 16 := (unit i).toNat_lt
    have hnext := toNat_or_shiftLeft hshift hword hunit (by omega) (by omega)
    rw [stackUp, ih (i + 1) (hnext ▸ add_mul_two_pow_lt hword hunit) (by omega), hnext,
      value_slice_little, UInt16.toNat_toUInt64]
    ring

theorem toNat_stackDown {count n : Nat} {word : UInt64} (hword : word.toNat < 2 ^ n)
    (h : n + 16 * count ≤ 64) :
    (stackDown unit count i word).toNat =
      word.toNat * 2 ^ (16 * count) +
        value (slice (byteAt .big unit) (2 * i) (2 * count)).reverse := by
  induction count generalizing n i word with
  | zero => simp [stackDown, slice, value]
  | succ count ih =>
    have hunit : (unit i).toUInt64.toNat < 2 ^ 16 := (unit i).toNat_lt
    have hnext : (word <<< 16 ||| (unit i).toUInt64).toNat =
        (unit i).toUInt64.toNat + word.toNat * 2 ^ 16 := by
      rw [UInt64.or_comm]
      exact toNat_or_shiftLeft rfl hunit hword (by decide) (by omega)
    have hsmall : (word <<< 16 ||| (unit i).toUInt64).toNat < 2 ^ (16 + n) :=
      hnext ▸ add_mul_two_pow_lt hunit hword
    rw [stackDown, ih (i + 1) hsmall (by omega), hnext, value_slice_big, UInt16.toNat_toUInt64]
    ring

theorem toNat_readByte (order : ByteOrder) (odd : Bool) :
    (readByte order odd (unit i)).toNat = (byteAt order unit (2 * i + odd.toNat)).toNat := by
  have heven := byteAt_even unit i order
  have hodd := byteAt_odd unit i order
  cases order <;> cases odd <;> dsimp only [readByte, Bool.toNat] at * <;>
    simp only [toNat_lowByte, toNat_highByte, heven, hodd, Nat.add_zero, cond_true, cond_false]

/-! ## Reads -/

theorem slice_odd (f : Nat → UInt8) (count : Nat) :
    slice f (2 * i + 1) (2 * (count + 1)) =
      f (2 * i + 1) :: (slice f (2 * (i + 1)) (2 * count) ++ [f (2 * (i + (count + 1)))]) := by
  have hnext : 2 * (i + 1) = 2 * i + 1 + 1 := by omega
  have hlast : 2 * (i + (count + 1)) = 2 * i + 1 + 1 + 2 * count := by omega
  rw [Nat.mul_add 2 count, slice, slice_append, hnext, hlast]
  rfl

theorem value_lt_of_length {bytes : List UInt8} {count : Nat} (h : bytes.length = 2 * count) :
    value bytes < 2 ^ (16 * count) := by
  have hlt := value_lt bytes
  rwa [h, pow_two_mul] at hlt

theorem toNat_readUnits_little {count : Nat} (h : 16 * (count + 1) ≤ 64) (odd : Bool) :
    (readUnits unit .little odd i (count + 1)).toNat =
      value (slice (byteAt .little unit) (2 * i + odd.toNat) (2 * (count + 1))) := by
  cases odd with
  | false =>
    have hstack : (stackUp unit 0 (count + 1) i 0).toNat = _ :=
      toNat_stackUp unit i (by decide) (by omega)
    rw [readUnits, hstack]
    simp
  | true =>
    have hhigh := toNat_highByte (unit i)
    have hlow := toNat_lowByte (unit (i + (count + 1)))
    have hfirst := byteAt_odd unit i .little
    have hlast := byteAt_even unit (i + (count + 1)) .little
    dsimp only at hfirst hlast
    have hlt : (highByte (unit i)).toNat < 2 ^ 8 := by
      have hu := (unit i).toNat_lt
      omega
    have hstack : (stackUp unit 8 count (i + 1) (highByte (unit i))).toNat = _ :=
      toNat_stackUp unit (i + 1) hlt (by omega)
    have hrow : value (slice (byteAt .little unit) (2 * (i + 1)) (2 * count)) < 2 ^ (16 * count) :=
      value_lt_of_length (length_slice _ _ _)
    have hsmall : (stackUp unit 8 count (i + 1) (highByte (unit i))).toNat <
        2 ^ (8 + 16 * count) := by
      rw [hstack, Nat.mul_comm]
      exact add_mul_two_pow_lt hlt hrow
    have hplace : (UInt64.ofNat (16 * (count + 1) - 8)).toNat = 8 + 16 * count := by
      rw [UInt64.toNat_ofNat']
      omega
    have hbyte : (lowByte (unit (i + (count + 1)))).toNat < 2 ^ 8 := by omega
    rw [readUnits, Nat.add_sub_cancel,
      toNat_or_shiftLeft hplace hsmall hbyte (by omega) (by omega), hstack, Bool.toNat_true,
      slice_odd, value, value_append, value, value, length_slice, pow_two_mul, hfirst, hlast,
      hhigh, hlow]
    ring

theorem toNat_readUnits_big {count : Nat} (h : 16 * (count + 1) ≤ 64) (odd : Bool) :
    (readUnits unit .big odd i (count + 1)).toNat =
      value (slice (byteAt .big unit) (2 * i + odd.toNat) (2 * (count + 1))).reverse := by
  cases odd with
  | false =>
    have hstack : (stackDown unit (count + 1) i 0).toNat = _ :=
      toNat_stackDown unit i (n := 0) (by decide) (by omega)
    rw [readUnits, hstack]
    simp
  | true =>
    have hlow := toNat_lowByte (unit i)
    have hhigh := toNat_highByte (unit (i + (count + 1)))
    have hfirst := byteAt_odd unit i .big
    have hlast := byteAt_even unit (i + (count + 1)) .big
    dsimp only at hfirst hlast
    have hlt : (lowByte (unit i)).toNat < 2 ^ 8 := by omega
    have hbyte : (highByte (unit (i + (count + 1)))).toNat < 2 ^ 8 := by
      have hu := (unit (i + (count + 1))).toNat_lt
      omega
    have hstack : (stackDown unit count (i + 1) (lowByte (unit i))).toNat = _ :=
      toNat_stackDown unit (i + 1) hlt (by omega)
    have hrow : value (slice (byteAt .big unit) (2 * (i + 1)) (2 * count)).reverse <
        2 ^ (16 * count) :=
      value_lt_of_length (by rw [List.length_reverse, length_slice])
    have hsmall : (stackDown unit count (i + 1) (lowByte (unit i))).toNat <
        2 ^ (16 * count + 8) := by
      rw [hstack, Nat.add_comm]
      exact add_mul_two_pow_lt hrow hlt
    have h8 : (8 : UInt64).toNat = 8 := rfl
    rw [readUnits, Nat.add_sub_cancel, UInt64.or_comm,
      toNat_or_shiftLeft h8 hbyte hsmall (by decide) (by omega), hstack, Bool.toNat_true,
      slice_odd, List.reverse_cons, List.reverse_append, List.reverse_singleton,
      List.singleton_append, List.cons_append, value, value_append, value, value,
      List.length_reverse, length_slice, pow_two_mul, hfirst, hlast, hhigh, hlow]
    ring

theorem eq_ofNat {x : UInt64} {n : Nat} (h : x.toNat = n) : x = UInt64.ofNat n := by
  rw [← h, UInt64.ofNat_toNat]

theorem readUnits_eq (order : ByteOrder) {count : Nat} (h : 16 * (count + 1) ≤ 64) (odd : Bool) :
    readUnits unit order odd i (count + 1) =
      order.assemble (slice (byteAt order unit) (2 * i + odd.toNat) (2 * (count + 1))) := by
  cases order with
  | little => exact eq_ofNat (toNat_readUnits_little unit i h odd)
  | big => exact eq_ofNat (toNat_readUnits_big unit i h odd)

theorem readByte_eq (order : ByteOrder) (odd : Bool) :
    readByte order odd (unit i) = order.assemble [byteAt order unit (2 * i + odd.toNat)] := by
  have hbyte := toNat_readByte unit i order odd
  cases order with
  | little => exact eq_ofNat hbyte
  | big => exact eq_ofNat hbyte

/-- A read gives the bytes in a row from its offset on, of whichever width and at whichever parity. -/
theorem readAt_eq (order : ByteOrder) (w : Width) (offset : Nat) :
    readAt unit order w offset =
      order.assemble (slice (byteAt order unit) offset w.bytes) := by
  obtain ⟨i, odd, rfl⟩ : ∃ (i : Nat) (odd : Bool), offset = 2 * i + odd.toNat := by
    refine ⟨offset / 2, offset % 2 == 1, ?_⟩
    rcases Nat.mod_two_eq_zero_or_one offset with h | h <;> rw [h] <;> dsimp <;> omega
  have hdiv : (2 * i + odd.toNat) / 2 = i := by
    cases odd <;> dsimp <;> omega
  have hmod : ((2 * i + odd.toNat) % 2 == 1) = odd := by
    cases odd <;> simp
  unfold readAt
  rw [hdiv, hmod]
  cases w with
  | one => exact readByte_eq unit i order odd
  | two => exact readUnits_eq unit i order (by decide) odd
  | four => exact readUnits_eq unit i order (by decide) odd
  | eight => exact readUnits_eq unit i order (by decide) odd

/-! ## Images -/

theorem length_layOut (order : ByteOrder) (u : UInt16) : (order.layOut 2 u.toNat).length = 2 := by
  cases order <;> rfl

theorem size_image (order : ByteOrder) (units : Array UInt16) :
    (image order units).size = units.size * 2 := by
  rw [image, List.size_toArray, length_flatMap (length_layOut order),
    Array.length_toList]

theorem byteAt_eq_image (order : ByteOrder) {units : Array UInt16} {unit : Nat → UInt16}
    (hunit : ∀ j < units.size, unit j = units.getD j 0) {j : Nat}
    (hj : j < (image order units).size) :
    byteAt order unit j = (image order units).getD j 0 := by
  rw [size_image] at hj
  have hdiv : j / 2 < units.size := by omega
  rw [image, Array.getD_eq_getD_getElem?, List.getElem?_toArray,
    getElem?_flatMap (by decide) (length_layOut order), Array.getElem?_toList,
    Array.getElem?_eq_getElem hdiv, Option.bind_some, byteAt, hunit _ hdiv, Array.getD,
    dif_pos hdiv, List.getD_eq_getElem?_getD]
  rfl

end Units

/-! ## Sequences -/

theorem Ring.unitAt_eq_getD (r : Ring) (i : Nat) :
    UnitSequence.unitAt r i = r.units.getD i 0 := by
  change (if i < r.front.size then r.front.getD i 0
    else r.back.getD (i - r.front.size) 0) = (r.front ++ r.back).getD i 0
  simp only [Array.getD_eq_getD_getElem?]
  by_cases hfront : i < r.front.size
  · rw [if_pos hfront, Array.getElem?_append_left hfront]
  · rw [if_neg hfront, Array.getElem?_append_right (Nat.le_of_not_lt hfront)]

theorem getD_widened (bytes : Array UInt8) {i : Nat} (hi : i < (bytes.map UInt8.toUInt16).size) :
    (bytes.getD i 0).toUInt16 = (bytes.map UInt8.toUInt16).getD i 0 := by
  rw [Array.getD, Array.getD, dif_pos hi, dif_pos (by simpa using hi)]
  simp

theorem Text.unitAt_eq_getD (t : Text) {i : Nat} (hi : i < t.units.size) :
    UnitSequence.unitAt t i = t.units.getD i 0 := by
  cases t with
  | latin1 bytes => exact getD_widened bytes hi
  | utf16 units => rfl

theorem Text.length_eq_size (t : Text) : t.length = t.units.size := by
  cases t with
  | latin1 bytes => exact Array.size_map.symm
  | utf16 units => rfl

namespace Reader

/-- A reader that puts words together from units is lawful for the image of those units. -/
theorem lawful_of_units {ι : Type} {r : Reader ι} {x : ι} {units : Array UInt16}
    {unit : Nat → UInt16} (hread : r.read x = Units.readAt unit (r.order x))
    (hunit : ∀ i < units.size, unit i = units.getD i 0) :
    r.Lawful x (Units.image (r.order x) units) := by
  intro w offset hin
  rw [hread, Units.readAt_eq,
    Bytes.slice_congr fun i _ hi => Units.byteAt_eq_image (r.order x) hunit (by omega)]

variable (order : ByteOrder)

theorem lawful_units (units : Array UInt16) :
    (Reader.units order).Lawful units (Units.image order units) :=
  lawful_of_units (r := Reader.units order) rfl fun _ _ => rfl

theorem lawful_ring (ring : Ring) :
    (Reader.units order).Lawful ring (Units.image order ring.units) :=
  lawful_of_units (r := Reader.units order) rfl fun i _ => ring.unitAt_eq_getD i

theorem lawful_text (t : Text) : (Reader.units order).Lawful t (Units.image order t.units) :=
  lawful_of_units (r := Reader.units order) rfl fun _ hi => t.unitAt_eq_getD hi

theorem lawful_latin1 (bytes : Array UInt8) :
    (Reader.latin1 order).Lawful bytes (Units.image order (bytes.map UInt8.toUInt16)) := by
  have hread : (Reader.latin1 order).read bytes =
      Units.readAt (fun i => (bytes.getD i 0).toUInt16) order := rfl
  exact lawful_of_units hread fun i hi => getD_widened bytes hi

/-- A borrowed sequence is read as the one it stands for. -/
theorem Lawful.borrowed {ι : Type} [UnitSequence ι] {x : Borrowed ι} {image : Array UInt8}
    (h : (Reader.units order).Lawful x.target image) : (Reader.units order).Lawful x image :=
  h

end Reader

end Fingerprint
