import Fingerprint.Word.Order
import Mathlib.Tactic.Ring

/-!
# Laws of words and their bytes

Writing the number that bytes read as gives the bytes back. A row of bytes splits where
one likes, and pieces of one length are found in it by division. Swapping the bytes of a word gives
the word of the same bytes in the opposite order.
-/

namespace Fingerprint
set_option autoImplicit false

namespace Bytes

/-! ## Numbers -/

theorem value_lt (bytes : List UInt8) : value bytes < 256 ^ bytes.length := by
  induction bytes with
  | nil => simp [value]
  | cons b rest ih =>
    have hb := b.toNat_lt
    rw [value, List.length_cons, Nat.pow_succ]
    omega

theorem value_append (l m : List UInt8) : value (l ++ m) = value l + 256 ^ l.length * value m := by
  induction l with
  | nil => simp [value]
  | cons b l ih =>
    rw [List.cons_append, value, ih, value, List.length_cons]
    ring

theorem digits_value (bytes : List UInt8) : digits bytes.length (value bytes) = bytes := by
  induction bytes with
  | nil => rfl
  | cons b rest ih =>
    have hb := b.toNat_lt
    have hq : (b.toNat + 256 * value rest) / 256 = value rest := by omega
    have hr : UInt8.ofNat (b.toNat + 256 * value rest) = b := by
      apply UInt8.toNat.inj
      rw [UInt8.toNat_ofNat']
      omega
    rw [value, List.length_cons, digits, hq, hr, ih]

theorem value_digits (count n : Nat) : value (digits count n) = n % 256 ^ count := by
  induction count generalizing n with
  | zero => simp [digits, value, Nat.mod_one]
  | succ count ih =>
    have hpow : 256 ^ (count + 1) = 256 * 256 ^ count := Nat.pow_succ'
    rw [digits, value, ih, UInt8.toNat_ofNat', hpow, Nat.mod_mul]

theorem getElem?_digits {count n i : Nat} (hi : i < count) :
    (digits count n)[i]? = some (UInt8.ofNat (n >>> (8 * i))) := by
  induction count generalizing n i with
  | zero => omega
  | succ count ih =>
    cases i with
    | zero => rfl
    | succ i =>
      have hshift : n >>> (8 * (i + 1)) = (n / 256) >>> (8 * i) := by
        rw [Nat.mul_add, Nat.add_comm, Nat.shiftRight_add, Nat.shiftRight_eq_div_pow n]
      rw [digits, List.getElem?_cons_succ, ih (by omega), hshift]

/-! ## Rows -/

theorem slice_append (f : Nat → UInt8) (start a b : Nat) :
    slice f start (a + b) = slice f start a ++ slice f (start + a) b := by
  induction a generalizing start with
  | zero =>
    rw [Nat.zero_add, Nat.add_zero]
    rfl
  | succ a ih =>
    rw [Nat.add_right_comm, slice, ih, slice, List.cons_append, Nat.add_right_comm,
      Nat.add_assoc start a 1]

/-- The digits of a number from one place on are the digits of its quotient by that place. -/
theorem slice_digits (n start count : Nat) :
    slice (fun i => UInt8.ofNat (n >>> (8 * i))) start count = digits count (n >>> (8 * start)) := by
  induction count generalizing start with
  | zero => rfl
  | succ count ih =>
    have hnext : n >>> (8 * (start + 1)) = n >>> (8 * start) / 256 := by
      rw [Nat.mul_add, Nat.shiftRight_add, Nat.shiftRight_eq_div_pow _ (8 * 1)]
    rw [slice, digits, ih, hnext]

theorem slice_add (f : Nat → UInt8) (a start count : Nat) :
    slice f (a + start) count = slice (fun i => f (a + i)) start count := by
  induction count generalizing start with
  | zero => rfl
  | succ count ih => rw [slice, slice, Nat.add_assoc, ih]

theorem value_slice_of_zero {f : Nat → UInt8} {start : Nat} (h : ∀ i, start ≤ i → f i = 0)
    (count : Nat) : value (slice f start count) = 0 := by
  induction count generalizing start with
  | zero => rfl
  | succ count ih =>
    rw [slice, value, h start (Nat.le_refl _), ih fun i hi => h i (Nat.le_of_succ_le hi)]
    rfl

section
variable {α : Type} {f : α → List UInt8} {width : Nat}

theorem length_flatMap (hf : ∀ a, (f a).length = width) (l : List α) :
    (l.flatMap f).length = l.length * width := by
  induction l with
  | nil => simp
  | cons a l ih =>
    rw [List.flatMap_cons, List.length_append, hf, ih, List.length_cons, Nat.add_mul, Nat.one_mul,
      Nat.add_comm]

/-- In a row of pieces of one length, an index falls into a piece by division. -/
theorem getElem?_flatMap (hpos : 0 < width) (hf : ∀ a, (f a).length = width) (l : List α)
    (i : Nat) : (l.flatMap f)[i]? = l[i / width]?.bind fun a => (f a)[i % width]? := by
  induction l generalizing i with
  | nil => simp
  | cons a l ih =>
    rw [List.flatMap_cons]
    by_cases hi : i < width
    · rw [List.getElem?_append_left (by rw [hf]; exact hi), Nat.div_eq_of_lt hi,
        Nat.mod_eq_of_lt hi]
      rfl
    · obtain ⟨j, rfl⟩ : ∃ j, i = width + j := ⟨i - width, by omega⟩
      rw [List.getElem?_append_right (by rw [hf]; omega), hf, Nat.add_sub_cancel_left, ih,
        Nat.add_div_left j hpos, Nat.add_mod_left]
      rfl

end

end Bytes

/-! ## Words -/

theorem toNat_ofNat_value {bytes : List UInt8} (h : bytes.length ≤ 8) :
    (UInt64.ofNat (Bytes.value bytes)).toNat = Bytes.value bytes := by
  have hlt := Bytes.value_lt bytes
  have hle : 256 ^ bytes.length ≤ 256 ^ 8 := Nat.pow_le_pow_right (by decide) h
  have hfits : Bytes.value bytes < 2 ^ 64 := Nat.lt_of_lt_of_le hlt hle
  rw [UInt64.toNat_ofNat', Nat.mod_eq_of_lt hfits]

theorem swapBytes_ofNat_value {w : Width} {bytes : List UInt8} (h : bytes.length = w.bytes) :
    swapBytes w (UInt64.ofNat (Bytes.value bytes)) = UInt64.ofNat (Bytes.value bytes.reverse) := by
  rw [swapBytes, toNat_ofNat_value (h ▸ w.bytes_le_eight), ← h, Bytes.digits_value]
  rfl

theorem swapBytes_assemble (w : Width) (o : ByteOrder) {bytes : List UInt8}
    (h : bytes.length = w.bytes) : swapBytes w (o.assemble bytes) = o.reverse.assemble bytes := by
  cases o with
  | little => exact swapBytes_ofNat_value h
  | big =>
    have hreverse : bytes.reverse.length = w.bytes := by rw [List.length_reverse, h]
    change swapBytes w (UInt64.ofNat (Bytes.value bytes.reverse)) = UInt64.ofNat (Bytes.value bytes)
    rw [swapBytes_ofNat_value hreverse, List.reverse_reverse]

end Fingerprint
