import Fingerprint.Proofs.Digest

/-!
# Words give their bytes away

The digest of an array of bytes is its function's body, run over the words in the array. Two equal
words of one width have equal bytes, so two arrays with the same words, wherever these overlap, are
the same wherever these words lie; and any two words are the words of some array.
-/

namespace Fingerprint
open Plan
set_option autoImplicit false

/-! ## Rows of bytes -/

namespace Bytes

theorem value_injective {l m : List UInt8} (hlen : l.length = m.length)
    (h : value l = value m) : l = m := by
  rw [← digits_value l, ← digits_value m, hlen, h]

theorem eq_of_slice_eq {f g : Nat → UInt8} {start start' count : Nat}
    (h : slice f start count = slice g start' count) {i : Nat} (hi : i < count) :
    f (start + i) = g (start' + i) := by
  induction count generalizing start start' i with
  | zero => omega
  | succ count ih =>
    obtain ⟨hhead, htail⟩ := List.cons.inj h
    cases i with
    | zero => exact hhead
    | succ i =>
      have hnext := ih htail (Nat.lt_of_succ_lt_succ hi)
      rwa [Nat.add_right_comm, Nat.add_right_comm start'] at hnext

end Bytes

/-! ## Words of an array -/

section
variable {a b : Array UInt8} {p q : UInt64}

theorem toNat_size (h : a.size < 2 ^ 64) : (UInt64.ofNat a.size).toNat = a.size :=
  UInt64.toNat_ofNat_of_lt' h

theorem toNat_size_half (h : a.size < 2 ^ 64) : (UInt64.ofNat a.size >>> 1).toNat = a.size / 2 := by
  rw [UInt64.toNat_shiftRight, toNat_size h, Nat.shiftRight_eq_div_pow]
  rfl

theorem toNat_size_sub (h : a.size < 2 ^ 64) {k : UInt64} (hk : k.toNat ≤ a.size) :
    (UInt64.ofNat a.size - k).toNat = a.size - k.toNat := by
  rw [UInt64.toNat_sub_of_le _ _ ((UInt64.le_ofNat_iff h).2 hk), toNat_size h]

theorem toNat_tableWord (a : Array UInt8) (w : Width) (p : UInt64) :
    (tableWord a w p).toNat =
      Bytes.value (Bytes.slice (fun i => a.getD i 0) p.toNat w.bytes) :=
  toNat_ofNat_value (by rw [Bytes.length_slice]; exact w.bytes_le_eight)

theorem toNat_tableWord_lt (a : Array UInt8) (w : Width) (p : UInt64) :
    (tableWord a w p).toNat < 256 ^ w.bytes := by
  have hlt := Bytes.value_lt (Bytes.slice (fun i => a.getD i 0) p.toNat w.bytes)
  rwa [Bytes.length_slice, ← toNat_tableWord] at hlt

/-- The bytes that a word was read from. -/
theorem getD_eq_of_tableWord_eq {w : Width} (h : tableWord a w p = tableWord b w q) {i : Nat}
    (hi : i < w.bytes) : a.getD (p.toNat + i) 0 = b.getD (q.toNat + i) 0 := by
  have hvalue := congrArg UInt64.toNat h
  rw [toNat_tableWord, toNat_tableWord] at hvalue
  have hslice := Bytes.value_injective (by rw [Bytes.length_slice, Bytes.length_slice]) hvalue
  exact Bytes.eq_of_slice_eq hslice hi

theorem tableWord_eq_of_toUInt32_eq
    (h : (tableWord a .four p).toUInt32 = (tableWord b .four q).toUInt32) :
    tableWord a .four p = tableWord b .four q := by
  have hnat := congrArg UInt32.toNat h
  have ha : (tableWord a .four p).toNat < 2 ^ 32 := toNat_tableWord_lt a .four p
  have hb : (tableWord b .four q).toNat < 2 ^ 32 := toNat_tableWord_lt b .four q
  rw [UInt64.toNat_toUInt32, UInt64.toNat_toUInt32, Nat.mod_eq_of_lt ha, Nat.mod_eq_of_lt hb]
    at hnat
  exact UInt64.toNat.inj hnat

theorem tableWord_eq_of_toUInt8_eq
    (h : (tableWord a .one p).toUInt8 = (tableWord b .one q).toUInt8) :
    tableWord a .one p = tableWord b .one q := by
  have hnat := congrArg UInt8.toNat h
  have ha : (tableWord a .one p).toNat < 2 ^ 8 := toNat_tableWord_lt a .one p
  have hb : (tableWord b .one q).toNat < 2 ^ 8 := toNat_tableWord_lt b .one q
  rw [UInt64.toNat_toUInt8, UInt64.toNat_toUInt8, Nat.mod_eq_of_lt ha, Nat.mod_eq_of_lt hb] at hnat
  exact UInt64.toNat.inj hnat

@[simp] theorem toUInt8_tableWord (a : Array UInt8) (p : UInt64) :
    (tableWord a .one p).toUInt8 = a.getD p.toNat 0 := by
  apply UInt8.toNat.inj
  rw [UInt64.toNat_toUInt8, toNat_tableWord]
  exact Nat.mod_eq_of_lt (a.getD p.toNat 0).toNat_lt

theorem getD_beyond {i : Nat} (hi : a.size ≤ i) : a.getD i 0 = 0 :=
  dif_neg (Nat.not_lt.2 hi)

theorem getD_append_zeros (a : Array UInt8) (k i : Nat) :
    (a ++ Array.replicate k 0).getD i 0 = a.getD i 0 := by
  rw [Array.getD_eq_getD_getElem?, Array.getD_eq_getD_getElem?, Array.getElem?_append]
  split
  · rfl
  · rename_i hi
    rw [Array.getElem?_eq_none (Nat.not_lt.1 hi), Array.getElem?_replicate]
    split <;> rfl

theorem tableWord_beyond (w : Width) (hp : a.size ≤ p.toNat) : tableWord a w p = 0 := by
  apply UInt64.toNat.inj
  rw [toNat_tableWord]
  exact Bytes.value_slice_of_zero (fun i hi => getD_beyond (hp.trans hi)) _

theorem tableWord_congr {w : Width}
    (h : ∀ i, p.toNat ≤ i → i < p.toNat + w.bytes → a.getD i 0 = b.getD i 0) :
    tableWord a w p = tableWord b w p := by
  rw [tableWord, tableWord, Bytes.slice_congr h]

/-- Arrays of one size are the same if their bytes are, read with zeros beyond the end. -/
theorem eq_of_getD_eq (hsize : a.size = b.size)
    (h : ∀ i < a.size, a.getD i 0 = b.getD i 0) : a = b := by
  apply Array.ext hsize
  intro i hi hi'
  have hbyte := h i hi
  rwa [Array.getD, dif_pos hi, Array.getD, dif_pos hi'] at hbyte

/-- Two equal words at the front of arrays of one size, and two at their backs, are all there is to
arrays of at most twice their width. -/
theorem eq_of_outer_words {w : Width} (hsize : a.size = b.size) (hlow : w.bytes ≤ a.size)
    (hhigh : a.size ≤ 2 * w.bytes) (hp : p.toNat = a.size - w.bytes)
    (hfirst : tableWord a w 0 = tableWord b w 0) (hlast : tableWord a w p = tableWord b w p) :
    a = b := by
  apply eq_of_getD_eq hsize
  intro i hi
  by_cases hfront : i < w.bytes
  · have hbyte := getD_eq_of_tableWord_eq hfirst hfront
    rwa [UInt64.toNat_zero, Nat.zero_add] at hbyte
  · have hbyte := getD_eq_of_tableWord_eq hlast (i := i - p.toNat) (by omega)
    rwa [Nat.add_sub_cancel' (by omega)] at hbyte

end

/-! ## Arrays of given words -/

theorem Bytes.slice_getD_append (l m r : List UInt8) :
    slice (fun i => (l ++ m ++ r).toArray.getD i 0) l.length m.length = m := by
  induction m generalizing l with
  | nil => rfl
  | cons b m ih =>
    have hrest := ih (l ++ [b])
    rw [List.length_append, List.append_assoc l] at hrest
    rw [List.length_cons, slice]
    refine congr (congrArg _ ?_) hrest
    simp [Array.getD_eq_getD_getElem?]

theorem tableWord_digits (l r : List UInt8) (x : UInt64) {p : UInt64} (hp : p.toNat = l.length) :
    tableWord (l ++ Bytes.digits 8 x.toNat ++ r).toArray .eight p = x := by
  apply UInt64.toNat.inj
  have hslice := Bytes.slice_getD_append l (Bytes.digits 8 x.toNat) r
  rw [Bytes.length_digits] at hslice
  rw [toNat_tableWord, hp, Width.bytes_eight, hslice, Bytes.value_digits]
  exact Nat.mod_eq_of_lt x.toNat_lt

/-- The little-endian image of two words. -/
def pairBytes (first last : UInt64) : Vector UInt8 16 :=
  ⟨(Bytes.digits 8 first.toNat ++ Bytes.digits 8 last.toNat).toArray, by simp⟩

theorem tableWord_pairBytes_first (first last : UInt64) :
    tableWord (pairBytes first last).toArray .eight 0 = first :=
  tableWord_digits [] (Bytes.digits 8 last.toNat) first rfl

theorem tableWord_pairBytes_last (first last : UInt64) :
    tableWord (pairBytes first last).toArray .eight 8 = last := by
  have hword := tableWord_digits (p := 8) (Bytes.digits 8 first.toNat) [] last
    (Bytes.length_digits _ _).symm
  rwa [List.append_nil] at hword

namespace HashFunction

variable {φ δ : Type} [HashFunction φ δ] {f : φ}

/-- The digest of an array: the body, run over the words in it. -/
theorem ofBytes_eq_run (hf : ReadsRange f) (a : Array UInt8) :
    ofBytes f a = (body f (UInt64.ofNat a.size)).run (tableWord a) := by
  apply run_congr (hf.staysInside _)
  intro w p hin
  have hin : p.toNat + w.bytes ≤ (UInt64.ofNat a.size).toNat := hin
  have hle : (UInt64.ofNat a.size).toNat ≤ a.size := by
    rw [UInt64.toNat_ofNat']
    exact Nat.mod_le _ _
  rw [UInt64.toNat_zero, Nat.zero_add, (Reader.lawful_bytes a).readLittle (by omega)]
  rfl

end HashFunction

end Fingerprint
