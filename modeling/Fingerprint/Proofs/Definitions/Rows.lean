import Fingerprint.Proofs.Injective.Images

/-!
# Words of rows of bytes

A row of bytes has a word at every place, least significant byte first. Where the row ends, the word
has as many bytes as are left, and filling the row up with zeros does not change it. The words of an
array are those of its bytes in a row.
-/

namespace Fingerprint
open Plan
set_option autoImplicit false

namespace Bytes

/-- The word that the `w` bytes from place `i` on stand for, or as many of them as there are. -/
def wordAt (w : Width) (row : List UInt8) (i : Nat) : UInt64 :=
  ByteOrder.little.assemble ((row.drop i).take w.bytes)

/-- Zeros beyond the end of a row do not count. -/
theorem value_slice_getD (row : List UInt8) (start count : Nat) :
    value (slice (fun i => row.getD i 0) start count) = value ((row.drop start).take count) := by
  induction count generalizing start with
  | zero => rfl
  | succ count ih =>
    by_cases hstart : start < row.length
    · have hbyte : row.getD start 0 = row[start] := by
        rw [List.getD_eq_getElem?_getD, List.getElem?_eq_getElem hstart, Option.getD_some]
      rw [slice, value, ih, hbyte, List.drop_eq_getElem_cons hstart, List.take_succ_cons, value]
    · have hend : row.length ≤ start := Nat.not_lt.1 hstart
      have hbeyond : ∀ i, start ≤ i → row.getD i 0 = 0 := by
        intro i hi
        rw [List.getD_eq_getElem?_getD, List.getElem?_eq_none (hend.trans hi), Option.getD_none]
      rw [value_slice_of_zero hbeyond, List.drop_eq_nil_of_le hend, List.take_nil]
      rfl

/-- The end of a row, byte by byte. -/
theorem map_getD_range (row : List UInt8) (start : Nat) :
    (List.range (row.length - start)).map (fun i => row.getD (start + i) 0) = row.drop start := by
  apply List.ext_getElem
  · rw [List.length_map, List.length_range, List.length_drop]
  · intro i hi hi'
    rw [List.length_drop] at hi'
    rw [List.getElem_map, List.getElem_range, List.getElem_drop, List.getD_eq_getElem?_getD,
      List.getElem?_eq_getElem (by omega), Option.getD_some]

theorem wordAt_eq (w : Width) (row : List UInt8) (i : Nat) :
    wordAt w row i = UInt64.ofNat (value (slice (fun i => row.getD i 0) i w.bytes)) := by
  rw [value_slice_getD]
  rfl

theorem wordAt_drop (w : Width) (row : List UInt8) (i j : Nat) :
    wordAt w (row.drop i) j = wordAt w row (i + j) := by
  rw [wordAt, List.drop_drop]
  rfl

/-- A word that ends within the front of a row is a word of that front. -/
theorem wordAt_take {w : Width} {row : List UInt8} {i n : Nat} (h : i + w.bytes ≤ n) :
    wordAt w (row.take n) i = wordAt w row i := by
  rw [wordAt, List.drop_take, List.take_take, Nat.min_eq_left (by omega)]
  rfl

theorem wordAt_append_zeros (w : Width) (row : List UInt8) (k i : Nat) :
    wordAt w (row ++ List.replicate k 0) i = wordAt w row i := by
  have hbyte : ∀ j, (row ++ List.replicate k 0).getD j 0 = row.getD j 0 := by
    intro j
    rw [List.getD_eq_getElem?_getD, List.getD_eq_getElem?_getD, List.getElem?_append]
    split
    · rfl
    · rename_i hj
      rw [List.getElem?_eq_none (Nat.not_lt.1 hj), List.getElem?_replicate]
      split <;> rfl
  rw [wordAt_eq, wordAt_eq, slice_congr fun j _ _ => hbyte j]

end Bytes

theorem getD_toList (a : Array UInt8) (i : Nat) : a.toList.getD i 0 = a.getD i 0 := by
  rw [Array.getD_eq_getD_getElem?, List.getD_eq_getElem?_getD, Array.getElem?_toList]

theorem tableWord_eq_wordAt (a : Array UInt8) (w : Width) {p : UInt64} {i : Nat}
    (hp : p.toNat = i) : tableWord a w p = Bytes.wordAt w a.toList i := by
  rw [Bytes.wordAt_eq, Bytes.slice_congr fun j _ _ => getD_toList a j, tableWord, hp]
  rfl

theorem tableWord_ofNat (a : Array UInt8) (w : Width) {i : Nat} (hi : i < 2 ^ 64) :
    tableWord a w (UInt64.ofNat i) = Bytes.wordAt w a.toList i :=
  tableWord_eq_wordAt a w (UInt64.toNat_ofNat_of_lt' hi)

end Fingerprint
