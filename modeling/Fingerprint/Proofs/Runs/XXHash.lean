import Fingerprint.XXHash
import Fingerprint.Proofs.Runs.Loops

/-!
# What xxHash takes in

Whole stripes come first, one after another. What is left is taken in by pieces: whole words, half a
word if that many bytes are left, and single bytes. So the body is a fold over stripes and then a fold
over pieces.
-/

namespace Fingerprint.XXHash
open Plan
set_option autoImplicit false

/-- What is taken in at once after the stripes: a word, half a word or a byte, from some place on. -/
inductive Piece where
  | word (start : Nat)
  | half (start : Nat)
  | byte (start : Nat)
deriving DecidableEq

variable (read : Width → UInt64 → UInt64)

namespace Piece

@[simp] def start : Piece → Nat
  | word p => p
  | half p => p
  | byte p => p

@[simp] def width : Piece → Width
  | word _ => .eight
  | half _ => .four
  | byte _ => .one

/-- The piece has byte `i` of the range. -/
def Has (q : Piece) (i : Nat) : Prop := q.start ≤ i ∧ i < q.start + q.width.bytes

/-- Takes in the word that was read. -/
def takeWord : Piece → UInt64 → UInt64 → UInt64
  | word _, x, h => takeU64 h x
  | half _, x, h => takeU32 h x.toUInt32
  | byte _, x, h => takeU8 h x.toUInt8

def take (q : Piece) : UInt64 → UInt64 := q.takeWord (read q.width (UInt64.ofNat q.start))

end Piece

/-- The pieces of what `n` bytes leave after whole stripes, in the order they are taken in. -/
def pieces (n : Nat) : List Piece :=
  (List.range (n % 32 / 8)).map (fun i => .word (n / 32 * 32 + i * 8)) ++
    (if 4 ≤ n % 8 then [.half (n / 8 * 8)] else []) ++
      (List.range (n % 4)).map fun i => .byte (n / 4 * 4 + i)

/-- What `n` bytes come to by their whole stripes. -/
def striped (seed : UInt64) (n : Nat) : UInt64 :=
  if 32 ≤ n then
    ((List.range (n / 32)).foldl
      (fun s i => (Lanes.take (UInt64.ofNat (i * 32)) s).run read) (Lanes.start seed)).merge
  else shortStart seed

theorem run_stripes (seed len : UInt64) :
    (stripes seed len).run read =
      (UInt64.ofNat (len.toNat / 32 * 32), striped read seed len.toNat) := by
  rw [stripes, striped, run_ite]
  have hle : 32 ≤ len ↔ 32 ≤ len.toNat := UInt64.le_iff_toNat_le
  by_cases hlong : 32 ≤ len.toNat
  · have hcount : (len.toNat - (0 : UInt64).toNat) / Stride.stripe.step.toNat = len.toNat / 32 := rfl
    rw [if_pos (hle.2 hlong), if_pos hlong, run_bind,
      run_strides_eq_rounds read _ _ _ .stripe rfl (Nat.zero_le _) hcount, run_rounds_eq_foldl]
    simp only [UInt64.zero_add, UInt64.ofNat_mul]
    rfl
  · rw [if_neg (mt hle.1 hlong), if_neg hlong, Nat.div_eq_of_lt (by omega)]
    rfl

/-! ## What is left -/

section
variable (len h : UInt64)

theorem run_words :
    (strides .word len (fun p h => do return takeU64 h (← u64 p))
      (UInt64.ofNat (len.toNat / 32 * 32)) h).run read =
        (UInt64.ofNat (len.toNat / 8 * 8),
          ((List.range (len.toNat % 32 / 8)).map fun i =>
            Piece.word (len.toNat / 32 * 32 + i * 8)).foldl (fun h q => q.take read h) h) := by
  have hstart := toNat_ofNat_le len (n := len.toNat / 32 * 32) (by omega)
  have hcount : (len.toNat - (UInt64.ofNat (len.toNat / 32 * 32)).toNat) / Stride.word.step.toNat =
      len.toNat % 32 / 8 := by
    rw [hstart]
    change _ / 8 = _
    omega
  have hplace : ∀ i, UInt64.ofNat (len.toNat / 32 * 32) + UInt64.ofNat i * Stride.word.step =
      UInt64.ofNat (len.toNat / 32 * 32 + i * 8) := by
    intro i
    rw [UInt64.ofNat_add, UInt64.ofNat_mul i]
    rfl
  have hend : len.toNat / 32 * 32 + len.toNat % 32 / 8 * 8 = len.toNat / 8 * 8 := by omega
  rw [run_strides_eq_rounds read _ _ _ .word rfl (by omega) hcount, run_rounds_eq_foldl, hplace,
    hend, List.foldl_map]
  simp only [hplace]
  rfl

theorem run_half :
    (piece len 4 (fun p h => do return takeU32 h (← u32 p))
      (UInt64.ofNat (len.toNat / 8 * 8)) h).run read =
        (UInt64.ofNat (len.toNat / 4 * 4),
          (if 4 ≤ len.toNat % 8 then [Piece.half (len.toNat / 8 * 8)] else []).foldl
            (fun h q => q.take read h) h) := by
  have hstart := toNat_ofNat_le len (n := len.toNat / 8 * 8) (by omega)
  have hle : UInt64.ofNat (len.toNat / 8 * 8) ≤ len := UInt64.le_iff_toNat_le.2 (by omega)
  have hfits : 4 ≤ len - UInt64.ofNat (len.toNat / 8 * 8) ↔ 4 ≤ len.toNat % 8 := by
    rw [UInt64.le_iff_toNat_le, UInt64.toNat_sub_of_le _ _ hle, hstart]
    change 4 ≤ _ ↔ _
    omega
  rw [run_piece]
  by_cases hfour : 4 ≤ len.toNat % 8
  · have hend : len.toNat / 4 * 4 = len.toNat / 8 * 8 + 4 := by omega
    rw [if_pos (hfits.2 hfour), if_pos hfour, hend, UInt64.ofNat_add]
    rfl
  · have hend : len.toNat / 4 * 4 = len.toNat / 8 * 8 := by omega
    rw [if_neg (mt hfits.1 hfour), if_neg hfour, hend]
    rfl

theorem run_bytes :
    (range (UInt64.ofNat (len.toNat / 4 * 4)) len
      (fun p h => do return takeU8 h (← u8 p)) h).run read =
        ((List.range (len.toNat % 4)).map fun i =>
          Piece.byte (len.toNat / 4 * 4 + i)).foldl (fun h q => q.take read h) h := by
  have hstart := toNat_ofNat_le len (n := len.toNat / 4 * 4) (by omega)
  have hcount : len.toNat - (UInt64.ofNat (len.toNat / 4 * 4)).toNat = len.toNat % 4 := by
    omega
  rw [run_range_from_eq_foldl, hcount, List.foldl_map]
  simp only [← UInt64.ofNat_add]
  rfl

theorem run_rest :
    (rest len (UInt64.ofNat (len.toNat / 32 * 32)) h).run read =
      (pieces len.toNat).foldl (fun h q => q.take read h) h := by
  rw [rest, run_bind, run_words, run_bind, run_half, run_bytes, pieces, List.foldl_append,
    List.foldl_append]

end

/-- Stripes and then pieces, whatever the words are read from. -/
theorem run_body (seed len : UInt64) :
    (body seed len).run read =
      avalanche ((pieces len.toNat).foldl (fun h q => q.take read h)
        (striped read seed len.toNat + len)) := by
  rw [body, run_bind, run_stripes, run_bind, run_rest]
  rfl

end Fingerprint.XXHash
