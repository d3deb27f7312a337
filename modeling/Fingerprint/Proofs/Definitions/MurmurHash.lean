import Fingerprint.Proofs.Definitions.Rows
import Fingerprint.Proofs.Runs.MurmurBlocks

/-!
# MurmurHash by its blocks

The definition goes over the bytes in a row. It takes in each whole block of sixteen bytes as two
words, then two words more of what is left, filled up with zeros to a block, and finishes with the
length. The function, which reads what is left byte by byte and not at all where there is none, comes
to the same.
-/

namespace Fingerprint.MurmurHash
open Bytes HashFunction Plan
set_option autoImplicit false

/-! ## The definition -/

/-- The whole blocks of sixteen bytes, from the front on. -/
def wholeBlocks (row : List UInt8) : List (List UInt8) :=
  (List.range (row.length / 16)).map fun i => (row.drop (16 * i)).take 16

/-- What the whole blocks leave, filled up with zeros to sixteen bytes. -/
def paddedRest (row : List UInt8) : List UInt8 :=
  let rest := row.drop (16 * (row.length / 16))
  rest ++ List.replicate (16 - rest.length) 0

/-- The state after the whole blocks. -/
def afterBlocks (seed : UInt64) (row : List UInt8) : State :=
  (wholeBlocks row).foldl (fun s b => block (wordAt .eight b 0) (wordAt .eight b 8) s) (start seed)

def ofBlocks (seed : UInt64) (row : List UInt8) : Digest128 :=
  let rest := paddedRest row
  finish (UInt64.ofNat row.length)
    (takeRest (wordAt .eight rest 0) (wordAt .eight rest 8) (afterBlocks seed row))

/-! ## Blocks and rest as words of the row -/

section
variable (row : List UInt8)

theorem wholeBlocks_take {n : Nat} (hn : n ≤ row.length / 16) :
    wholeBlocks (row.take (16 * n)) = (List.range n).map fun i => (row.drop (16 * i)).take 16 := by
  have hlength : (row.take (16 * n)).length / 16 = n := by
    rw [List.length_take]
    omega
  rw [wholeBlocks, hlength]
  apply List.map_congr_left
  intro i hi
  have hi := List.mem_range.1 hi
  rw [List.drop_take, List.take_take, Nat.min_eq_left (by omega)]

theorem afterBlocks_take (seed : UInt64) {n : Nat} (hn : n ≤ row.length / 16) :
    afterBlocks seed (row.take (16 * n)) = (List.range n).foldl (fun s i =>
      block (wordAt .eight row (16 * i)) (wordAt .eight row (16 * i + 8)) s) (start seed) := by
  rw [afterBlocks, wholeBlocks_take row hn, List.foldl_map]
  apply List.foldl_ext
  intro s i _
  rw [wordAt_take (by decide), wordAt_take (by decide), wordAt_drop, wordAt_drop, Nat.add_zero]

theorem afterBlocks_take_whole (seed : UInt64) :
    afterBlocks seed (row.take (16 * (row.length / 16))) = afterBlocks seed row := by
  rw [afterBlocks, wholeBlocks_take row (Nat.le_refl _)]
  rfl

theorem wordAt_paddedRest (i : Nat) :
    wordAt .eight (paddedRest row) i = wordAt .eight row (16 * (row.length / 16) + i) := by
  rw [paddedRest, wordAt_append_zeros, wordAt_drop]

end

/-! ## The function -/

section
variable {a : Array UInt8}

theorem firstWordAt_eq_wordAt {i : Nat} (hi : i ≤ a.size / 16) (hsize : a.size < 2 ^ 64) :
    firstWordAt a i = wordAt .eight a.toList (16 * i) :=
  tableWord_eq_wordAt a .eight (toNat_place hi hsize).1

theorem secondWordAt_eq_wordAt {i : Nat} (hi : i ≤ a.size / 16) (hsize : a.size < 2 ^ 64) :
    secondWordAt a i = wordAt .eight a.toList (16 * i + 8) :=
  tableWord_eq_wordAt a .eight (toNat_place hi hsize).2

/-- The loop over the first `n` blocks of an array. -/
theorem run_rounds_eq_afterBlocks (seed : UInt64) {n : Nat} (hn : n ≤ a.size / 16)
    (hsize : a.size < 2 ^ 64) : (range 0 (UInt64.ofNat n) round (start seed)).run (tableWord a) =
      afterBlocks seed (a.toList.take (16 * n)) := by
  have hcount : (UInt64.ofNat n).toNat = n := UInt64.toNat_ofNat_of_lt' (show n < 2 ^ 64 by omega)
  rw [run_range_eq_foldl, hcount, afterBlocks_take a.toList seed hn]
  apply List.foldl_ext
  intro s i hi
  have hi : i ≤ a.size / 16 := Nat.le_trans (Nat.le_of_lt (List.mem_range.1 hi)) hn
  rw [← firstWordAt_eq_wordAt hi hsize, ← secondWordAt_eq_wordAt hi hsize]
  rfl

theorem absorbed_eq_takeRest (seed : UInt64) (hsize : a.size < 2 ^ 64) :
    absorbed seed a = takeRest (wordAt .eight (paddedRest a.toList) 0)
      (wordAt .eight (paddedRest a.toList) 8) (afterBlocks seed a.toList) := by
  have hblocks : (List.range (a.size / 16)).foldl (fun s i => absorb a i s) (start seed) =
      afterBlocks seed a.toList :=
    (run_blocks seed hsize).symm.trans
      ((run_rounds_eq_afterBlocks seed (Nat.le_refl _) hsize).trans
        (afterBlocks_take_whole a.toList seed))
  have hlast := Nat.le_refl (a.size / 16)
  rw [absorbed, List.range_succ, List.foldl_append, hblocks, List.foldl_cons, List.foldl_nil,
    absorb, if_neg (Nat.lt_irrefl _), wordAt_paddedRest, wordAt_paddedRest,
    firstWordAt_eq_wordAt hlast hsize, secondWordAt_eq_wordAt hlast hsize]
  rfl

end

/-- The digest of an array is that of its bytes in a row by the definition, and the loop over any
number of its whole blocks comes to the state that the bytes of these blocks make. -/
theorem ofBytes_eq_ofBlocks (f : MurmurHash) {a : Array UInt8} (hsize : a.size < 2 ^ 64) :
    ofBytes f a = ofBlocks f.seed a.toList ∧
      ∀ n ≤ a.size / 16, (range 0 (UInt64.ofNat n) round (start f.seed)).run (tableWord a) =
        afterBlocks f.seed (a.toList.take (16 * n)) := by
  refine ⟨?_, fun n hn => run_rounds_eq_afterBlocks f.seed hn hsize⟩
  rw [ofBytes_eq_finish f hsize, absorbed_eq_takeRest f.seed hsize]
  rfl

/-- Two blocks and nine bytes, the last of which lies in the second word of the rest. -/
theorem ofBytes_eq_ofBlocks_fortyOne :
    ofBytes (ofSeed 7) (Array.replicate 41 1) = ofBlocks 7 (List.replicate 41 1) ∧
      (range 0 2 round (start 7)).run (tableWord (Array.replicate 41 1)) =
        afterBlocks 7 (List.replicate 32 1) := by
  obtain ⟨hdigest, hblocks⟩ := ofBytes_eq_ofBlocks (ofSeed 7) (a := Array.replicate 41 1) (by decide)
  exact ⟨hdigest, hblocks 2 (by decide)⟩

example : ofBlocks 0 [104, 101, 108, 108, 111] = ⟨0xcbd8a7b341bd9b02, 0x5b1e906a48ae1d19⟩ := by
  decide +kernel

end Fingerprint.MurmurHash
