import Fingerprint.Proofs.Definitions.Rows
import Fingerprint.Proofs.Injective.XXHash

/-!
# xxHash lane by lane

The definition goes over the bytes in a row. Each of the four lanes takes in a word of every whole
stripe, and none of the others; then they are merged. What the stripes leave is as many whole words,
half words and single bytes as its length says. The function, which moves a cursor over all four lanes
at once and then looks how much is left, comes to the same.
-/

namespace Fingerprint.XXHash
open Bytes HashFunction Plan
set_option autoImplicit false

/-! ## The definition -/

/-- Lane `j` by itself: of each whole stripe it takes in the word from byte `8 * j` on. -/
def lane (row : List UInt8) (j : Nat) (start : UInt64) : UInt64 :=
  (List.range (row.length / 32)).foldl
    (fun acc k => round acc (wordAt .eight row (32 * k + 8 * j))) start

/-- All four lanes in one word. -/
def merged (seed : UInt64) (row : List UInt8) : UInt64 :=
  let v1 := lane row 0 (seed + prime1 + prime2)
  let v2 := lane row 1 (seed + prime2)
  let v3 := lane row 2 seed
  let v4 := lane row 3 (seed - prime1)
  [v1, v2, v3, v4].foldl mergeRound
    (rotateLeft v1 1 + rotateLeft v2 7 + rotateLeft v3 12 + rotateLeft v4 18)

def accumulator (seed : UInt64) (row : List UInt8) : UInt64 :=
  if 32 ≤ row.length then merged seed row else seed + prime5

/-- Takes in the whole words after the stripes. -/
def takeWords (row : List UInt8) (h : UInt64) : UInt64 :=
  (List.range (row.length % 32 / 8)).foldl
    (fun h i => takeU64 h (wordAt .eight row (row.length / 32 * 32 + 8 * i))) h

/-- Takes in half a word after the whole ones, if there is one. -/
def takeHalf (row : List UInt8) (h : UInt64) : UInt64 :=
  if 4 ≤ row.length % 8 then takeU32 h (wordAt .four row (row.length / 8 * 8)).toUInt32 else h

/-- Takes in the single bytes at the end. -/
def takeBytes (row : List UInt8) (h : UInt64) : UInt64 :=
  (row.drop (row.length - row.length % 4)).foldl takeU8 h

def ofLanes (seed : UInt64) (row : List UInt8) : UInt64 :=
  avalanche (takeBytes row (takeHalf row (takeWords row
    (accumulator seed row + UInt64.ofNat row.length))))

/-! ## Stripes -/

/-- To take words into four lanes at once, time and again, is to do so in each. -/
theorem foldl_lanes (word : Nat → Nat → UInt64) (l : List Nat) (s : Lanes) :
    l.foldl (fun s k => ⟨round s.v1 (word 0 k), round s.v2 (word 1 k), round s.v3 (word 2 k),
      round s.v4 (word 3 k)⟩) s =
        ⟨l.foldl (fun acc k => round acc (word 0 k)) s.v1,
          l.foldl (fun acc k => round acc (word 1 k)) s.v2,
          l.foldl (fun acc k => round acc (word 2 k)) s.v3,
          l.foldl (fun acc k => round acc (word 3 k)) s.v4⟩ := by
  induction l generalizing s with
  | nil => rfl
  | cons k l ih => exact ih _

section
variable {a : Array UInt8} (hsize : a.size < 2 ^ 64)
include hsize

theorem run_take_stripe {k : Nat} (hk : k < a.size / 32) (s : Lanes) :
    let word (j : Nat) := wordAt .eight a.toList (32 * k + 8 * j)
    (Lanes.take (UInt64.ofNat (k * 32)) s).run (tableWord a) =
      ⟨round s.v1 (word 0), round s.v2 (word 1), round s.v3 (word 2), round s.v4 (word 3)⟩ := by
  intro word
  have hword : ∀ j < 4,
      tableWord a .eight (UInt64.ofNat (k * 32) + UInt64.ofNat (8 * j)) = word j := by
    intro j hj
    rw [← UInt64.ofNat_add, tableWord_ofNat a .eight (by omega), Nat.mul_comm k]
  rw [← hword 0 (by decide), ← hword 1 (by decide), ← hword 2 (by decide), ← hword 3 (by decide)]
  change _ = Lanes.mk (round s.v1 (tableWord a .eight (UInt64.ofNat (k * 32) + 0))) _ _ _
  rw [UInt64.add_zero]
  rfl

theorem striped_eq_accumulator (seed : UInt64) :
    striped (tableWord a) seed a.size = accumulator seed a.toList := by
  have hlanes : (List.range (a.size / 32)).foldl
      (fun s k => (Lanes.take (UInt64.ofNat (k * 32)) s).run (tableWord a)) (Lanes.start seed) =
        ⟨lane a.toList 0 (seed + prime1 + prime2), lane a.toList 1 (seed + prime2),
          lane a.toList 2 seed, lane a.toList 3 (seed - prime1)⟩ := by
    refine Eq.trans ?_ (foldl_lanes (fun j k => wordAt .eight a.toList (32 * k + 8 * j))
      (List.range (a.size / 32)) (Lanes.start seed))
    apply List.foldl_ext
    intro s k hk
    exact run_take_stripe hsize (List.mem_range.1 hk) s
  rw [striped, hlanes, accumulator, Array.length_toList]
  rfl

/-! ## What is left -/

theorem foldl_words (h : UInt64) :
    ((List.range (a.size % 32 / 8)).map fun i => Piece.word (a.size / 32 * 32 + i * 8)).foldl
      (fun h q => q.take (tableWord a) h) h = takeWords a.toList h := by
  rw [List.foldl_map, takeWords, Array.length_toList]
  apply List.foldl_ext
  intro h i hi
  have hi := List.mem_range.1 hi
  change takeU64 h (tableWord a .eight (UInt64.ofNat (a.size / 32 * 32 + i * 8))) = _
  rw [tableWord_ofNat a .eight (by omega), Nat.mul_comm i]

theorem foldl_half (h : UInt64) :
    (if 4 ≤ a.size % 8 then [Piece.half (a.size / 8 * 8)] else []).foldl
      (fun h q => q.take (tableWord a) h) h = takeHalf a.toList h := by
  rw [takeHalf, Array.length_toList]
  by_cases hhalf : 4 ≤ a.size % 8
  · rw [if_pos hhalf, if_pos hhalf, ← tableWord_ofNat a .four (by omega)]
    rfl
  · rw [if_neg hhalf, if_neg hhalf]
    rfl

theorem foldl_bytes (h : UInt64) :
    ((List.range (a.size % 4)).map fun i => Piece.byte (a.size / 4 * 4 + i)).foldl
      (fun h q => q.take (tableWord a) h) h = takeBytes a.toList h := by
  have hstart : a.size / 4 * 4 = a.size - a.size % 4 := by omega
  have hcount : a.size - (a.size - a.size % 4) = a.size % 4 := by omega
  rw [takeBytes, ← map_getD_range, Array.length_toList, hcount, hstart, List.foldl_map,
    List.foldl_map]
  apply List.foldl_ext
  intro h i hi
  have hi := List.mem_range.1 hi
  have hplace : (UInt64.ofNat (a.size - a.size % 4 + i)).toNat = a.size - a.size % 4 + i :=
    UInt64.toNat_ofNat_of_lt' (show a.size - a.size % 4 + i < 2 ^ 64 by omega)
  change takeU8 h (tableWord a .one (UInt64.ofNat (a.size - a.size % 4 + i))).toUInt8 = _
  rw [toUInt8_tableWord, hplace, getD_toList]

end

/-- The digest of bytes in a row is what its definition says, four lanes and then what they leave. -/
theorem ofBytes_eq_ofLanes (f : XXHash) {a : Array UInt8} (hsize : a.size < 2 ^ 64) :
    ofBytes f a = ofLanes f.seed a.toList := by
  rw [ofBytes_eq_foldl f hsize, pieces, List.foldl_append, List.foldl_append, foldl_words hsize,
    foldl_half hsize, foldl_bytes hsize, striped_eq_accumulator hsize, ofLanes,
    Array.length_toList]

theorem ofBytes_eq_ofLanes_fortyFive :
    ofBytes (ofSeed 7) (Array.replicate 45 1) = ofLanes 7 (List.replicate 45 1) :=
  ofBytes_eq_ofLanes (ofSeed 7) (by decide)

example : ofLanes 0 [97, 98, 99] = 0x44bc2cf5ad770999 := by decide

end Fingerprint.XXHash
