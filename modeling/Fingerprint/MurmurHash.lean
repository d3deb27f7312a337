import Fingerprint.Algorithm
import Fingerprint.Digest
import Fingerprint.Function.Basic
import Fingerprint.Plan.Loop
import Fingerprint.Word.Mix

/-!
# MurmurHash3, the 128-bit function on 64-bit words

Two lanes start at the seed, take in blocks of 16 bytes, then the rest of at most 15 bytes, and are
finished with the length.
-/

namespace Fingerprint
set_option autoImplicit false

structure MurmurHash where
  seed : UInt64
deriving DecidableEq

namespace MurmurHash
open Plan

def unseeded : MurmurHash := ⟨0⟩
def ofSeed (seed : UInt64) : MurmurHash := ⟨seed⟩

instance : Inhabited MurmurHash := ⟨unseeded⟩

def c1 : UInt64 := 0x87c37b91114253d5
def c2 : UInt64 := 0x4cf5ad432745937f

structure State where
  h1 : UInt64
  h2 : UInt64

/-- The finishing mix of one lane. -/
def avalanche (k : UInt64) : UInt64 :=
  let k := xorShift k 33 * 0xff51afd7ed558ccd
  let k := xorShift k 33 * 0xc4ceb9fe1a85ec53
  xorShift k 33

def scramble1 (k : UInt64) : UInt64 := rotateLeft (k * c1) 31 * c2

def scramble2 (k : UInt64) : UInt64 := rotateLeft (k * c2) 33 * c1

def start (seed : UInt64) : State := ⟨seed, seed⟩

def block (k1 k2 : UInt64) (s : State) : State :=
  let h1 := (rotateLeft (s.h1 ^^^ scramble1 k1) 27 + s.h2) * 5 + 0x52dce729
  let h2 := (rotateLeft (s.h2 ^^^ scramble2 k2) 31 + h1) * 5 + 0x38495ab5
  ⟨h1, h2⟩

def round (i : UInt64) (s : State) : Plan State := do
  let p ← mul i 16
  return block (← u64 p) (← u64 (← add p 8)) s

/-- The little-endian number of `n` single bytes from `p` on, at most eight. -/
def partialWord (p n : UInt64) : Plan UInt64 :=
  demand (n ≤ 8) <| range 0 n (fun i word => do
    return word ||| ((← u8 (← add p i)).toUInt64 <<< (← mul 8 i))) 0

def takePartial (scramble : UInt64 → UInt64) (p n lane : UInt64) : Plan UInt64 := do
  return lane ^^^ scramble (← partialWord p n)

/-- Takes in the first eight of the `rest` bytes from `p` on, as many of them as there are. -/
def takeFirst (p rest lane : UInt64) : Plan UInt64 :=
  if 0 < rest then takePartial scramble1 p (min rest 8) lane else pure lane

/-- Takes in those of the `rest` bytes from `p` on that follow the eighth. -/
def takeSecond (p rest lane : UInt64) : Plan UInt64 := do
  if 8 < rest then takePartial scramble2 (← add p 8) (← sub rest 8) lane else pure lane

def tail (p rest : UInt64) (s : State) : Plan State := do
  let h2 ← takeSecond p rest s.h2
  let h1 ← takeFirst p rest s.h1
  return ⟨h1, h2⟩

def finish (len : UInt64) (s : State) : Digest128 :=
  let h1 := s.h1 ^^^ len
  let h2 := s.h2 ^^^ len
  let h1 := h1 + h2
  let h2 := h2 + h1
  let h1 := avalanche h1
  let h2 := avalanche h2
  let h1 := h1 + h2
  let h2 := h2 + h1
  ⟨h1, h2⟩

def body (seed len : UInt64) : Plan Digest128 := do
  let blocks := len / 16
  let s ← range 0 blocks round (start seed)
  let p ← mul blocks 16
  let s ← tail p (← sub len p) s
  return finish len s

/-- The digest of at most eight bytes whose little-endian number is `k`. -/
def ofWord (seed k len : UInt64) : Digest128 := finish len ⟨seed ^^^ scramble1 k, seed⟩

/-! ## The function -/

instance : HashFunction MurmurHash Digest128 where
  name _ := Algorithm.murmurHash.name
  body f := body f.seed
  void f := finish 0 (start f.seed)
  ofU8 f v := ofWord f.seed v.toUInt64 1
  ofU16 f v := ofWord f.seed v.toUInt64 2
  ofU32 f v := ofWord f.seed v.toUInt64 4
  ofU64 f v := ofWord f.seed v 8

end MurmurHash

end Fingerprint
