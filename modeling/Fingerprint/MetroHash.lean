import Fingerprint.Algorithm
import Fingerprint.Function.Basic
import Fingerprint.Plan.Loop
import Fingerprint.Word.Mix

/-!
# MetroHash64

Four lanes take in stripes of 32 bytes; what is left goes in by 16, 8, 4, 2 and 1 bytes, each at
most once.
-/

namespace Fingerprint
set_option autoImplicit false

structure MetroHash where
  seed : UInt64
deriving DecidableEq

namespace MetroHash
open Plan

def unseeded : MetroHash := ⟨0⟩
def ofSeed (seed : UInt64) : MetroHash := ⟨seed⟩

instance : Inhabited MetroHash := ⟨unseeded⟩

def k0 : UInt64 := 0xD6D018F5
def k1 : UInt64 := 0xA2AA033B
def k2 : UInt64 := 0x62992FC1
def k3 : UInt64 := 0x30BC5B29

def start (seed : UInt64) : UInt64 := (seed + k2) * k0

/-- Takes in one word; `k` is the rotation that belongs to its width. -/
def take (k h word : UInt64) : UInt64 :=
  let h := h + word * k3
  h ^^^ rotateRight h k * k1

def takeU64 (h word : UInt64) : UInt64 := take 55 h word
def takeU32 (h : UInt64) (word : UInt32) : UInt64 := take 26 h word.toUInt64
def takeU16 (h : UInt64) (word : UInt16) : UInt64 := take 48 h word.toUInt64
def takeU8 (h : UInt64) (byte : UInt8) : UInt64 := take 37 h byte.toUInt64

def finish (h : UInt64) : UInt64 :=
  let h := (h ^^^ rotateRight h 28) * k0
  h ^^^ rotateRight h 29

structure Lanes where
  v0 : UInt64
  v1 : UInt64
  v2 : UInt64
  v3 : UInt64

namespace Lanes

def start (h : UInt64) : Lanes := ⟨h, h, h, h⟩

/-- Takes in four words, each lane after the two it leans on. -/
def mix (a b c d : UInt64) (s : Lanes) : Lanes :=
  let v0 := rotateRight (s.v0 + a * k0) 29 + s.v2
  let v1 := rotateRight (s.v1 + b * k1) 29 + s.v3
  let v2 := rotateRight (s.v2 + c * k2) 29 + v0
  let v3 := rotateRight (s.v3 + d * k3) 29 + v1
  ⟨v0, v1, v2, v3⟩

def take (p : UInt64) (s : Lanes) : Plan Lanes := do
  return mix (← u64 p) (← u64 (← add p 8)) (← u64 (← add p 16)) (← u64 (← add p 24)) s

def merge (s : Lanes) : UInt64 :=
  let v2 := s.v2 ^^^ rotateRight ((s.v0 + s.v3) * k0 + s.v1) 37 * k1
  let v3 := s.v3 ^^^ rotateRight ((s.v1 + v2) * k1 + s.v0) 37 * k0
  let v0 := s.v0 ^^^ rotateRight ((s.v0 + v2) * k0 + v3) 37 * k1
  let v1 := s.v1 ^^^ rotateRight ((s.v1 + v3) * k1 + v2) 37 * k0
  v0 ^^^ v1

end Lanes

def takePair (h a b : UInt64) : UInt64 :=
  let v0 := rotateRight (h + a * k2) 29 * k3
  let v1 := rotateRight (h + b * k2) 29 * k3
  let v0 := v0 ^^^ (rotateRight (v0 * k0) 21 + v1)
  let v1 := v1 ^^^ (rotateRight (v1 * k3) 21 + v0)
  h + v1

/-- Takes in all whole stripes; returns where the rest begins. -/
def stripes (len h : UInt64) : Plan (UInt64 × UInt64) :=
  if 32 ≤ len then do
    let (p, lanes) ← strides .stripe len Lanes.take 0 (Lanes.start h)
    return (p, h + lanes.merge)
  else
    return (0, h)

def body (seed len : UInt64) : Plan UInt64 := do
  let (p, h) ← stripes len (start seed)
  let (p, h) ← piece len 16 (fun p h => do return takePair h (← u64 p) (← u64 (← add p 8))) p h
  let (p, h) ← piece len 8 (fun p h => do return takeU64 h (← u64 p)) p h
  let (p, h) ← piece len 4 (fun p h => do return takeU32 h (← u32 p)) p h
  let (p, h) ← piece len 2 (fun p h => do return takeU16 h (← u16 p)) p h
  let (_, h) ← piece len 1 (fun p h => do return takeU8 h (← u8 p)) p h
  return finish h

/-! ## The function -/

instance : HashFunction MetroHash UInt64 where
  name _ := Algorithm.metroHash.name
  body f := body f.seed
  void f := finish (start f.seed)
  ofU8 f v := finish (takeU8 (start f.seed) v)
  ofU16 f v := finish (takeU16 (start f.seed) v)
  ofU32 f v := finish (takeU32 (start f.seed) v)
  ofU64 f v := finish (takeU64 (start f.seed) v)

end MetroHash

end Fingerprint
