import Fingerprint.Algorithm
import Fingerprint.Function.Basic
import Fingerprint.Plan.Loop
import Fingerprint.Word.Mix

/-!
# xxHash, the 64-bit function

Four lanes take in stripes of 32 bytes and are merged; shorter ranges start from the seed. The rest
is taken in by words of eight bytes, at most one of four, and single bytes.
-/

namespace Fingerprint
set_option autoImplicit false

structure XXHash where
  seed : UInt64
deriving DecidableEq

namespace XXHash
open Plan

def unseeded : XXHash := ⟨0⟩
def ofSeed (seed : UInt64) : XXHash := ⟨seed⟩

instance : Inhabited XXHash := ⟨unseeded⟩

def prime1 : UInt64 := 0x9E3779B185EBCA87
def prime2 : UInt64 := 0xC2B2AE3D27D4EB4F
def prime3 : UInt64 := 0x165667B19E3779F9
def prime4 : UInt64 := 0x85EBCA77C2B2AE63
def prime5 : UInt64 := 0x27D4EB2F165667C5

def round (acc word : UInt64) : UInt64 := rotateLeft (acc + word * prime2) 31 * prime1

def mergeRound (acc lane : UInt64) : UInt64 := (acc ^^^ round 0 lane) * prime1 + prime4

def avalanche (h : UInt64) : UInt64 :=
  let h := xorShift h 33 * prime2
  let h := xorShift h 29 * prime3
  xorShift h 32

def takeU64 (h word : UInt64) : UInt64 :=
  rotateLeft (h ^^^ round 0 word) 27 * prime1 + prime4

def takeU32 (h : UInt64) (word : UInt32) : UInt64 :=
  rotateLeft (h ^^^ word.toUInt64 * prime1) 23 * prime2 + prime3

def takeU8 (h : UInt64) (byte : UInt8) : UInt64 :=
  rotateLeft (h ^^^ byte.toUInt64 * prime5) 11 * prime1

structure Lanes where
  v1 : UInt64
  v2 : UInt64
  v3 : UInt64
  v4 : UInt64

namespace Lanes

def start (seed : UInt64) : Lanes := ⟨seed + prime1 + prime2, seed + prime2, seed, seed - prime1⟩

/-- Takes in the 32 bytes at `p`, one word per lane. -/
def take (p : UInt64) (s : Lanes) : Plan Lanes := do
  return ⟨round s.v1 (← u64 p), round s.v2 (← u64 (← add p 8)), round s.v3 (← u64 (← add p 16)),
    round s.v4 (← u64 (← add p 24))⟩

def merge (s : Lanes) : UInt64 :=
  let h := rotateLeft s.v1 1 + rotateLeft s.v2 7 + rotateLeft s.v3 12 + rotateLeft s.v4 18
  mergeRound (mergeRound (mergeRound (mergeRound h s.v1) s.v2) s.v3) s.v4

end Lanes

/-- Where a range shorter than one stripe starts. -/
def shortStart (seed : UInt64) : UInt64 := seed + prime5

/-- Takes in all whole stripes; returns where the rest begins. -/
def stripes (seed len : UInt64) : Plan (UInt64 × UInt64) :=
  if 32 ≤ len then do
    let (p, lanes) ← strides .stripe len Lanes.take 0 (Lanes.start seed)
    return (p, lanes.merge)
  else
    return (0, shortStart seed)

/-- Takes in what is left from `p` on: whole words, half a word, single bytes. -/
def rest (len p h : UInt64) : Plan UInt64 := do
  let (p, h) ← strides .word len
    (fun p h => do return takeU64 h (← u64 p)) p h
  let (p, h) ← piece len 4 (fun p h => do return takeU32 h (← u32 p)) p h
  range p len (fun p h => do return takeU8 h (← u8 p)) h

def body (seed len : UInt64) : Plan UInt64 := do
  let (p, h) ← stripes seed len
  return avalanche (← rest len p (h + len))

/-! ## The function -/

instance : HashFunction XXHash UInt64 where
  name _ := Algorithm.xxHash.name
  body f := body f.seed
  void f := avalanche (shortStart f.seed)
  ofU8 f v := avalanche (takeU8 (shortStart f.seed + 1) v)
  ofU16 f v := avalanche (takeU8 (takeU8 (shortStart f.seed + 2) v.toUInt8) (v >>> 8).toUInt8)
  ofU32 f v := avalanche (takeU32 (shortStart f.seed + 4) v)
  ofU64 f v := avalanche (takeU64 (shortStart f.seed + 8) v)

end XXHash

end Fingerprint
