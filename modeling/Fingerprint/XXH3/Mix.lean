import Fingerprint.Plan.Loop
import Fingerprint.XXHash
import Fingerprint.XXH3.Secret

/-!
# The mixing steps of XXH3

The finishing mixes, the keyed mix of 16 bytes, and the walk over ranges of 17 to 128 bytes, which
takes pieces from the front and the back at once. The 64-bit and the 128-bit function share them.
-/

namespace Fingerprint.XXH3
open Plan
set_option autoImplicit false

def prime32_1 : UInt64 := 0x9E3779B1
def prime32_2 : UInt64 := 0x85EBCA77
def prime32_3 : UInt64 := 0xC2B2AE3D

def avalanche (x : UInt64) : UInt64 := xorShift (xorShift x 37 * 0x165667919E3779F9) 32

def strongAvalanche (x len : UInt64) : UInt64 :=
  let x := (x ^^^ (rotateLeft x 49 ^^^ rotateLeft x 24)) * 0x9FB21C651E98DF25
  let x := (x ^^^ ((x >>> 35) + len)) * 0x9FB21C651E98DF25
  xorShift x 28

/-- One to three bytes and their count as a number of 32 bits. -/
def combine (first middle last : UInt8) (len : UInt64) : UInt32 :=
  first.toUInt32 <<< 16 ||| middle.toUInt32 <<< 24 ||| last.toUInt32 ||| len.toUInt32 <<< 8

/-- The seed with its low half, bytes reversed, folded into the high half. -/
def widenSeed (seed : UInt64) : UInt64 := seed ^^^ (swapBytes .four (low32 seed) <<< 32)

/-- Keys two words with 16 bytes of secret, the seed added and subtracted, and folds their
product. -/
def mixPair (keyLow keyHigh seed low high : UInt64) : UInt64 :=
  foldProduct (low ^^^ (keyLow + seed)) (high ^^^ (keyHigh - seed))

def mix16 (secret : Secret) (seed p o : UInt64) : Plan UInt64 := do
  let low ← u64 p
  let high ← u64 (← add p 8)
  return mixPair (← key secret o) (← key secret (← add o 8)) seed low high

section
variable {σ : Type} (len : UInt64) (step : UInt64 → UInt64 → UInt64 → σ → Plan σ)

/-- Takes a step at `front` and at `back` bytes before the end, if the range is longer than `least`. -/
def stepAt (least front back : UInt64) (s : σ) : Plan σ := do
  if least < len then step front (← sub len back) least s else pure s

/-- Walks a range of 17 to 128 bytes from the middle to its ends. `step` takes a position near the
front, one near the back, and the place of their secret. -/
def fromBothEnds (s : σ) : Plan σ := do
  let s ← stepAt len step 96 48 64 s
  let s ← stepAt len step 64 32 48 s
  let s ← stepAt len step 32 16 32 s
  step 0 (← sub len 16) 0 s

end

end Fingerprint.XXH3
