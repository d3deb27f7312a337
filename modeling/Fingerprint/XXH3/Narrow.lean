import Fingerprint.Algorithm
import Fingerprint.Function.Basic
import Fingerprint.XXH3.Long

/-!
# XXH3, the 64-bit function
-/

namespace Fingerprint.XXH3
set_option autoImplicit false

structure Narrow where
  seed : UInt64
deriving DecidableEq

namespace Narrow
open Plan

def unseeded : Narrow := ⟨0⟩
def ofSeed (seed : UInt64) : Narrow := ⟨seed⟩

instance : Inhabited Narrow := ⟨unseeded⟩

/-! ## Up to 16 bytes -/

def void (seed : UInt64) : Plan UInt64 := do
  return XXHash.avalanche (seed ^^^ (← key .default 56) ^^^ (← key .default 64))

def of1to3 (seed : UInt64) (first middle last : UInt8) (len : UInt64) : Plan UInt64 := do
  let flip := ((← halfKey .default 0) ^^^ (← halfKey .default 4)).toUInt64 + seed
  return XXHash.avalanche ((combine first middle last len).toUInt64 ^^^ flip)

def of4to8 (seed : UInt64) (first last : UInt32) (len : UInt64) : Plan UInt64 := do
  let flip := ((← key .default 8) ^^^ (← key .default 16)) - widenSeed seed
  let word := last.toUInt64 + (first.toUInt64 <<< 32)
  return strongAvalanche (word ^^^ flip) len

def of9to16 (seed first last len : UInt64) : Plan UInt64 := do
  let low := first ^^^ (((← key .default 24) ^^^ (← key .default 32)) + seed)
  let high := last ^^^ (((← key .default 40) ^^^ (← key .default 48)) - seed)
  return avalanche (len + swapBytes .eight low + high + foldProduct low high)

def upTo16 (seed len : UInt64) : Plan UInt64 :=
  if 8 < len then do of9to16 seed (← u64 0) (← u64 (← sub len 8)) len
  else if 4 ≤ len then do of4to8 seed (← u32 0) (← u32 (← sub len 4)) len
  else if 0 < len then do
    of1to3 seed (← u8 0) (← u8 (len >>> 1)) (← u8 (← sub len 1)) len
  else void seed

/-! ## 17 to 240 bytes -/

/-- Adds the mix of the 16 bytes at `p` to the sum. -/
def addMix (secret : Secret) (seed p o sum : UInt64) : Plan UInt64 := do
  return sum + (← mix16 secret seed p o)

/-- Adds the mixes of the 16 bytes at `front` and at `back`. -/
def addBoth (secret : Secret) (seed front back o sum : UInt64) : Plan UInt64 := do
  let sum ← addMix secret seed front o sum
  addMix secret seed back (← add o 16) sum

def of17to128 (secret : Secret) (seed len : UInt64) : Plan UInt64 := do
  return avalanche (← fromBothEnds len (addBoth secret seed) (len * XXHash.prime1))

def of129to240 (seed len : UInt64) : Plan UInt64 := do
  let sum ← range 0 8 (fun i sum => do addMix .default seed (← mul 16 i) (← mul 16 i) sum)
    (len * XXHash.prime1)
  let sum ← range 8 (len / 16) (fun i sum => do
    addMix .default seed (← mul 16 i) (← add (← mul 16 (← sub i 8)) 3) sum) (avalanche sum)
  return avalanche (← addMix .default seed (← sub len 16) 119 sum)

/-! ## Any length -/

def long (secret : Secret) (len : UInt64) : Plan UInt64 := do
  mergeLow secret len (← longLanes secret len)

def body (seed len : UInt64) : Plan UInt64 :=
  if len ≤ 16 then upTo16 seed len
  else if len ≤ 128 then of17to128 .default seed len
  else if len ≤ 240 then of129to240 seed len
  else long (.derive seed) len

/-! ## The function -/

instance : HashFunction Narrow UInt64 where
  name _ := Algorithm.xxh3.name
  body f := body f.seed
  void f := (void f.seed).eval
  ofU8 f v := (of1to3 f.seed v v v 1).eval
  ofU16 f v :=
    let high := (v >>> 8).toUInt8
    (of1to3 f.seed v.toUInt8 high high 2).eval
  ofU32 f v := (of4to8 f.seed v v 4).eval
  ofU64 f v := (of4to8 f.seed v.toUInt32 (v >>> 32).toUInt32 8).eval

end Narrow

end Fingerprint.XXH3
