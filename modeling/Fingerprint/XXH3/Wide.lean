import Fingerprint.Algorithm
import Fingerprint.Digest
import Fingerprint.Function.Basic
import Fingerprint.XXH3.Long

/-!
# XXH3, the 128-bit function
-/

namespace Fingerprint.XXH3
set_option autoImplicit false

structure Wide where
  seed : UInt64
deriving DecidableEq

namespace Wide
open Plan

def unseeded : Wide := ⟨0⟩
def ofSeed (seed : UInt64) : Wide := ⟨seed⟩

instance : Inhabited Wide := ⟨unseeded⟩

/-! ## Up to 16 bytes -/

def void (seed : UInt64) : Plan Digest128 := do
  let low := (← key .default 64) ^^^ (← key .default 72)
  let high := (← key .default 80) ^^^ (← key .default 88)
  return ⟨XXHash.avalanche (seed ^^^ low), XXHash.avalanche (seed ^^^ high)⟩

def of1to3 (seed : UInt64) (first middle last : UInt8) (len : UInt64) : Plan Digest128 := do
  let low := (combine first middle last len).toUInt64
  let high := rotateHalf (swapBytes .four low)
  let flipLow := ((← halfKey .default 0).toUInt64 ^^^ (← halfKey .default 4).toUInt64) + seed
  let flipHigh := ((← halfKey .default 8).toUInt64 ^^^ (← halfKey .default 12).toUInt64) - seed
  return ⟨XXHash.avalanche (low ^^^ flipLow), XXHash.avalanche (high ^^^ flipHigh)⟩
where
  /-- Rotates the low 32 bits left by 13 within themselves. -/
  rotateHalf (x : UInt64) : UInt64 := low32 (x <<< 13) ||| x >>> 19

def finish4to8 (keyed len : UInt64) : Digest128 :=
  let mul := XXHash.prime1 + (len <<< 2)
  let low := keyed * mul
  let high := highProduct keyed mul + (low <<< 1)
  let low := low ^^^ (high >>> 3)
  ⟨xorShift (xorShift low 35 * 0x9FB21C651E98DF25) 28, avalanche high⟩

def of4to8 (seed : UInt64) (first last : UInt32) (len : UInt64) : Plan Digest128 := do
  let flip := ((← key .default 16) ^^^ (← key .default 24)) + widenSeed seed
  let word := first.toUInt64 + (last.toUInt64 <<< 32)
  return finish4to8 (word ^^^ flip) len

/-- Finishes two words of nine to sixteen bytes, given what keys them and the place of the last
byte. -/
def finish9to16 (flipLow flipHigh first last lastIndex : UInt64) : Digest128 :=
  let keyed := first ^^^ last ^^^ flipLow
  let low := keyed * XXHash.prime1 + (lastIndex <<< 54)
  let last := last ^^^ flipHigh
  let high := highProduct keyed XXHash.prime1 + (last + low32 last * (prime32_2 - 1))
  let low := low ^^^ swapBytes .eight high
  let outLow := low * XXHash.prime2
  let outHigh := highProduct low XXHash.prime2 + high * XXHash.prime2
  ⟨avalanche outLow, avalanche outHigh⟩

def of9to16 (seed first last len : UInt64) : Plan Digest128 := do
  let flipLow := ((← key .default 32) ^^^ (← key .default 40)) - seed
  let flipHigh := ((← key .default 48) ^^^ (← key .default 56)) + seed
  return finish9to16 flipLow flipHigh first last (← sub len 1)

def upTo16 (seed len : UInt64) : Plan Digest128 :=
  if 8 < len then do of9to16 seed (← u64 0) (← u64 (← sub len 8)) len
  else if 4 ≤ len then do of4to8 seed (← u32 0) (← u32 (← sub len 4)) len
  else if 0 < len then do of1to3 seed (← u8 0) (← u8 (len >>> 1)) (← u8 (← sub len 1)) len
  else void seed

/-! ## 17 to 240 bytes -/

structure Sums where
  low : UInt64
  high : UInt64

/-- Mixes the 16 bytes at `p` into the low sum and those at `q` into the high one, each crossed with
the plain words of the other. -/
def mix32 (seed p q o : UInt64) (s : Sums) : Plan Sums := do
  let low := s.low + (← mix16 .default seed p o)
  let low := low ^^^ ((← u64 q) + (← u64 (← add q 8)))
  let high := s.high + (← mix16 .default seed q (← add o 16))
  let high := high ^^^ ((← u64 p) + (← u64 (← add p 8)))
  return ⟨low, high⟩

def start (len : UInt64) : Sums := ⟨len * XXHash.prime1, 0⟩

def finish (seed len : UInt64) (s : Sums) : Digest128 :=
  let low := s.low + s.high
  let high := s.low * XXHash.prime1 + s.high * XXHash.prime4 + (len - seed) * XXHash.prime2
  ⟨avalanche low, 0 - avalanche high⟩

def of17to128 (seed len : UInt64) : Plan Digest128 := do
  return finish seed len (← fromBothEnds len (mix32 seed) (start len))

def of129to240 (seed len : UInt64) : Plan Digest128 := do
  let s ← range 0 4 (fun i s => do
    mix32 seed (← mul 32 i) (← add (← mul 32 i) 16) (← mul 32 i) s) (start len)
  let s ← range 4 (len / 32) (fun i s => do
    mix32 seed (← mul 32 i) (← add (← mul 32 i) 16) (3 + (← mul 32 (← sub i 4))) s)
    ⟨avalanche s.low, avalanche s.high⟩
  let s ← mix32 (0 - seed) (← sub len 16) (← sub len 32) 103 s
  return finish seed len s

/-! ## Any length -/

def long (secret : Secret) (len : UInt64) : Plan Digest128 := do
  let acc ← longLanes secret len
  return ⟨← mergeLow secret len acc, ← mergeHigh secret len acc⟩

def body (seed len : UInt64) : Plan Digest128 :=
  if 240 < len then long (.derive seed) len
  else if 128 < len then of129to240 seed len
  else if 16 < len then of17to128 seed len
  else upTo16 seed len

/-! ## The function -/

instance : HashFunction Wide Digest128 where
  name _ := Algorithm.xxh3Wide.name
  body f := body f.seed
  void f := (void f.seed).eval
  ofU8 f v := (of1to3 f.seed v v v 1).eval
  ofU16 f v :=
    let high := (v >>> 8).toUInt8
    (of1to3 f.seed v.toUInt8 high high 2).eval
  ofU32 f v := (of4to8 f.seed v v 4).eval
  ofU64 f v := (of4to8 f.seed v.toUInt32 (v >>> 32).toUInt32 8).eval

end Wide

end Fingerprint.XXH3
