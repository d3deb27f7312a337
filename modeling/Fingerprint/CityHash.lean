import Fingerprint.Algorithm
import Fingerprint.Function.Basic
import Fingerprint.Plan.Loop
import Fingerprint.Seeds

/-!
# CityHash64, version 1.1

One body per length regime: up to 16, up to 32, up to 64 bytes, and chunks of 64 bytes above.
The regimes up to 32 bytes and the chunk round are those of the Farm functions as well.
-/

namespace Fingerprint
set_option autoImplicit false

structure CityHash where
  seeds : Seeds
deriving DecidableEq

namespace CityHash
open Plan

def unseeded : CityHash := ⟨.unseeded⟩
def ofSeed (seed : UInt64) : CityHash := ⟨.one seed⟩
def ofSeeds (seed0 seed1 : UInt64) : CityHash := ⟨.two seed0 seed1⟩

instance : Inhabited CityHash := ⟨unseeded⟩

def k0 : UInt64 := 0xc3a5c85c97cb3127
def k1 : UInt64 := 0xb492b66fbe98f273
def k2 : UInt64 := 0x9ae16a3b2f90404f

/-- The multiplier of the regimes that mix their length in. -/
def multiplier (len : UInt64) : UInt64 := k2 + len * 2

def fold (u v : UInt64) : UInt64 := foldPair Seeds.multiplier u v

def shiftMix (x : UInt64) : UInt64 := xorShift x 47

/-! ## Up to 32 bytes -/

def of1to3 (a b c : UInt8) (len : UInt64) : UInt64 :=
  let y := a.toUInt32 + (b.toUInt32 <<< 8)
  let z := len.toUInt32 + (c.toUInt32 <<< 2)
  shiftMix (y.toUInt64 * k2 ^^^ z.toUInt64 * k0) * k2

def of4to7 (first last : UInt32) (len : UInt64) : UInt64 :=
  foldPair (multiplier len) (len + (first.toUInt64 <<< 3)) last.toUInt64

def of8to16 (first last len : UInt64) : UInt64 :=
  let mul := multiplier len
  let a := first + k2
  let c := rotateRight last 37 * mul + a
  let d := (rotateRight a 25 + last) * mul
  foldPair mul c d

def upTo16 (len : UInt64) : Plan UInt64 :=
  if 8 ≤ len then do
    return of8to16 (← u64 0) (← u64 (← sub len 8)) len
  else if 4 ≤ len then do
    return of4to7 (← u32 0) (← u32 (← sub len 4)) len
  else if 0 < len then do
    return of1to3 (← u8 0) (← u8 (len >>> 1)) (← u8 (← sub len 1)) len
  else
    return k2

def of17to32 (len : UInt64) : Plan UInt64 := do
  let mul := multiplier len
  let a := (← u64 0) * k1
  let b ← u64 8
  let c := (← u64 (← sub len 8)) * mul
  let d := (← u64 (← sub len 16)) * k2
  return foldPair mul (rotateRight (a + b) 43 + rotateRight c 30 + d)
    (a + rotateRight (b + k2) 18 + c)

def upTo32 (len : UInt64) : Plan UInt64 :=
  if len ≤ 16 then upTo16 len else of17to32 len

/-! ## 33 to 64 bytes -/

def of33to64 (len : UInt64) : Plan UInt64 := do
  let mul := multiplier len
  let a := (← u64 0) * k2
  let b ← u64 8
  let c ← u64 (← sub len 24)
  let d ← u64 (← sub len 32)
  let e := (← u64 16) * k2
  let f := (← u64 24) * 9
  let g ← u64 (← sub len 8)
  let h := (← u64 (← sub len 16)) * mul
  let u := rotateRight (a + g) 43 + (rotateRight b 30 + c) * 9
  let v := ((a + g) ^^^ d) + f + 1
  let w := swapBytes .eight ((u + v) * mul) + h
  let x := rotateRight (e + f) 42 + c
  let y := (swapBytes .eight ((v + w) * mul) + g) * mul
  let z := e + f + c
  let a := swapBytes .eight ((x + z) * mul + y) + b
  return shiftMix ((z + a) * mul + d + h) * mul + x

/-! ## More than 64 bytes -/

/-- The state carried over chunks of 64 bytes. -/
structure State where
  x : UInt64
  y : UInt64
  z : UInt64
  v : UInt64 × UInt64
  w : UInt64 × UInt64

def weakMix (w x y z a b : UInt64) : UInt64 × UInt64 :=
  let a := a + w
  let b := rotateRight (b + a + z) 21
  let c := a
  let a := a + x + y
  let b := b + rotateRight a 44
  (a + z, b + c)

def weakMixAt (p a b : UInt64) : Plan (UInt64 × UInt64) := do
  return weakMix (← u64 p) (← u64 (← add p 8)) (← u64 (← add p 16)) (← u64 (← add p 24)) a b

/-- Takes in the 64 bytes at `p`. -/
def round (p : UInt64) (s : State) : Plan State := do
  let x := rotateRight (s.x + s.y + s.v.1 + (← u64 (← add p 8))) 37 * k1
  let y := rotateRight (s.y + s.v.2 + (← u64 (← add p 48))) 42 * k1
  let x := x ^^^ s.w.2
  let y := y + s.v.1 + (← u64 (← add p 40))
  let z := rotateRight (s.z + s.w.1) 33 * k1
  let v ← weakMixAt p (s.v.2 * k1) (x + s.w.1)
  let w ← weakMixAt (← add p 32) (z + s.w.2) (y + (← u64 (← add p 16)))
  return ⟨z, y, x, v, w⟩

/-- How many bytes of a long range lie in whole chunks: its last, never empty, part comes after. -/
def chunkBytes (len : UInt64) : Plan UInt64 := do return (← sub len 1) &&& ~~~63

def start (len : UInt64) : Plan State := do
  let x ← u64 (← sub len 40)
  let y := (← u64 (← sub len 16)) + (← u64 (← sub len 56))
  let z := fold ((← u64 (← sub len 48)) + len) (← u64 (← sub len 24))
  let v ← weakMixAt (← sub len 64) len z
  let w ← weakMixAt (← sub len 32) (y + k1) x
  return ⟨x * k1 + (← u64 0), y, z, v, w⟩

def finish (s : State) : UInt64 :=
  fold (fold s.v.1 s.w.1 + shiftMix s.y * k1 + s.z) (fold s.v.2 s.w.2 + s.x)

def long (len : UInt64) : Plan UInt64 := do
  let s ← start len
  let s ← portions 64 round len.toNat (← chunkBytes len) 0 s
  return finish s

def body (len : UInt64) : Plan UInt64 :=
  if len ≤ 32 then upTo32 len
  else if len ≤ 64 then of33to64 len
  else long len

/-! ## Single words, hashed alike by the Farm functions -/

def shortU8 (v : UInt8) : UInt64 := of1to3 v v v 1

def shortU16 (v : UInt16) : UInt64 :=
  let high := (v >>> 8).toUInt8
  of1to3 v.toUInt8 high high 2

def shortU32 (v : UInt32) : UInt64 := of4to7 v v 4

def shortU64 (v : UInt64) : UInt64 := of8to16 v v 8

/-! ## The function -/

instance : HashFunction CityHash UInt64 where
  name _ := Algorithm.cityHash.name
  body f len := f.seeds.finish <$> body len
  void f := f.seeds.finish k2
  ofU8 f v := f.seeds.finish (shortU8 v)
  ofU16 f v := f.seeds.finish (shortU16 v)
  ofU32 f v := f.seeds.finish (shortU32 v)
  ofU64 f v := f.seeds.finish (shortU64 v)

end CityHash

end Fingerprint
