import Fingerprint.CityHash

/-!
# FarmHash, the `na` and `uo` functions

Both are CityHash up to 32 bytes. `na` has its own body up to 64 bytes and ends its chunks with one
more round over the last 64 bytes; `uo` is `na` up to 64 bytes and above that mixes eight words per
chunk with the seeds in its state.
-/

namespace Fingerprint.FarmHash
open Plan CityHash
set_option autoImplicit false

/-- Where the whole chunks of a long range end: its last, never empty, part comes after. -/
def chunkEnd (len : UInt64) : Plan UInt64 := do mul ((← sub len 1) / 64) 64

/-! ## `na` -/

structure Na where
  seeds : Seeds
deriving DecidableEq

namespace Na

def unseeded : Na := ⟨.unseeded⟩
def ofSeed (seed : UInt64) : Na := ⟨.one seed⟩
def ofSeeds (seed0 seed1 : UInt64) : Na := ⟨.two seed0 seed1⟩

instance : Inhabited Na := ⟨unseeded⟩

def of33to64 (len : UInt64) : Plan UInt64 := do
  let mul := multiplier len
  let a := (← u64 0) * k2
  let b ← u64 8
  let c := (← u64 (← sub len 8)) * mul
  let d := (← u64 (← sub len 16)) * k2
  let y := rotateRight (a + b) 43 + rotateRight c 30 + d
  let z := foldPair mul y (a + rotateRight (b + k2) 18 + c)
  let e := (← u64 16) * mul
  let f ← u64 24
  let g := (y + (← u64 (← sub len 32))) * mul
  let h := (z + (← u64 (← sub len 24))) * mul
  return foldPair mul (rotateRight (e + f) 43 + rotateRight g 30 + h)
    (e + rotateRight (f + a) 18 + g)

/-- The constant that stands in for a seed. -/
def seed : UInt64 := 81

def start : Plan State := do
  let y := seed * k1 + 113
  let z := shiftMix (y * k2 + 113) * k2
  return ⟨seed * k2 + (← u64 0), y, z, (0, 0), (0, 0)⟩

/-- The multiplier of the last round, taken from the state. -/
def lastMultiplier (s : State) : UInt64 := k1 + ((s.z &&& 0xff) <<< 1)

def lastRound (len p : UInt64) (s : State) : Plan State := do
  let mul := lastMultiplier s
  let w0 := s.w.1 + ((← sub len 1) &&& 63)
  let v0 := s.v.1 + w0
  let w0 := w0 + v0
  let x := rotateRight (s.x + s.y + v0 + (← u64 (← add p 8))) 37 * mul
  let y := rotateRight (s.y + s.v.2 + (← u64 (← add p 48))) 42 * mul
  let x := x ^^^ s.w.2 * 9
  let y := y + v0 * 9 + (← u64 (← add p 40))
  let z := rotateRight (s.z + w0) 33 * mul
  let v ← weakMixAt p (s.v.2 * mul) (x + w0)
  let w ← weakMixAt (← add p 32) (z + s.w.2) (y + (← u64 (← add p 16)))
  return ⟨z, y, x, v, w⟩

def finish (mul : UInt64) (s : State) : UInt64 :=
  foldPair mul (foldPair mul s.v.1 s.w.1 + shiftMix s.y * k0 + s.z)
    (foldPair mul s.v.2 s.w.2 + s.x)

def long (len : UInt64) : Plan UInt64 := do
  let stop ← chunkEnd len
  let last ← sub len 64
  let s ← chunks 64 stop round len.toNat 0 (← start)
  return finish (lastMultiplier s) (← lastRound len last s)

def body (len : UInt64) : Plan UInt64 :=
  if len ≤ 32 then upTo32 len
  else if len ≤ 64 then of33to64 len
  else long len

instance : HashFunction Na UInt64 where
  name _ := Algorithm.farmHashNa.name
  body f len := f.seeds.finish <$> body len
  void f := f.seeds.finish k2
  ofU8 f v := f.seeds.finish (shortU8 v)
  ofU16 f v := f.seeds.finish (shortU16 v)
  ofU32 f v := f.seeds.finish (shortU32 v)
  ofU64 f v := f.seeds.finish (shortU64 v)

end Na

/-! ## `uo` -/

structure Uo where
  seeds : Seeds
deriving DecidableEq

namespace Uo

def unseeded : Uo := ⟨.unseeded⟩
def ofSeed (seed : UInt64) : Uo := ⟨.one seed⟩
def ofSeeds (seed0 seed1 : UInt64) : Uo := ⟨.two seed0 seed1⟩

instance : Inhabited Uo := ⟨unseeded⟩

structure State where
  u : UInt64
  x : UInt64
  y : UInt64
  z : UInt64
  v : UInt64 × UInt64
  w : UInt64 × UInt64

def foldRotated (x y mul k : UInt64) : UInt64 :=
  let a := xorShift ((x ^^^ y) * mul) 47
  let b := (y ^^^ a) * mul
  rotateRight b k * mul

def start (seed0 seed1 : UInt64) : State :=
  let y := seed1 * k2 + 113
  let z := shiftMix (y * k2) * k2
  ⟨seed0 - z, seed0 * k2, y, z, (seed0, seed1), (0, 0)⟩

/-- The multiplier of every round, taken from the first state. -/
def loopMultiplier (s : State) : UInt64 := k2 + (s.u &&& 0x82)

def mix (mul a0 a1 a2 a3 a4 a5 a6 a7 : UInt64) (s : State) : State :=
  let x := rotateRight (s.x + a0 + a1) 26 * 9
  let y := rotateRight (s.y + a2) 29
  let z := (s.z + a3) * mul
  let v0 := rotateRight (s.v.1 + a4) 33
  let v1 := rotateRight (s.v.2 + a5 + a1) 30
  let w0 := ((s.w.1 + a6) ^^^ x) * 9
  let w1 := s.w.2 + a7
  let z := rotateRight z 32 + w1
  let w1 := w1 + z
  let z := z * 9
  let u := y
  let y := s.u
  let z := z + a0 + a6
  let v0 := v0 + a2
  let v1 := v1 + a3
  let w0 := w0 + a4
  let w1 := w1 + a5 + a6
  let x := x + a1
  let y := y + a7
  let y := y + v0
  let v0 := v0 + (x - y)
  let v1 := v1 + w0
  let w0 := w0 + v1
  let w1 := w1 + (x - y)
  let x := x + w1
  let w1 := rotateRight w1 34
  ⟨z, x, y, u, (v0, v1), (w0, w1)⟩

def round (mul p : UInt64) (s : State) : Plan State := do
  return mix mul (← u64 p) (← u64 (← add p 8)) (← u64 (← add p 16)) (← u64 (← add p 24))
    (← u64 (← add p 32)) (← u64 (← add p 40)) (← u64 (← add p 48)) (← u64 (← add p 56)) s

/-- Takes in the last 64 bytes, which start at `p`, and ends with the digest. -/
def lastRound (mul len p : UInt64) (s : State) : Plan UInt64 := do
  let u := s.u * 9
  let v1 := rotateRight s.v.2 28
  let v0 := rotateRight s.v.1 20
  let w0 := s.w.1 + ((← sub len 1) &&& 63)
  let u := u + s.y
  let y := s.y + u
  let x := rotateRight (y - s.x + v0 + (← u64 (← add p 8))) 37 * mul
  let y := rotateRight (y ^^^ v1 ^^^ (← u64 (← add p 48))) 42 * mul
  let x := x ^^^ s.w.2 * 9
  let y := y + v0 + (← u64 (← add p 40))
  let z := rotateRight (s.z + w0) 33 * mul
  let v ← weakMixAt p (v1 * mul) (x + w0)
  let w ← weakMixAt (← add p 32) (z + s.w.2) (y + (← u64 (← add p 16)))
  return foldRotated (foldPair mul (v.1 + x) (w.1 ^^^ y) + z - u)
    (foldRotated (v.2 + y) (w.2 + z) k2 30 ^^^ x) k2 31

def long (len seed0 seed1 : UInt64) : Plan UInt64 := do
  let stop ← chunkEnd len
  let last ← sub len 64
  let first := start seed0 seed1
  let mul := loopMultiplier first
  let s ← chunks 64 stop (round mul) len.toNat 0 first
  lastRound mul len last s

/-- The pair of seeds that the chunk loop starts from. -/
def loopSeeds : Seeds → UInt64 × UInt64
  | .unseeded => (Na.seed, 0)
  | .one seed => (0, seed)
  | .two seed0 seed1 => (seed0, seed1)

def body (seeds : Seeds) (len : UInt64) : Plan UInt64 :=
  if len ≤ 64 then seeds.finish <$> Na.body len
  else long len (loopSeeds seeds).1 (loopSeeds seeds).2

instance : HashFunction Uo UInt64 where
  name _ := Algorithm.farmHashUo.name
  body f := body f.seeds
  void f := f.seeds.finish k2
  ofU8 f v := f.seeds.finish (shortU8 v)
  ofU16 f v := f.seeds.finish (shortU16 v)
  ofU32 f v := f.seeds.finish (shortU32 v)
  ofU64 f v := f.seeds.finish (shortU64 v)

end Uo

end Fingerprint.FarmHash
