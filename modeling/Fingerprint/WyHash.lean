import Fingerprint.Algorithm
import Fingerprint.Function.Basic
import Fingerprint.Plan.Loop
import Fingerprint.Word.Mix

/-!
# wyhash, version 3

Up to 32 bytes each length regime is one expression. Longer ranges run two lanes over stripes of 256
bytes, then of 32 bytes, and end with one to 32 bytes.
-/

namespace Fingerprint
set_option autoImplicit false

structure WyHash where
  seed : UInt64
deriving DecidableEq

namespace WyHash
open Plan

def unseeded : WyHash := ⟨0⟩
def ofSeed (seed : UInt64) : WyHash := ⟨seed⟩

instance : Inhabited WyHash := ⟨unseeded⟩

def p0 : UInt64 := 0xa0761d6478bd642f
def p1 : UInt64 := 0xe7037ed1a0b428db
def p2 : UInt64 := 0x8ebc6af09c88c6e3
def p3 : UInt64 := 0x589965cc75374cc3
def p4 : UInt64 := 0x1d8e4e27c47d124f

/-- One to three bytes as a number: the first, the middle and the last. -/
def ofBytes (a b c : UInt8) : UInt64 :=
  a.toUInt64 <<< 16 ||| b.toUInt64 <<< 8 ||| c.toUInt64

def few (p n : UInt64) : Plan UInt64 := do
  return ofBytes (← u8 p) (← u8 (← add p (n >>> 1))) (← u8 (← sub (← add p n) 1))

def half (p : UInt64) : Plan UInt64 := do return (← u32 p).toUInt64

/-- The eight bytes at `p`, their upper half first. -/
def crossed (p : UInt64) : Plan UInt64 := do return rotateLeft (← u64 p) 32

def mix (key1 key2 seed a b : UInt64) : UInt64 :=
  foldProduct (a ^^^ seed ^^^ key1) (b ^^^ seed ^^^ key2)

def finish (h len : UInt64) : UInt64 := foldProduct h (len ^^^ p4)

/-- The digest of one to three bytes, given as a number. -/
def ofFew (seed k len : UInt64) : UInt64 := finish (mix p0 p1 seed k 0 ^^^ seed) len

/-- The digest of two words that cover a range of four to sixteen bytes. -/
def ofTwo (seed a b len : UInt64) : UInt64 := finish (mix p0 p1 seed a b ^^^ seed) len

/-! ## Up to 32 bytes -/

def of17to24 (seed len : UInt64) : Plan UInt64 := do
  let front := mix p0 p1 seed (← crossed 0) (← crossed 8)
  let back := mix p2 p3 seed (← crossed (← sub len 8)) 0
  return finish (front ^^^ back) len

def of25to32 (seed len : UInt64) : Plan UInt64 := do
  let front := mix p0 p1 seed (← crossed 0) (← crossed 8)
  let back := mix p2 p3 seed (← crossed 16) (← crossed (← sub len 8))
  return finish (front ^^^ back) len

def upTo32 (seed len : UInt64) : Plan UInt64 :=
  if len = 0 then return 0
  else if len < 4 then do return ofFew seed (← few 0 len) len
  else if len ≤ 8 then do return ofTwo seed (← half 0) (← half (← sub len 4)) len
  else if len ≤ 16 then do return ofTwo seed (← crossed 0) (← crossed (← sub len 8)) len
  else if len ≤ 24 then of17to24 seed len
  else of25to32 seed len

/-! ## More than 32 bytes -/

structure Lanes where
  front : UInt64
  back : UInt64

def takeWide (p : UInt64) (s : Lanes) : Plan Lanes := do
  let front := mix p0 p1 s.front (← u64 p) (← u64 (← add p 8)) ^^^
    mix p2 p3 s.front (← u64 (← add p 16)) (← u64 (← add p 24))
  let back := mix p1 p2 s.back (← u64 (← add p 32)) (← u64 (← add p 40)) ^^^
    mix p3 p0 s.back (← u64 (← add p 48)) (← u64 (← add p 56))
  return ⟨front, back⟩

def takeFour (p : UInt64) (s : Lanes) : Plan Lanes := do
  let s ← takeWide p s
  let s ← takeWide (← add p 64) s
  let s ← takeWide (← add p 128) s
  takeWide (← add p 192) s

def takeNarrow (p : UInt64) (s : Lanes) : Plan Lanes := do
  let front := mix p0 p1 s.front (← u64 p) (← u64 (← add p 8))
  let back := mix p2 p3 s.back (← u64 (← add p 16)) (← u64 (← add p 24))
  return ⟨front, back⟩

/-- Takes in the last `n` bytes, one to 32 of them, which start at `p`. -/
def takeLast (p n : UInt64) (s : Lanes) : Plan Lanes :=
  if n < 4 then do
    return ⟨mix p0 p1 s.front (← few p n) 0, s.back⟩
  else if n ≤ 8 then do
    return ⟨mix p0 p1 s.front (← half p) (← half (← sub (← add p n) 4)), s.back⟩
  else if n ≤ 16 then do
    return ⟨mix p0 p1 s.front (← crossed p) (← crossed (← sub (← add p n) 8)), s.back⟩
  else if n ≤ 24 then do
    return ⟨mix p0 p1 s.front (← crossed p) (← crossed (← add p 8)),
      mix p2 p3 s.back (← crossed (← sub (← add p n) 8)) 0⟩
  else do
    return ⟨mix p0 p1 s.front (← crossed p) (← crossed (← add p 8)),
      mix p2 p3 s.back (← crossed (← add p 16)) (← crossed (← sub (← add p n) 8))⟩

/-- The strides of both loops: each leaves at least one byte. -/
def wide : Stride := ⟨256, 257, by decide, by decide⟩
def narrow : Stride := ⟨32, 33, Stride.stripe.step_pos, by decide⟩

def long (seed len : UInt64) : Plan UInt64 := do
  let (left, p, s) ← countdown wide takeFour len 0 ⟨seed, seed⟩
  let (left, p, s) ← countdown narrow takeNarrow left p s
  let s ← takeLast p left s
  return finish (s.front ^^^ s.back) len

def body (seed len : UInt64) : Plan UInt64 :=
  if len ≤ 32 then upTo32 seed len else long seed len

/-! ## The function -/

instance : HashFunction WyHash UInt64 where
  name _ := Algorithm.wyHash.name
  body f := body f.seed
  void _ := 0
  ofU8 f v := ofFew f.seed (ofBytes v v v) 1
  ofU16 f v :=
    let high := (v >>> 8).toUInt8
    ofFew f.seed (ofBytes v.toUInt8 high high) 2
  ofU32 f v := ofTwo f.seed v.toUInt64 v.toUInt64 4
  ofU64 f v := ofTwo f.seed (low32 v) (v >>> 32) 8

end WyHash

end Fingerprint
