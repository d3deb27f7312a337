import Fingerprint.Word.Mix

/-!
# Seeds of the City and Farm functions

Both families fold 128 bits to 64 with the same two multiplications, and bind their seeds by
folding them into an unseeded digest.
-/

namespace Fingerprint
set_option autoImplicit false

/-- Folds two words into one by two rounds of multiply and shift. -/
def foldPair (mul u v : UInt64) : UInt64 :=
  let a := xorShift ((u ^^^ v) * mul) 47
  let b := xorShift ((v ^^^ a) * mul) 47
  b * mul

/-- The seeds bound into a City or Farm function. -/
inductive Seeds where
  | unseeded
  | one (seed : UInt64)
  | two (seed0 seed1 : UInt64)
deriving DecidableEq

namespace Seeds

def multiplier : UInt64 := 0x9ddfea08eb382d69

/-- The first seed that stands beside a single seed. -/
def defaultFirst : UInt64 := 0x9ae16a3b2f90404f

def finish : Seeds → UInt64 → UInt64
  | unseeded, h => h
  | one seed, h => foldPair multiplier (h - defaultFirst) seed
  | two seed0 seed1, h => foldPair multiplier (h - seed0) seed1

end Seeds

end Fingerprint
