/-!
# Word mixing

The steps on 64-bit words that several hash functions share: rotations, the two halves of a full
product, and the folds built from them.
-/

namespace Fingerprint
set_option autoImplicit false

/-- Rotates right; `k` is taken modulo 64. -/
def rotateRight (x k : UInt64) : UInt64 := x >>> k ||| x <<< (64 - k)

def rotateLeft (x k : UInt64) : UInt64 := x <<< k ||| x >>> (64 - k)

def xorShift (x k : UInt64) : UInt64 := x ^^^ (x >>> k)

/-- The high half of the 128-bit product; the low half is `a * b`. -/
def highProduct (a b : UInt64) : UInt64 := UInt64.ofNat (a.toNat * b.toNat / UInt64.size)

def foldProduct (a b : UInt64) : UInt64 := a * b ^^^ highProduct a b

def low32 (x : UInt64) : UInt64 := x &&& 0xFFFFFFFF

end Fingerprint
