/-!
# Digests of 128 bits
-/

namespace Fingerprint
set_option autoImplicit false

/-- A digest of two words, the low one first. -/
structure Digest128 where
  low : UInt64
  high : UInt64
deriving DecidableEq

namespace Digest128

def count : Nat := 2

def bits : Nat := count * 64

def words (d : Digest128) : List UInt64 := [d.low, d.high]

@[simp] theorem length_words (d : Digest128) : d.words.length = count := rfl

end Digest128

end Fingerprint
