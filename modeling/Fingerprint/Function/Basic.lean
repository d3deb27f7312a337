import Fingerprint.Reader.Memory

/-!
# Hash functions

A hash function is a value with its seeds bound. Its body says, for every length, which words it
reads and what digest comes of them; shortcuts give the digests of the empty input and of single
words. All other ways to call it choose a reader, an offset and a length, and run the body.
-/

namespace Fingerprint
set_option autoImplicit false

def Plan.overBytes {δ : Type} (body : UInt64 → Plan δ) (bytes : Array UInt8) : δ :=
  Plan.over body Reader.memory bytes 0 (UInt64.ofNat bytes.size)

/-- The types `φ` of hash functions with digests in `δ`. -/
class HashFunction (φ : Type) (δ : outParam Type) where
  name : φ → String
  body : φ → UInt64 → Plan δ
  void : φ → δ
  ofU8 : φ → UInt8 → δ := fun f v => Plan.overBytes (body f) (Scalar.bytes v).toArray
  ofU16 : φ → UInt16 → δ := fun f v => Plan.overBytes (body f) (Scalar.bytes v).toArray
  ofU32 : φ → UInt32 → δ := fun f v => Plan.overBytes (body f) (Scalar.bytes v).toArray
  ofU64 : φ → UInt64 → δ := fun f v => Plan.overBytes (body f) (Scalar.bytes v).toArray

namespace HashFunction

variable {φ δ ι : Type} [HashFunction φ δ] (f : φ)

/-- The digest of the `len` bytes of `x` from `offset` on: the call that all others come to. -/
def digest (r : Reader ι) (x : ι) (offset len : UInt64) : δ := Plan.over (body f) r x offset len

def ofBytes (bytes : Array UInt8) : δ := digest f Reader.memory bytes 0 (UInt64.ofNat bytes.size)

end HashFunction

end Fingerprint
