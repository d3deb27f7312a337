import Fingerprint.Function.Selected

/-!
# What a selected function holds

A function keeps its seeds, and with them what is worked out of them when they are bound: its digest
of the empty input, or its secret. Two selected functions are compared by the algorithm and by all
that they hold.
-/

namespace Fingerprint
set_option autoImplicit false

inductive Held where
  | cityHash (seeds : Seeds) (void : UInt64)
  | farmHashNa (seeds : Seeds) (void : UInt64)
  | farmHashUo (seeds : Seeds) (void : UInt64)
  | murmurHash (seed : UInt64) (void : Digest128)
  | xxHash (seed : UInt64) (void : UInt64)
  | xxh3 (seed : UInt64) (secret : XXH3.Secret)
  | xxh3Wide (seed : UInt64) (secret : XXH3.Secret)
  | metroHash (seed : UInt64) (void : UInt64)
  | wyHash (seed : UInt64)
deriving DecidableEq

namespace Selected
open HashFunction

def held : Selected → Held
  | cityHash f => .cityHash f.seeds (void f)
  | farmHashNa f => .farmHashNa f.seeds (void f)
  | farmHashUo f => .farmHashUo f.seeds (void f)
  | murmurHash f => .murmurHash f.wide.seed (void f.wide)
  | xxHash f => .xxHash f.seed (void f)
  | xxh3 f => .xxh3 f.seed (.derive f.seed)
  | xxh3Wide f => .xxh3Wide f.wide.seed (.derive f.wide.seed)
  | metroHash f => .metroHash f.seed (void f)
  | wyHash f => .wyHash f.seed

/-- Whether two functions are of one algorithm and hold the same. -/
def same (f g : Selected) : Bool := f.held == g.held

end Selected

end Fingerprint
