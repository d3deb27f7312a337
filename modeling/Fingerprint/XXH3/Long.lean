import Fingerprint.XXH3.Mix

/-!
# XXH3 above 240 bytes

Eight lanes take in stripes of 64 bytes. Sixteen stripes make a block, within which the secret is
moved on by eight bytes per stripe and after which the lanes are scrambled. The last 64 bytes are
taken in once more with a secret of their own.
-/

namespace Fingerprint.XXH3
open Plan
set_option autoImplicit false

abbrev Lanes := Vector UInt64 8

namespace Lanes

def start : Lanes := #v[prime32_3, XXHash.prime1, XXHash.prime2, XXHash.prime3,
  XXHash.prime4, prime32_2, XXHash.prime5, prime32_1]

/-- The lane that shares a pair with lane `i`. -/
def beside (i : Fin 8) : Fin 8 := i ^^^ 1

/-- Adds one word to the lane beside, and the product of its keyed halves to its own lane. -/
def take (i : Fin 8) (word key : UInt64) (acc : Lanes) : Lanes :=
  let keyed := word ^^^ key
  let acc := acc.set (beside i) (acc[beside i] + word)
  acc.set i (acc[i] + low32 keyed * (keyed >>> 32))

def scrambleAt (i : Fin 8) (key : UInt64) (acc : Lanes) : Lanes :=
  acc.set i ((xorShift acc[i] 47 ^^^ key) * prime32_1)

end Lanes

def laneOffset (i : Fin 8) : UInt64 := UInt64.ofNat (8 * i.val)

/-- Takes in the 64 bytes at `p`, keyed from byte `o` of the secret on. -/
def accumulate (secret : Secret) (p o : UInt64) (acc : Lanes) : Plan Lanes :=
  (List.finRange 8).foldlM (fun acc i => do
    return acc.take i (← u64 (← add p (laneOffset i)))
      (← key secret (← add o (laneOffset i)))) acc

/-- Scrambles every lane, keyed from byte `o` of the secret on. -/
def scramble (secret : Secret) (o : UInt64) (acc : Lanes) : Plan Lanes :=
  (List.finRange 8).foldlM (fun acc i => do
    return acc.scrambleAt i (← key secret (← add o (laneOffset i)))) acc

/-- The bytes of one stripe, and of one block of sixteen stripes. -/
def stripeBytes : UInt64 := 64
def blockStripes : UInt64 := 16
def blockBytes : UInt64 := 1024

/-- Takes in `n` stripes from `p` on, starting over at the front of the secret. -/
def stripes (secret : Secret) (p n : UInt64) (acc : Lanes) : Plan Lanes :=
  range 0 n (fun i acc => do
    accumulate secret (← add p (← mul i stripeBytes)) (← mul i 8) acc) acc

def block (secret : Secret) (b : UInt64) (acc : Lanes) : Plan Lanes := do
  scramble secret 128 (← stripes secret (← mul b blockBytes) blockStripes acc)

/-- The lanes after a range of more than 240 bytes. -/
def longLanes (secret : Secret) (len : UInt64) : Plan Lanes := do
  let blocks := (← sub len 1) / blockBytes
  let acc ← range 0 blocks (block secret) Lanes.start
  let more := (← sub (← sub len 1) (← mul blockBytes blocks)) / stripeBytes
  let acc ← stripes secret (← mul blocks blockBytes) more acc
  accumulate secret (← sub len stripeBytes) 121 acc

/-- Folds the lanes, keyed from byte `o` of the secret on, into `first`. -/
def mergeLanes (secret : Secret) (o first : UInt64) (acc : Lanes) : Plan UInt64 := do
  let pair (i : Fin 4) (sum : UInt64) : Plan UInt64 := do
    let place ← add o (UInt64.ofNat (16 * i.val))
    return sum + foldProduct (acc[2 * i.val] ^^^ (← key secret place))
      (acc[2 * i.val + 1] ^^^ (← key secret (← add place 8)))
  return avalanche (← pair 3 (← pair 2 (← pair 1 (← pair 0 first))))

/-- Where the keys of the low and of the high digest word begin. -/
def lowMergeOffset : UInt64 := 11
def highMergeOffset : UInt64 := 117

/-- The low digest word of the lanes, which is the whole digest of the 64-bit function. -/
def mergeLow (secret : Secret) (len : UInt64) (acc : Lanes) : Plan UInt64 :=
  mergeLanes secret lowMergeOffset (len * XXHash.prime1) acc

def mergeHigh (secret : Secret) (len : UInt64) (acc : Lanes) : Plan UInt64 :=
  mergeLanes secret highMergeOffset (~~~(len * XXHash.prime2)) acc

end Fingerprint.XXH3
