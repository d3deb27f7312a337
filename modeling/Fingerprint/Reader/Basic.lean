import Fingerprint.Plan.Basic

/-!
# Readers

A reader answers reads of one representation: the word of a given width at a byte offset, in the
byte order that it reports for the input. A reader is lawful for an input with a byte image if every
read inside the image gives the image's bytes in that order; outside it may answer anything.
-/

namespace Fingerprint
set_option autoImplicit false

variable {ι δ : Type}

/-- A way to read words of an input of type `ι`. -/
structure Reader (ι : Type) where
  order : ι → ByteOrder
  read : ι → Width → Nat → UInt64

namespace Reader

/-- Every read inside `image` gives its bytes in the reported order. -/
def Lawful (r : Reader ι) (x : ι) (image : Array UInt8) : Prop :=
  ∀ (w : Width) (offset : Nat), offset + w.bytes ≤ image.size →
    r.read x w offset =
      (r.order x).assemble (Bytes.slice (fun i => image.getD i 0) offset w.bytes)

/-- The same bytes read in the opposite order. -/
def swapped (r : Reader ι) : Reader ι where
  order x := (r.order x).reverse
  read x w offset := swapBytes w (r.read x w offset)

def swappedTimes (r : Reader ι) : Nat → Reader ι
  | 0 => r
  | n + 1 => (r.swappedTimes n).swapped

/-- Reads in little-endian order, whatever order the input is read in. -/
def readLittle (r : Reader ι) (x : ι) : Width → Nat → UInt64 :=
  match r.order x with
  | .little => r.read x
  | .big => r.swapped.read x

/-- A word read as a two's complement integer of its width. -/
def signed (w : Width) (word : UInt64) : Int := (BitVec.ofNat (8 * w.bytes) word.toNat).toInt

end Reader

/-- Runs a body over the `len` bytes of `x` from `offset` on. -/
def Plan.over (body : UInt64 → Plan δ) (r : Reader ι) (x : ι) (offset len : UInt64) : δ :=
  (body len).run fun w p => r.readLittle x w (offset.toNat + p.toNat)

end Fingerprint
