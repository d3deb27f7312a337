import Fingerprint.Buffer
import Fingerprint.Function.Basic
import Fingerprint.Text.Basic

/-!
# Ways to call a hash function

For every kind of input there is a form that takes all of it, and for most a form that takes a
range, in the units of the input, and refuses one that does not fit.
-/

namespace Fingerprint.HashFunction
set_option autoImplicit false

variable {φ δ ι α : Type} [HashFunction φ δ] (f : φ)

/-! ## Bytes -/

def ofBytesRange (bytes : Array UInt8) (offset len : UInt64) : Except Refusal δ := do
  checkRange bytes.size offset len
  return digest f Reader.memory bytes offset len

/-- The digest of the first `len` bytes of a memory. -/
def ofMemory (m : Memory) (len : UInt64) : δ := digest f Reader.memory m 0 len

def ofString (s : String) : δ := digest f Reader.memory s 0 (UInt64.ofNat s.utf8ByteSize)

/-! ## Scalars -/

section
variable [Scalar α]

def ofArray (values : Array α) : δ :=
  digest f Reader.memory values 0 (UInt64.ofNat (values.size * Scalar.width α))

def ofArrayRange (values : Array α) (offset len : UInt64) : Except Refusal δ := do
  checkRange values.size offset len
  let width := UInt64.ofNat (Scalar.width α)
  return digest f Reader.memory values (offset * width) (len * width)

end

def ofUnsigned : Unsigned → δ
  | .u8 v => ofU8 f v
  | .u16 v => ofU16 f v
  | .u32 v => ofU32 f v
  | .u64 v => ofU64 f v
  | .u128 v => ofBytes f (Unsigned.bytes (.u128 v)).toArray

def ofScalar [Scalar α] (value : α) : δ := ofUnsigned f (Scalar.toUnsigned value)

/-! ## Buffers -/

def ofBuffer (b : Buffer) : δ := digest f Buffer.reader b b.position b.windowSize

/-- The digest of a range of the storage, whatever the window. -/
def ofBufferRange (b : Buffer) (offset len : UInt64) : Except Refusal δ := do
  checkRange b.capacity offset len
  return digest f Buffer.reader b offset len

/-! ## Units and texts -/

def ofUnits (units : Array UInt16) : δ :=
  digest f Reader.memory units 0 (UInt64.ofNat (units.size * 2))

def ofUnitsRange (units : Array UInt16) (offset len : UInt64) : Except Refusal δ := do
  checkRange units.size offset len
  return digest f Reader.memory units (offset * 2) (len * 2)

section
variable [UnitSequence ι]

def ofSequence (x : ι) : δ :=
  digest f (Reader.units .native) x 0 (UInt64.ofNat (UnitSequence.length x * 2))

def ofSequenceRange (x : ι) (offset len : UInt64) : Except Refusal δ := do
  checkRange (UnitSequence.length x) offset len
  return digest f (Reader.units .native) x (offset * 2) (len * 2)

end

def ofView (v : Text.View) : δ :=
  let len := UInt64.ofNat v.byteLength
  match v with
  | .latin1 bytes => digest f (Reader.latin1 .native) bytes 0 len
  | .utf16 units => digest f Reader.memory units 0 len
  | .sequence text => digest f (Reader.units .native) text 0 len

/-- The digest of the UTF-16 image of a text, read as the settings say. -/
def ofText (settings : Settings) (t : Text) : δ := ofView f (t.view settings.strategy)

end Fingerprint.HashFunction
