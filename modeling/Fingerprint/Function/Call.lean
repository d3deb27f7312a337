import Fingerprint.Function.Forms

/-!
# Calls as data

A call is an entry point of a hash function together with its arguments. What a function answers to
every call is all that there is to see of it, so two ways to a function are compared by their
answers.
-/

namespace Fingerprint
set_option autoImplicit false

inductive Call where
  | void
  | digest {ι : Type} (r : Reader ι) (x : ι) (offset len : UInt64)
  | bytes (bytes : Array UInt8)
  | bytesRange (bytes : Array UInt8) (offset len : UInt64)
  | memory (m : Memory) (len : UInt64)
  | string (s : String)
  | scalar {α : Type} [Scalar α] (value : α)
  | array {α : Type} [Scalar α] (values : Array α)
  | arrayRange {α : Type} [Scalar α] (values : Array α) (offset len : UInt64)
  | buffer (b : Buffer)
  | bufferRange (b : Buffer) (offset len : UInt64)
  | units (units : Array UInt16)
  | unitsRange (units : Array UInt16) (offset len : UInt64)
  | sequence {ι : Type} [UnitSequence ι] (x : ι)
  | sequenceRange {ι : Type} [UnitSequence ι] (x : ι) (offset len : UInt64)
  | text (settings : Settings) (t : Text)

namespace Call
open HashFunction

/-- How many bytes the call digests, unless it is refused. -/
def byteLength : Call → UInt64
  | void => 0
  | digest _ _ _ len => len
  | bytes b => .ofNat b.size
  | bytesRange _ _ len => len
  | memory _ len => len
  | string s => .ofNat s.utf8ByteSize
  | scalar value => .ofNat (Scalar.toUnsigned value).width
  | @array α _ values => .ofNat (values.size * Scalar.width α)
  | @arrayRange α _ _ _ len => len * .ofNat (Scalar.width α)
  | buffer b => b.windowSize
  | bufferRange _ _ len => len
  | units u => .ofNat (u.size * 2)
  | unitsRange _ _ len => len * 2
  | sequence x => .ofNat (UnitSequence.length x * 2)
  | sequenceRange _ _ len => len * 2
  | text settings t => .ofNat (t.view settings.strategy).byteLength

/-- What `f` answers: a digest, or why the call is refused. -/
def answer {φ δ : Type} [HashFunction φ δ] (f : φ) : Call → Except Refusal δ
  | void => .ok (HashFunction.void f)
  | digest r x offset len => .ok (HashFunction.digest f r x offset len)
  | bytes b => .ok (ofBytes f b)
  | bytesRange b offset len => ofBytesRange f b offset len
  | memory m len => .ok (ofMemory f m len)
  | string s => .ok (ofString f s)
  | scalar value => .ok (ofScalar f value)
  | array values => .ok (ofArray f values)
  | arrayRange values offset len => ofArrayRange f values offset len
  | buffer b => .ok (ofBuffer f b)
  | bufferRange b offset len => ofBufferRange f b offset len
  | units u => .ok (ofUnits f u)
  | unitsRange u offset len => ofUnitsRange f u offset len
  | sequence x => .ok (ofSequence f x)
  | sequenceRange x offset len => ofSequenceRange f x offset len
  | text settings t => .ok (ofText f settings t)

end Call

end Fingerprint
