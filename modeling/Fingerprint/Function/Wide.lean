import Fingerprint.Digest
import Fingerprint.Function.Forms

/-!
# Functions with digests of 128 bits

Their digests can be written into arrays of the caller's, and their first words make functions of 64
bits. A call that writes is a step on the array, and ends with the array even where it refuses.
-/

namespace Fingerprint
set_option autoImplicit false

namespace Digest128

/-- Writes words over the places of `out` from `i` on, one after another, as many as there are places
for. -/
def overwrite : List UInt64 → Nat → Array UInt64 → Array UInt64
  | [], _, out => out
  | word :: rest, i, out =>
    if h : i < out.size then overwrite rest (i + 1) (out.set i word) else out

/-- Writes the words of a digest over the front of `out`, as many as fit. -/
def writeTo (d : Digest128) (out : Array UInt64) : Array UInt64 := overwrite d.words 0 out

end Digest128

/-- A call that may write into an array of the caller's, and may refuse; whatever it has written by
then stays. -/
abbrev Writing := ExceptT Refusal (StateM (Array UInt64)) Unit

/-- What a call comes to on the array `out`: whether it refused, and the array as it left it. -/
def Writing.on (call : Writing) (out : Array UInt64) : Except Refusal Unit × Array UInt64 :=
  (ExceptT.run call).run out

namespace HashFunction

variable {φ ι α : Type} [HashFunction φ Digest128] (f : φ)

/-- Writes the digest of a range over the front of `out`, as much of it as fits. -/
def digestInto (r : Reader ι) (x : ι) (offset len : UInt64) (out : Array UInt64) : Array UInt64 :=
  (digest f r x offset len).writeTo out

/-- Writes the digest of a range, unless the array is too short for all of it. -/
def checkedInto (r : Reader ι) (x : ι) (offset len : UInt64) : Writing := do
  MonadExcept.ofExcept (checkResult Digest128.count (← get).size)
  modify (digestInto f r x offset len)

def ofBytesInto (bytes : Array UInt8) : Writing :=
  checkedInto f Reader.memory bytes 0 (UInt64.ofNat bytes.size)

def ofArrayInto [Scalar α] (values : Array α) : Writing :=
  checkedInto f Reader.memory values 0 (UInt64.ofNat (values.size * Scalar.width α))

def ofSequenceInto [UnitSequence ι] (x : ι) : Writing :=
  checkedInto f (Reader.units .native) x 0 (UInt64.ofNat (UnitSequence.length x * 2))

def ofBufferInto (b : Buffer) : Writing :=
  checkedInto f Buffer.reader b b.position b.windowSize

def ofMemoryInto (m : Memory) (len : UInt64) : Writing := checkedInto f Reader.memory m 0 len

def ofTextInto (settings : Settings) (t : Text) : Writing :=
  let view := t.view settings.strategy
  let len := UInt64.ofNat view.byteLength
  match view with
  | .latin1 bytes => checkedInto f (Reader.latin1 .native) bytes 0 len
  | .utf16 units => checkedInto f Reader.memory units 0 len
  | .sequence text => checkedInto f (Reader.units .native) text 0 len

/-! ## Digests as arrays -/

def ofBytesWords (bytes : Array UInt8) : Array UInt64 := (ofBytes f bytes).words.toArray

def ofArrayWords [Scalar α] (values : Array α) : Array UInt64 := (ofArray f values).words.toArray

def ofStringWords (s : String) : Array UInt64 := (ofString f s).words.toArray

end HashFunction

/-- A wide function seen through the first word of its digests. -/
structure FirstWord (φ : Type) where
  wide : φ
deriving DecidableEq

instance {φ : Type} [HashFunction φ Digest128] : HashFunction (FirstWord φ) UInt64 where
  name f := HashFunction.name f.wide
  body f len := Digest128.low <$> HashFunction.body f.wide len
  void f := (HashFunction.void f.wide).low
  ofU8 f v := (HashFunction.ofU8 f.wide v).low
  ofU16 f v := (HashFunction.ofU16 f.wide v).low
  ofU32 f v := (HashFunction.ofU32 f.wide v).low
  ofU64 f v := (HashFunction.ofU64 f.wide v).low

instance {φ : Type} [Inhabited φ] : Inhabited (FirstWord φ) := ⟨⟨default⟩⟩

/-- A wide function that stands elsewhere. -/
structure Reference (φ : Type) where
  target : φ
deriving DecidableEq

instance {φ : Type} [HashFunction φ Digest128] : HashFunction (Reference φ) Digest128 where
  name f := HashFunction.name f.target
  body f := HashFunction.body f.target
  void f := HashFunction.void f.target
  ofU8 f := HashFunction.ofU8 f.target
  ofU16 f := HashFunction.ofU16 f.target
  ofU32 f := HashFunction.ofU32 f.target
  ofU64 f := HashFunction.ofU64 f.target

/-- The first words of a function that stays where it is. -/
def HashFunction.firstWord {φ : Type} [HashFunction φ Digest128] (f : φ) :
    FirstWord (Reference φ) :=
  ⟨⟨f⟩⟩

/-- A function stripped of its shortcuts for single words. -/
structure Essential (φ : Type) where
  function : φ
deriving DecidableEq

instance {φ δ : Type} [HashFunction φ δ] : HashFunction (Essential φ) δ where
  name f := HashFunction.name f.function
  body f := HashFunction.body f.function
  void f := HashFunction.void f.function

end Fingerprint
