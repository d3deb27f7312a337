import Fingerprint.Reader.Units
import Fingerprint.Text.Settings

/-!
# Texts

A text is a sequence of UTF-16 units, stored as bytes where all of them fit a byte. Two texts are
equal only if they have the same storage form as well.
-/

namespace Fingerprint
set_option autoImplicit false

/-- The UTF-16 units of a character: one below U+10000, a surrogate pair above. -/
def utf16OfChar (c : Char) : List UInt16 :=
  if c.val < 0x10000 then
    [c.val.toUInt16]
  else
    let v := c.val - 0x10000
    let lead := (v >>> 10) + 0xD800
    let trail := (v &&& 0x3FF) + 0xDC00
    [lead.toUInt16, trail.toUInt16]

def utf16Units (s : String) : Array UInt16 := (s.toList.flatMap utf16OfChar).toArray

inductive Text where
  | latin1 (bytes : Array UInt8)
  | utf16 (units : Array UInt16)
deriving DecidableEq

namespace Text

/-- A text of the given units, stored as bytes if every unit fits. -/
def ofUnits (units : Array UInt16) : Text :=
  if units.all (· < 0x100) then latin1 (units.map UInt16.toUInt8) else utf16 units

def ofLatin1 (bytes : Array UInt8) : Text := latin1 bytes

def ofString (s : String) : Text := ofUnits (utf16Units s)

def isLatin1 : Text → Bool
  | latin1 _ => true
  | utf16 _ => false

def units : Text → Array UInt16
  | latin1 bytes => bytes.map UInt8.toUInt16
  | utf16 units => units

def length : Text → Nat
  | latin1 bytes => bytes.size
  | utf16 units => units.size

def isEmpty (t : Text) : Bool := t.length == 0

def unitAt : Text → Nat → UInt16
  | latin1 bytes, i => (bytes.getD i 0).toUInt16
  | utf16 units, i => units.getD i 0

def byteLength (t : Text) : Nat := t.length * 2

instance : UnitSequence Text where
  length := length
  unitAt := unitAt

/-- What of a text a strategy reads: its bytes, its units, or the text unit by unit. -/
inductive View where
  | latin1 (bytes : Array UInt8)
  | utf16 (units : Array UInt16)
  | sequence (text : Text)
deriving DecidableEq

def View.byteLength : View → Nat
  | latin1 bytes => bytes.size * 2
  | utf16 units => units.size * 2
  | sequence text => text.byteLength

def view (strategy : Strategy) (t : Text) : View :=
  match strategy, t with
  | .direct, latin1 bytes => .latin1 bytes
  | .direct, utf16 units => .utf16 units
  | .generic, t => .sequence t

end Text

end Fingerprint
