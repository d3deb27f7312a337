import Fingerprint.Reader.Basic

/-!
# Sequences of 16-bit units

The byte image of a sequence places unit `i` at bytes `2 i` and `2 i + 1`, in a chosen order. Reads
that begin at an odd byte, or end inside a unit, are put together from the units they touch by
shifts and masks.
-/

namespace Fingerprint
set_option autoImplicit false

/-- An indexed sequence of 16-bit units. -/
class UnitSequence (ι : Type) where
  length : ι → Nat
  unitAt : ι → Nat → UInt16

instance : UnitSequence (Array UInt16) where
  length := Array.size
  unitAt units i := units.getD i 0

/-- A sequence stored in two pieces: what comes first, and what comes after it. -/
structure Ring where
  front : Array UInt16
  back : Array UInt16
deriving DecidableEq

namespace Ring

def units (r : Ring) : Array UInt16 := r.front ++ r.back

def ofUnits (units : Array UInt16) (split : Nat) : Ring :=
  ⟨units.extract 0 split, units.extract split units.size⟩

end Ring

instance : UnitSequence Ring where
  length r := r.front.size + r.back.size
  unitAt r i := if i < r.front.size then r.front.getD i 0 else r.back.getD (i - r.front.size) 0

/-- A sequence that stands elsewhere. -/
structure Borrowed (ι : Type) where
  target : ι

instance {ι : Type} [UnitSequence ι] : UnitSequence (Borrowed ι) where
  length x := UnitSequence.length x.target
  unitAt x := UnitSequence.unitAt x.target

namespace Units

/-- The byte image of units: each laid out in the given order, in a row. -/
def image (order : ByteOrder) (units : Array UInt16) : Array UInt8 :=
  (units.toList.flatMap fun u => order.layOut 2 u.toNat).toArray

def lowByte (u : UInt16) : UInt64 := (u &&& 0xFF).toUInt64

def highByte (u : UInt16) : UInt64 := (u >>> 8).toUInt64

/-- `count` units from `i` on, the first one lowest, above the `shift` low bits of `word`. -/
def stackUp (unit : Nat → UInt16) (shift : Nat) : Nat → Nat → UInt64 → UInt64
  | 0, _, word => word
  | count + 1, i, word =>
    stackUp unit (shift + 16) count (i + 1) (word ||| (unit i).toUInt64 <<< UInt64.ofNat shift)

/-- `count` units from `i` on, the first one highest, below `word`. -/
def stackDown (unit : Nat → UInt16) : Nat → Nat → UInt64 → UInt64
  | 0, _, word => word
  | count + 1, i, word => stackDown unit count (i + 1) (word <<< 16 ||| (unit i).toUInt64)

/-- One byte of a unit: the high one at odd offsets of little-endian images and at even offsets of
big-endian ones. -/
def readByte (order : ByteOrder) (odd : Bool) (u : UInt16) : UInt64 :=
  match order, odd with
  | .little, true => highByte u
  | .little, false => lowByte u
  | .big, true => lowByte u
  | .big, false => highByte u

/-- `count` units' worth of bytes from unit `i` on, or from its second byte on if `odd`. -/
def readUnits (unit : Nat → UInt16) (order : ByteOrder) (odd : Bool) (i count : Nat) : UInt64 :=
  match order, odd with
  | .little, false => stackUp unit 0 count i 0
  | .little, true =>
    stackUp unit 8 (count - 1) (i + 1) (highByte (unit i)) |||
      lowByte (unit (i + count)) <<< UInt64.ofNat (16 * count - 8)
  | .big, false => stackDown unit count i 0
  | .big, true =>
    stackDown unit (count - 1) (i + 1) (lowByte (unit i)) <<< 8 ||| highByte (unit (i + count))

def readAt (unit : Nat → UInt16) (order : ByteOrder) (w : Width) (offset : Nat) : UInt64 :=
  let i := offset / 2
  let odd := offset % 2 == 1
  match w with
  | .one => readByte order odd (unit i)
  | .two => readUnits unit order odd i 1
  | .four => readUnits unit order odd i 2
  | .eight => readUnits unit order odd i 4

end Units

namespace Reader

def units {ι : Type} [UnitSequence ι] (order : ByteOrder) : Reader ι where
  order _ := order
  read x := Units.readAt (UnitSequence.unitAt x) order

/-- Reads bytes as if each were widened to a unit. -/
def latin1 (order : ByteOrder) : Reader (Array UInt8) where
  order _ := order
  read bytes := Units.readAt (fun i => (bytes.getD i 0).toUInt16) order

end Reader

end Fingerprint
