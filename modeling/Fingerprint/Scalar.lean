import Fingerprint.Word.Bytes

/-!
# Values of fixed width

Every primitive value is some unsigned integer of 8, 16, 32, 64 or 128 bits in disguise, and its
byte image is that integer's, least significant byte first. Floating-point values are held as their
bit patterns, so that every pattern stays distinct.
-/

namespace Fingerprint
set_option autoImplicit false

structure UInt128 where
  bits : BitVec 128
deriving DecidableEq

structure Int128 where
  bits : BitVec 128
deriving DecidableEq

/-- A floating-point value of single precision, as its bits. -/
structure Binary32 where
  bits : UInt32
deriving DecidableEq

/-- A floating-point value of double precision, as its bits. -/
structure Binary64 where
  bits : UInt64
deriving DecidableEq

inductive Unsigned where
  | u8 (value : UInt8)
  | u16 (value : UInt16)
  | u32 (value : UInt32)
  | u64 (value : UInt64)
  | u128 (value : UInt128)
deriving DecidableEq

namespace Unsigned

def width : Unsigned → Nat
  | u8 _ => 1
  | u16 _ => 2
  | u32 _ => 4
  | u64 _ => 8
  | u128 _ => 16

def toNat : Unsigned → Nat
  | u8 v => v.toNat
  | u16 v => v.toNat
  | u32 v => v.toNat
  | u64 v => v.toNat
  | u128 v => v.bits.toNat

def bytes (v : Unsigned) : List UInt8 := Bytes.digits v.width v.toNat

/-- Byte `i` of the image; zero beyond it. -/
def byteAt (v : Unsigned) (i : Nat) : UInt8 := UInt8.ofNat (v.toNat >>> (8 * i))

@[simp] theorem length_bytes (v : Unsigned) : v.bytes.length = v.width := by simp [bytes]

end Unsigned

/-- A type whose values are unsigned integers of one width in disguise. -/
class Scalar (α : Type) where
  width : Nat
  toUnsigned : α → Unsigned
  width_toUnsigned : ∀ a, (toUnsigned a).width = width

namespace Scalar

instance : Scalar UInt8 := ⟨1, .u8, fun _ => rfl⟩
instance : Scalar UInt16 := ⟨2, .u16, fun _ => rfl⟩
instance : Scalar UInt32 := ⟨4, .u32, fun _ => rfl⟩
instance : Scalar UInt64 := ⟨8, .u64, fun _ => rfl⟩
instance : Scalar UInt128 := ⟨16, .u128, fun _ => rfl⟩
instance : Scalar Int8 := ⟨1, fun v => .u8 v.toUInt8, fun _ => rfl⟩
instance : Scalar Int16 := ⟨2, fun v => .u16 v.toUInt16, fun _ => rfl⟩
instance : Scalar Int32 := ⟨4, fun v => .u32 v.toUInt32, fun _ => rfl⟩
instance : Scalar Int64 := ⟨8, fun v => .u64 v.toUInt64, fun _ => rfl⟩
instance : Scalar Int128 := ⟨16, fun v => .u128 ⟨v.bits⟩, fun _ => rfl⟩
instance : Scalar Binary32 := ⟨4, fun v => .u32 v.bits, fun _ => rfl⟩
instance : Scalar Binary64 := ⟨8, fun v => .u64 v.bits, fun _ => rfl⟩
instance : Scalar Bool := ⟨1, fun v => .u8 v.toUInt8, fun _ => rfl⟩
instance : Scalar Char := ⟨4, fun v => .u32 v.val, fun _ => rfl⟩

variable {α : Type} [Scalar α]

def bytes (a : α) : List UInt8 := (toUnsigned a).bytes

@[simp] theorem length_bytes (a : α) : (bytes a).length = width α := by
  rw [bytes, Unsigned.length_bytes, width_toUnsigned]

/-- The byte image of an array: the images of its elements in a row. -/
def image (values : Array α) : Array UInt8 := (values.toList.flatMap bytes).toArray

/-- Byte `i` of the image of an array; zero beyond it. -/
def byteOf (values : Array α) (i : Nat) : UInt8 :=
  match values[i / width α]? with
  | some a => (toUnsigned a).byteAt (i % width α)
  | none => 0

end Scalar

end Fingerprint
