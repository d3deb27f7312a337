import Fingerprint.Word.Bytes

/-!
# Widths and byte orders

A read delivers one, two, four or eight bytes as one word. The byte order says which end of the
bytes is the low end of the word; `assemble` builds the word and `swapBytes` exchanges the orders.
-/

namespace Fingerprint
set_option autoImplicit false

inductive Width where
  | one
  | two
  | four
  | eight
deriving DecidableEq

namespace Width

def bytes : Width → Nat
  | one => 1
  | two => 2
  | four => 4
  | eight => 8

@[simp] theorem bytes_one : one.bytes = 1 := rfl

@[simp] theorem bytes_two : two.bytes = 2 := rfl

@[simp] theorem bytes_four : four.bytes = 4 := rfl

@[simp] theorem bytes_eight : eight.bytes = 8 := rfl

theorem bytes_le_eight (w : Width) : w.bytes ≤ 8 := by cases w <;> decide

end Width

inductive ByteOrder where
  | little
  | big
deriving DecidableEq

namespace ByteOrder

/-- The order of the machine that digests are defined on. -/
def native : ByteOrder := little

def reverse : ByteOrder → ByteOrder
  | little => big
  | big => little

def name : ByteOrder → String
  | little => "little-endian"
  | big => "big-endian"

def isNative (o : ByteOrder) : Bool := o == native

@[simp] theorem reverse_reverse (o : ByteOrder) : o.reverse.reverse = o := by cases o <;> rfl

/-- The word that `bytes`, read in this order, stand for. -/
def assemble : ByteOrder → List UInt8 → UInt64
  | little, bytes => UInt64.ofNat (Bytes.value bytes)
  | big, bytes => UInt64.ofNat (Bytes.value bytes.reverse)

/-- The `count` lowest bytes of a word, laid out in this order. -/
def layOut : ByteOrder → Nat → Nat → List UInt8
  | little, count, n => Bytes.digits count n
  | big, count, n => (Bytes.digits count n).reverse

end ByteOrder

/-- The word whose `w` low bytes are those of `x` in the opposite order. -/
def swapBytes (w : Width) (x : UInt64) : UInt64 :=
  ByteOrder.big.assemble (Bytes.digits w.bytes x.toNat)

end Fingerprint
