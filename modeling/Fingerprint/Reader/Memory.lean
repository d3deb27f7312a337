import Fingerprint.Reader.Basic
import Fingerprint.Scalar

/-!
# Contiguous memory

Arrays of scalars, strings and bare memory are bytes in a row. They are read in the native order,
either by loads of every width, or by loads of 32 bits and more alone.
-/

namespace Fingerprint
set_option autoImplicit false

/-- A representation whose bytes lie in a row. -/
class Contiguous (ι : Type) where
  byteAt : ι → Nat → UInt8

/-- Memory from some address on, of no stated size. -/
structure Memory where
  cell : Nat → UInt8

namespace Memory

def ofBytes (bytes : Array UInt8) : Memory := ⟨fun i => bytes.getD i 0⟩

end Memory

instance : Contiguous Memory := ⟨Memory.cell⟩

instance {α : Type} [Scalar α] : Contiguous (Array α) := ⟨Scalar.byteOf⟩

/-- Byte `i` of the UTF-8 form of a string; zero beyond it. -/
def utf8ByteAt (s : String) (i : Nat) : UInt8 :=
  if h : (⟨i⟩ : String.Pos.Raw) < s.rawEndPos then s.getUTF8Byte ⟨i⟩ h else 0

instance : Contiguous String := ⟨utf8ByteAt⟩

namespace Reader

variable {ι : Type} [Contiguous ι]

/-- The word of `w` bytes at `offset`, in the native order. -/
def load (x : ι) (w : Width) (offset : Nat) : UInt64 :=
  ByteOrder.native.assemble (Bytes.slice (Contiguous.byteAt x) offset w.bytes)

def memory : Reader ι where
  order _ := .native
  read := load

/-- Where the load begins that a coarse reader answers a read with. A narrow read is cut from the
32-bit word that ends with it, and has none if that word would begin before the input. -/
def coarseLoad? : Width → Nat → Option Nat
  | .one, offset => if 3 ≤ offset then some (offset - 3) else none
  | .two, offset => if 2 ≤ offset then some (offset - 2) else none
  | .four, offset => some offset
  | .eight, offset => some offset

def coarseWidth : Width → Width
  | .eight => .eight
  | _ => .four

/-- The requested bytes of that load: its top ones. -/
def coarseCut : Width → UInt64 → UInt64
  | .one, word => word >>> 24
  | .two, word => word >>> 16
  | .four, word => word
  | .eight, word => word

/-- Loads of 32 and 64 bits alone. -/
def coarse : Reader ι where
  order _ := .native
  read x w offset :=
    match coarseLoad? w offset with
    | some start => coarseCut w (load x (coarseWidth w) start)
    | none => 0

end Reader

end Fingerprint
