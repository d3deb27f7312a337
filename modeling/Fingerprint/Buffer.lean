import Fingerprint.Reader.Memory
import Fingerprint.Refusal

/-!
# Windowed byte buffers

A buffer is a storage with a window, from its position to its limit, and the order its words are
read in. Every buffer that `ofBytes`, `withWindow` and `withOrder` build keeps its window inside its
storage.
-/

namespace Fingerprint
set_option autoImplicit false

structure Buffer where
  storage : Array UInt8
  position : UInt64
  limit : UInt64
  order : ByteOrder
deriving DecidableEq

namespace Buffer

def ofBytes (storage : Array UInt8) : Buffer :=
  ⟨storage, 0, UInt64.ofNat storage.size, .big⟩

def capacity (b : Buffer) : Nat := b.storage.size

/-- Sets the window; both ends count from the front of the storage, whatever the window was. -/
def withWindow (b : Buffer) (position limit : UInt64) : Except Refusal Buffer :=
  if limit < position then
    .error (.outOfBounds position 0 limit.toNat)
  else do
    checkRange b.capacity 0 limit
    return { b with position, limit }

def withOrder (b : Buffer) (order : ByteOrder) : Buffer := { b with order }

/-- The bytes inside the window; none if it did not lie inside the storage. -/
def remaining (b : Buffer) : Array UInt8 :=
  if b.position ≤ b.limit ∧ b.limit.toNat ≤ b.capacity then
    b.storage.extract b.position.toNat b.limit.toNat
  else #[]

def windowSize (b : Buffer) : UInt64 := b.limit - b.position

/-- What the owner of a buffer does to it: set the window, set the order, or take the storage out and
put it into a new buffer. -/
inductive Step where
  | window (position limit : UInt64)
  | order (order : ByteOrder)
  | renew

def step (b : Buffer) : Step → Except Refusal Buffer
  | .window position limit => b.withWindow position limit
  | .order order => .ok (b.withOrder order)
  | .renew => .ok (ofBytes b.storage)

/-- The buffer that the owner goes on with: the old one, if the step is refused. -/
def after (b : Buffer) (s : Step) : Buffer := (b.step s).toOption.getD b

def run (b : Buffer) (steps : List Step) : Buffer := steps.foldl after b

def reader : Reader Buffer where
  order b := b.order
  read b w offset :=
    let word := Reader.load b.storage w offset
    if b.order.isNative then word else swapBytes w word

end Buffer

end Fingerprint
