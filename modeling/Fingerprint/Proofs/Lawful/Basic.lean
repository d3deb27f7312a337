import Fingerprint.Proofs.Words
import Fingerprint.Reader.Basic
import Mathlib.Logic.Function.Iterate

/-!
# Laws of readers

Swapping a lawful reader gives a lawful reader of the same image in the opposite order, to any depth.
So a lawful reader, whatever its order, gives the bytes of the image as little-endian words.
-/

namespace Fingerprint
set_option autoImplicit false

namespace Reader

variable {ι : Type} {r : Reader ι} {x : ι} {image : Array UInt8}

theorem Lawful.swapped (h : r.Lawful x image) : r.swapped.Lawful x image := by
  intro w offset hin
  change swapBytes w (r.read x w offset) = (r.order x).reverse.assemble _
  rw [h w offset hin, swapBytes_assemble w _ (Bytes.length_slice _ _ _)]

theorem readLittle_of_little (h : r.order x = .little) : r.readLittle x = r.read x := by
  rw [Reader.readLittle, h]

theorem readLittle_of_big (h : r.order x = .big) : r.readLittle x = r.swapped.read x := by
  rw [Reader.readLittle, h]

/-- Whatever its order, a lawful reader gives the little-endian words of the image. -/
theorem Lawful.readLittle (h : r.Lawful x image) {w : Width} {offset : Nat}
    (hin : offset + w.bytes ≤ image.size) :
    r.readLittle x w offset =
      ByteOrder.little.assemble (Bytes.slice (fun i => image.getD i 0) offset w.bytes) := by
  cases horder : r.order x with
  | little => rw [readLittle_of_little horder, h w offset hin, horder]
  | big =>
    rw [readLittle_of_big horder, h.swapped w offset hin]
    change (r.order x).reverse.assemble _ = _
    rw [horder]
    rfl

/-- At every depth of swapping the reader is lawful for the image, and reports the order flipped as
often. -/
def LawfulAtDepth (r : Reader ι) (x : ι) (image : Array UInt8) (order : ByteOrder) : Prop :=
  ∀ n, (r.swappedTimes n).Lawful x image ∧
    (r.swappedTimes n).order x = ByteOrder.reverse^[n] order

theorem Lawful.atDepth (h : r.Lawful x image) : r.LawfulAtDepth x image (r.order x) := by
  intro n
  induction n with
  | zero => exact ⟨h, rfl⟩
  | succ n ih =>
    refine ⟨ih.1.swapped, ?_⟩
    change ((r.swappedTimes n).order x).reverse = _
    rw [ih.2, Function.iterate_succ_apply']

end Reader

end Fingerprint
