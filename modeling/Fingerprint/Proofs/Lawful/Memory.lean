import Fingerprint.Buffer
import Fingerprint.Proofs.Lawful.Basic

/-!
# Contiguous memory is read lawfully

Arrays of scalars, strings, bare memory and buffers give the bytes of their images.
-/

namespace Fingerprint
set_option autoImplicit false

namespace Reader

/-- A load is lawful where the bytes in a row are those of the image. -/
theorem lawful_memory {ι : Type} [Contiguous ι] {x : ι} {image : Array UInt8}
    (h : ∀ i < image.size, Contiguous.byteAt x i = image.getD i 0) :
    Reader.memory.Lawful x image := by
  intro w offset hin
  change ByteOrder.native.assemble (Bytes.slice (Contiguous.byteAt x) offset w.bytes) = _
  rw [Bytes.slice_congr fun i _ hi => h i (by omega)]
  rfl

end Reader

/-! ## Arrays of scalars -/

namespace Scalar

variable {α : Type} [Scalar α]

theorem getElem?_bytes (a : α) {i : Nat} (hi : i < width α) :
    (bytes a)[i]? = some ((toUnsigned a).byteAt i) :=
  Bytes.getElem?_digits ((width_toUnsigned a).symm ▸ hi)

theorem size_image (values : Array α) : (image values).size = values.size * width α := by
  rw [image, List.size_toArray, Bytes.length_flatMap length_bytes, Array.length_toList]

theorem byteOf_eq_image (values : Array α) {i : Nat} (hi : i < (image values).size) :
    byteOf values i = (image values).getD i 0 := by
  rw [size_image] at hi
  have hpos : 0 < width α := Nat.pos_of_mul_pos_left (Nat.zero_lt_of_lt hi)
  have hdiv : i / width α < values.size := (Nat.div_lt_iff_lt_mul hpos).2 hi
  rw [image, Array.getD_eq_getD_getElem?, List.getElem?_toArray,
    Bytes.getElem?_flatMap hpos length_bytes, Array.getElem?_toList, byteOf,
    Array.getElem?_eq_getElem hdiv, Option.bind_some,
    getElem?_bytes _ (Nat.mod_lt i hpos), Option.getD_some]

end Scalar

namespace Reader

theorem lawful_array {α : Type} [Scalar α] (values : Array α) :
    Reader.memory.Lawful values (Scalar.image values) :=
  lawful_memory fun _ hi => Scalar.byteOf_eq_image values hi

/-! ## Strings, bare memory, buffers -/

theorem lawful_string (s : String) : Reader.memory.Lawful s s.toByteArray.data := by
  apply lawful_memory
  intro i hi
  have hlt : (⟨i⟩ : String.Pos.Raw) < s.rawEndPos := hi
  change utf8ByteAt s i = _
  rw [utf8ByteAt, dif_pos hlt, Array.getD, dif_pos hi]
  rfl

theorem lawful_cells (m : Memory) (size : Nat) :
    Reader.memory.Lawful m (Array.ofFn fun i : Fin size => m.cell i) := by
  apply lawful_memory
  intro i hi
  rw [Array.getD, dif_pos hi]
  simp [Contiguous.byteAt]

end Reader

theorem Scalar.image_eq_self (bytes : Array UInt8) : Scalar.image bytes = bytes := by
  have hbytes : (Scalar.bytes : UInt8 → List UInt8) = fun b => [b] := by
    funext b
    change [UInt8.ofNat b.toNat] = [b]
    rw [UInt8.ofNat_toNat]
  rw [Scalar.image, hbytes, List.flatMap_singleton', Array.toArray_toList]

theorem Reader.lawful_bytes (bytes : Array UInt8) : Reader.memory.Lawful bytes bytes := by
  have h := Reader.lawful_array bytes
  rwa [Scalar.image_eq_self] at h

theorem Buffer.lawful_reader (b : Buffer) : Buffer.reader.Lawful b b.storage := by
  intro w offset hin
  have hload := Reader.lawful_bytes b.storage w offset hin
  change (if b.order.isNative then Reader.load b.storage w offset
    else swapBytes w (Reader.load b.storage w offset)) = b.order.assemble _
  rw [show Reader.load b.storage w offset = _ from hload]
  cases horder : b.order with
  | little => rfl
  | big => exact swapBytes_assemble w .little (Bytes.length_slice _ _ _)

end Fingerprint
