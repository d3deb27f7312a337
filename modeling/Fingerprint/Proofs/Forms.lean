import Fingerprint.Proofs.Digest
import Fingerprint.Proofs.Lawful.Units

/-!
# Every form is exact

A form that takes all of an input gives the digest of its byte image. One that takes a range, told in
elements, units or bytes, answers exactly those that end within the input, with the digest of the
bytes they come to, and tells all others back as they were asked for.
-/

namespace Fingerprint
open HashFunction
set_option autoImplicit false

/-! ## Images of unit sequences -/

namespace UnitSequence

/-- The units of a sequence, in order. -/
def units {ι : Type} [UnitSequence ι] (x : ι) : Array UInt16 :=
  Array.ofFn fun i : Fin (length x) => unitAt x i

section
variable {ι : Type} [UnitSequence ι] (x : ι)

@[simp] theorem size_units : (units x).size = length x := Array.size_ofFn

theorem unitAt_eq_getD {i : Nat} (hi : i < (units x).size) : unitAt x i = (units x).getD i 0 := by
  rw [Array.getD, dif_pos hi]
  simp [units]

theorem units_eq {x : ι} {us : Array UInt16} (hlen : length x = us.size)
    (h : ∀ i < us.size, unitAt x i = us.getD i 0) : units x = us := by
  apply Array.ext
  · rw [size_units, hlen]
  · intro i hi hi'
    have hunit := h i hi'
    rw [Array.getD, dif_pos hi'] at hunit
    simpa [units] using hunit

end

@[simp] theorem units_array (us : Array UInt16) : units us = us := units_eq rfl fun _ _ => rfl

@[simp] theorem units_ring (r : Ring) : units r = r.units :=
  units_eq Array.size_append.symm fun i _ => r.unitAt_eq_getD i

@[simp] theorem units_text (t : Text) : units t = t.units :=
  units_eq t.length_eq_size fun _ hi => t.unitAt_eq_getD hi

@[simp] theorem units_borrowed {ι : Type} [UnitSequence ι] (x : Borrowed ι) :
    units x = units x.target := rfl

end UnitSequence

/-- In the native order, units are laid out as the scalars they are. -/
theorem Units.image_native (us : Array UInt16) : Units.image .native us = Scalar.image us := rfl

theorem Reader.lawful_sequence {ι : Type} [UnitSequence ι] (order : ByteOrder) (x : ι) :
    (Reader.units order).Lawful x (Units.image order (UnitSequence.units x)) :=
  Reader.lawful_of_units (r := Reader.units order) rfl fun _ hi => UnitSequence.unitAt_eq_getD x hi

/-! ## Ranges -/

/-- A form that takes ranges of an input of `size` elements, each of `width` bytes of the image. -/
structure RangeExact {φ δ : Type} [HashFunction φ δ] (f : φ) (image : Array UInt8)
    (size width : Nat) (form : UInt64 → UInt64 → Except Refusal δ) : Prop where
  size_image : image.size = size * width
  answers : ∀ offset len : UInt64, offset.toNat + len.toNat ≤ size →
    offset.toNat * width < 2 ^ 64 ∧ len.toNat * width < 2 ^ 64 ∧
      form offset len = .ok (ofBytes f (image.extract (offset.toNat * width)
        ((offset.toNat + len.toNat) * width)))
  refuses : ∀ offset len : UInt64, size < offset.toNat + len.toNat →
    form offset len = .error (.outOfBounds offset len size)

theorem toNat_mul_ofNat {a : UInt64} {width : Nat} (h : a.toNat * width < 2 ^ 64) :
    (a * UInt64.ofNat width).toNat = a.toNat * width := by
  rw [UInt64.toNat_mul, UInt64.toNat_ofNat', Nat.mul_mod_mod, Nat.mod_eq_of_lt h]

section
variable {φ δ : Type} [HashFunction φ δ] {f : φ} (hf : ReadsRange f)
include hf

/-- A form that checks a range in its own elements, and reads it in bytes. -/
theorem RangeExact.of_reader {ι : Type} {r : Reader ι} {x : ι} {image : Array UInt8}
    {size width : Nat} {form : UInt64 → UInt64 → Except Refusal δ} (hr : r.Lawful x image)
    (hsize : image.size = size * width)
    (hfits : ∀ n : UInt64, n.toNat ≤ size → n.toNat * width < 2 ^ 64)
    (hform : ∀ offset len, form offset len = do
      checkRange size offset len
      return digest f r x (offset * UInt64.ofNat width) (len * UInt64.ofNat width)) :
    RangeExact f image size width form where
  size_image := hsize
  answers offset len h := by
    have hoffset := hfits offset (by omega)
    have hlen := hfits len (by omega)
    -- The range was checked in elements; only the products with the width are in bytes.
    have hsum : offset.toNat * width + len.toNat * width = (offset.toNat + len.toNat) * width :=
      (Nat.add_mul ..).symm
    have hin : (offset * UInt64.ofNat width).toNat + (len * UInt64.ofNat width).toNat ≤
        image.size := by
      rw [toNat_mul_ofNat hoffset, toNat_mul_ofNat hlen, hsum, hsize]
      exact Nat.mul_le_mul_right width h
    refine ⟨hoffset, hlen, ?_⟩
    rw [hform, checkRange, if_pos h, digest_eq_of_readsRange hf hr hin, bytesOf,
      toNat_mul_ofNat hoffset, toNat_mul_ofNat hlen, hsum]
    rfl
  refuses offset len h := by
    rw [hform, checkRange, if_neg (Nat.not_le_of_lt h)]
    rfl

/-- A form whose elements are bytes: there are no products that might wrap. -/
theorem RangeExact.of_bytes {ι : Type} {r : Reader ι} {x : ι} {image : Array UInt8}
    {form : UInt64 → UInt64 → Except Refusal δ} (hr : r.Lawful x image)
    (hform : ∀ offset len, form offset len = do
      checkRange image.size offset len
      return digest f r x offset len) : RangeExact f image image.size 1 form := by
  apply RangeExact.of_reader hf hr (Nat.mul_one _).symm
  · intro n _
    rw [Nat.mul_one]
    exact n.toNat_lt
  · intro offset len
    simp only [UInt64.reduceOfNat, UInt64.mul_one, hform]

/-! ## Forms that take all of an input -/

namespace HashFunction

theorem ofArray_eq_ofBytes {α : Type} [Scalar α] (values : Array α) :
    ofArray f values = ofBytes f (Scalar.image values) := by
  rw [ofArray, ← Scalar.size_image]
  exact digest_all_of_readsRange hf (Reader.lawful_array values)

theorem ofMemory_eq_ofBytes (m : Memory) (len : UInt64) :
    ofMemory f m len = ofBytes f (Array.ofFn fun i : Fin len.toNat => m.cell i) := by
  have hall := digest_all_of_readsRange hf (Reader.lawful_cells m len.toNat)
  rwa [Array.size_ofFn, UInt64.ofNat_toNat] at hall

theorem ofString_eq_ofBytes (s : String) : ofString f s = ofBytes f s.toByteArray.data :=
  digest_all_of_readsRange hf (Reader.lawful_string s)

theorem ofUnits_eq_ofBytes (us : Array UInt16) : ofUnits f us = ofBytes f (Scalar.image us) :=
  ofArray_eq_ofBytes hf us

theorem ofSequence_eq_ofBytes {ι : Type} [UnitSequence ι] (x : ι) :
    ofSequence f x = ofBytes f (Scalar.image (UnitSequence.units x)) := by
  have hall := digest_all_of_readsRange hf (Reader.lawful_sequence .native x)
  rwa [Units.size_image, UnitSequence.size_units, Units.image_native] at hall

/-- Of a buffer, all there is to take is its window. -/
theorem ofBuffer_eq_ofBytes (b : Buffer) (hwindow : b.position ≤ b.limit)
    (hlimit : b.limit.toNat ≤ b.capacity) : ofBuffer f b = ofBytes f b.remaining := by
  have hlen : b.position.toNat + b.windowSize.toNat = b.limit.toNat := by
    rw [Buffer.windowSize, UInt64.toNat_sub_of_le _ _ hwindow]
    exact Nat.add_sub_cancel' hwindow
  rw [ofBuffer, digest_eq_of_readsRange hf b.lawful_reader (hlen.symm ▸ hlimit), bytesOf, hlen,
    Buffer.remaining, if_pos ⟨hwindow, hlimit⟩]

/-! ## Forms that take ranges -/

theorem ofBytesRange_exact (bytes : Array UInt8) :
    RangeExact f bytes bytes.size 1 (ofBytesRange f bytes) :=
  .of_bytes hf (Reader.lawful_bytes bytes) fun _ _ => rfl

theorem ofBufferRange_exact (b : Buffer) :
    RangeExact f b.storage b.capacity 1 (ofBufferRange f b) :=
  .of_bytes hf b.lawful_reader fun _ _ => rfl

theorem ofArrayRange_exact {α : Type} [Scalar α] (values : Array α)
    (h : values.size * Scalar.width α < 2 ^ 64) :
    RangeExact f (Scalar.image values) values.size (Scalar.width α) (ofArrayRange f values) :=
  .of_reader hf (Reader.lawful_array values) (Scalar.size_image values)
    (fun _ hn => Nat.lt_of_le_of_lt (Nat.mul_le_mul_right _ hn) h) fun _ _ => rfl

theorem ofUnitsRange_exact (us : Array UInt16) (h : us.size * 2 < 2 ^ 64) :
    RangeExact f (Scalar.image us) us.size 2 (ofUnitsRange f us) :=
  ofArrayRange_exact hf us h

theorem ofSequenceRange_exact {ι : Type} [UnitSequence ι] (x : ι)
    (h : UnitSequence.length x * 2 < 2 ^ 64) :
    RangeExact f (Scalar.image (UnitSequence.units x)) (UnitSequence.length x) 2
      (ofSequenceRange f x) := by
  apply RangeExact.of_reader hf (Reader.lawful_sequence .native x)
  · rw [Units.size_image, UnitSequence.size_units]
  · exact fun _ hn => Nat.lt_of_le_of_lt (Nat.mul_le_mul_right _ hn) h
  · exact fun _ _ => rfl

end HashFunction
end

/-! ## All forms together -/

/-- Every form gives the digest of the byte image of its input, or of the range of it that was asked
for. The sizes of ranges are told in bytes, elements, units, or the whole capacity of a buffer. -/
structure ExactForms {φ δ : Type} [HashFunction φ δ] (f : φ) : Prop where
  bytes : ∀ bytes : Array UInt8, ofArray f bytes = ofBytes f bytes
  array : ∀ {α : Type} [Scalar α] (values : Array α),
    ofArray f values = ofBytes f (Scalar.image values)
  memory : ∀ (m : Memory) (len : UInt64),
    ofMemory f m len = ofBytes f (Array.ofFn fun i : Fin len.toNat => m.cell i)
  buffer : ∀ b : Buffer, b.position ≤ b.limit → b.limit.toNat ≤ b.capacity →
    ofBuffer f b = ofBytes f b.remaining
  string : ∀ s : String, ofString f s = ofBytes f s.toByteArray.data
  units : ∀ us : Array UInt16, ofUnits f us = ofBytes f (Scalar.image us)
  sequence : ∀ {ι : Type} [UnitSequence ι] (x : ι),
    ofSequence f x = ofBytes f (Scalar.image (UnitSequence.units x))
  bytesRange : ∀ bytes : Array UInt8, RangeExact f bytes bytes.size 1 (ofBytesRange f bytes)
  arrayRange : ∀ {α : Type} [Scalar α] (values : Array α),
    values.size * Scalar.width α < 2 ^ 64 →
      RangeExact f (Scalar.image values) values.size (Scalar.width α) (ofArrayRange f values)
  bufferRange : ∀ b : Buffer, RangeExact f b.storage b.capacity 1 (ofBufferRange f b)
  unitsRange : ∀ us : Array UInt16, us.size * 2 < 2 ^ 64 →
    RangeExact f (Scalar.image us) us.size 2 (ofUnitsRange f us)
  sequenceRange : ∀ {ι : Type} [UnitSequence ι] (x : ι), UnitSequence.length x * 2 < 2 ^ 64 →
    RangeExact f (Scalar.image (UnitSequence.units x)) (UnitSequence.length x) 2
      (ofSequenceRange f x)
  alike : ∀ {α β : Type} [Scalar α] [Scalar β] (a : Array α) (b : Array β),
    Scalar.image a = Scalar.image b → ofArray f a = ofArray f b

namespace HashFunction

theorem everywhere_exactForms : Everywhere fun f => ExactForms f := by
  apply everywhere_readsRange.imp
  intro φ δ _ f hf
  exact {
    bytes := fun bytes => by rw [ofArray_eq_ofBytes hf, Scalar.image_eq_self]
    array := ofArray_eq_ofBytes hf
    memory := ofMemory_eq_ofBytes hf
    buffer := ofBuffer_eq_ofBytes hf
    string := ofString_eq_ofBytes hf
    units := ofUnits_eq_ofBytes hf
    sequence := ofSequence_eq_ofBytes hf
    bytesRange := ofBytesRange_exact hf
    arrayRange := ofArrayRange_exact hf
    bufferRange := ofBufferRange_exact hf
    unitsRange := ofUnitsRange_exact hf
    sequenceRange := ofSequenceRange_exact hf
    alike := fun a b h => by rw [ofArray_eq_ofBytes hf, ofArray_eq_ofBytes hf, h] }

/-- Two words of three, and a range whose end is small only if it wraps. -/
theorem ofArrayRange_three_words :
    Everywhere fun f =>
      ofArrayRange f #[(1 : UInt32), 2, 3] 1 2 = .ok (ofBytes f #[2, 0, 0, 0, 3, 0, 0, 0]) ∧
      ofArrayRange f #[(1 : UInt32), 2, 3] 0xFFFFFFFFFFFFFFFF 2 =
        .error (.outOfBounds 0xFFFFFFFFFFFFFFFF 2 3) := by
  apply everywhere_exactForms.imp
  intro φ δ _ f hf
  have hrange := hf.arrayRange #[(1 : UInt32), 2, 3] (by decide)
  exact ⟨(hrange.answers 1 2 (by decide)).2.2, hrange.refuses _ _ (by decide)⟩

end HashFunction

end Fingerprint
