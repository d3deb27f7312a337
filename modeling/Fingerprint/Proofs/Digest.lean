import Fingerprint.Proofs.Lawful.Memory
import Fingerprint.Proofs.Reads.Functions

/-!
# Digests of ranges

A digest depends on the bytes of the range alone: not on how they are represented, not on the order
they are read in, and not on what lies around them. To compute it takes no read outside the range,
and takes every byte in it.
-/

namespace Fingerprint
set_option autoImplicit false

/-- The `len` bytes of an image from `offset` on. -/
def bytesOf (image : Array UInt8) (offset len : UInt64) : Array UInt8 :=
  image.extract offset.toNat (offset.toNat + len.toNat)

section
variable {image : Array UInt8} {offset len : UInt64}

theorem size_bytesOf (h : offset.toNat + len.toNat ≤ image.size) :
    (bytesOf image offset len).size = len.toNat := by
  rw [bytesOf, Array.size_extract]
  omega

theorem getD_bytesOf (h : offset.toNat + len.toNat ≤ image.size) {i : Nat} (hi : i < len.toNat) :
    (bytesOf image offset len).getD i 0 = image.getD (offset.toNat + i) 0 := by
  rw [bytesOf, Array.getD_eq_getD_getElem?, Array.getD_eq_getD_getElem?, Array.getElem?_extract,
    if_pos (by omega)]

end

namespace HashFunction
open Plan

/-! ## Digests and representations -/

section
variable {φ δ : Type} [HashFunction φ δ] {f : φ}
variable {ι : Type} {r : Reader ι} {x : ι} {image : Array UInt8} {offset len : UInt64}

theorem digest_eq_of_readsRange (hf : ReadsRange f) (hr : r.Lawful x image)
    (h : offset.toNat + len.toNat ≤ image.size) :
    digest f r x offset len = ofBytes f (bytesOf image offset len) := by
  have hsize := size_bytesOf h
  have hlen : UInt64.ofNat (bytesOf image offset len).size = len := by
    rw [hsize, UInt64.ofNat_toNat]
  rw [ofBytes, hlen]
  apply run_congr (hf.staysInside len)
  intro w p hin
  have hin : p.toNat + w.bytes ≤ len.toNat := hin
  have hbytes := (Reader.lawful_bytes (bytesOf image offset len)).readLittle
    (by rw [hsize]; exact hin : p.toNat + w.bytes ≤ (bytesOf image offset len).size)
  rw [hr.readLittle (by omega), UInt64.toNat_zero, Nat.zero_add, hbytes, Bytes.slice_add,
    Bytes.slice_congr fun i _ hi => getD_bytesOf h (by omega)]

/-- The digest of all of an input is the digest of its image. -/
theorem digest_all_of_readsRange (hf : ReadsRange f) (hr : r.Lawful x image) :
    digest f r x 0 (UInt64.ofNat image.size) = ofBytes f image := by
  have hle : (0 : UInt64).toNat + (UInt64.ofNat image.size).toNat ≤ image.size := by
    rw [UInt64.toNat_zero, Nat.zero_add, UInt64.toNat_ofNat']
    exact Nat.mod_le _ _
  rw [digest_eq_of_readsRange hf hr hle]
  exact (digest_eq_of_readsRange hf (Reader.lawful_bytes image) hle).symm

end

/-- Over any lawful reader, in whichever order, the digest of a range is the digest of its bytes. So
the same bytes have the same digest, however they are represented and wherever they lie. -/
theorem digest_eq_ofBytes {ι : Type} {r : Reader ι} {x : ι} {image : Array UInt8}
    {offset len : UInt64} (hr : r.Lawful x image) (h : offset.toNat + len.toNat ≤ image.size) :
    EveryFunction fun f =>
      digest f r x offset len = ofBytes f (bytesOf image offset len) ∧
      ∀ {κ : Type} (r' : Reader κ) (y : κ) (image' : Array UInt8) (offset' : UInt64),
        r'.Lawful y image' → offset'.toNat + len.toNat ≤ image'.size →
          bytesOf image' offset' len = bytesOf image offset len →
            digest f r x offset len = digest f r' y offset' len := by
  apply everyFunction_readsRange.imp
  intro φ δ _ f hf
  have hdigest := digest_eq_of_readsRange hf hr h
  refine ⟨hdigest, ?_⟩
  intro κ r' y image' offset' hr' h' hbytes
  rw [hdigest, digest_eq_of_readsRange hf hr' h', hbytes]

/-- Three bytes of a big-endian buffer, with others around them. -/
theorem digest_bigEndian_eq_ofBytes :
    EveryFunction fun f =>
      digest f Buffer.reader (Buffer.ofBytes #[9, 1, 2, 3, 9]) 1 3 = ofBytes f #[1, 2, 3] :=
  (digest_eq_ofBytes (Buffer.lawful_reader (Buffer.ofBytes #[9, 1, 2, 3, 9])) (by decide)).imp
    fun _ h => h.1

/-! ## Reads refused -/

/-- The reads that lie entirely between two offsets. -/
def within (low high : Nat) (w : Width) (offset : Nat) : Bool :=
  low ≤ offset && offset + w.bytes ≤ high

def avoiding (k : Nat) (w : Width) (offset : Nat) : Bool := !(offset ≤ k && k < offset + w.bytes)

/-- The digest through a reader that refuses all reads but the allowed ones. There is none if the
body makes a read that is refused or whose offset does not fit a word, reads a table beyond its end,
or computes a position that does not fit a word. -/
def attempt {φ δ ι : Type} [HashFunction φ δ] (f : φ) (allowed : Width → Nat → Bool) (r : Reader ι)
    (x : ι) (offset len : UInt64) : Option δ :=
  (body f len).attempt fun w p =>
    if fits offset p && allowed w (offset.toNat + p.toNat) then
      some (r.readLittle x w (offset.toNat + p.toNat))
    else none

/-- No read leaves the range, no position wraps, and no table is read beyond its end. So it does no
harm to refuse all reads but those inside the range. -/
theorem attempt_within_range {ι : Type} (r : Reader ι) (x : ι) {offset len : UInt64} {size : Nat}
    (h : offset.toNat + len.toNat ≤ size) (hsize : size < 2 ^ 64) :
    EveryFunction fun f =>
      (body f len).StaysInside len ∧
      attempt f (within offset.toNat (offset.toNat + len.toNat)) r x offset len =
        some (digest f r x offset len) := by
  apply everyFunction_readsRange.imp
  intro φ δ _ f hf
  refine ⟨hf.staysInside len, ?_⟩
  apply attempt_eq_some_run (hf.staysInside len)
  · intro w p hin
    have hin : p.toNat + w.bytes ≤ len.toNat := hin
    have hfits : fits offset p = true := fits_iff.2 (by omega)
    have hwithin : within offset.toNat (offset.toNat + len.toNat) w (offset.toNat + p.toNat) =
        true := by
      simp only [within, Bool.and_eq_true, decide_eq_true_eq]
      omega
    rw [hfits, hwithin]
    rfl
  · rintro t w p ⟨hsize, hp⟩
    omega
  · exact fun _ h => h

theorem attempt_within_full_range :
    EveryFunction fun f =>
      attempt f (within 1 4) Buffer.reader (Buffer.ofBytes #[9, 1, 2, 3, 9]) 1 3 =
        some (digest f Buffer.reader (Buffer.ofBytes #[9, 1, 2, 3, 9]) 1 3) :=
  (attempt_within_range Buffer.reader (Buffer.ofBytes #[9, 1, 2, 3, 9])
    (by decide : (1 : UInt64).toNat + (3 : UInt64).toNat ≤ 5) (by decide)).imp fun _ h => h.2

/-- Some read takes in each byte of the range. So there is no digest if the reads of any one byte are
refused. -/
theorem attempt_avoiding_byte {ι : Type} (r : Reader ι) (x : ι) (offset : UInt64) {len : UInt64}
    {k : Nat} (hk : k < len.toNat) :
    EveryFunction fun f =>
      (body f len).Covers k ∧ attempt f (avoiding (offset.toNat + k)) r x offset len = none := by
  apply everyFunction_readsRange.imp
  intro φ δ _ f hf
  refine ⟨hf.covers len k hk, ?_⟩
  apply attempt_eq_none (hf.covers len k hk)
  · rintro w p ⟨hp, hk⟩
    have havoiding : avoiding (offset.toNat + k) w (offset.toNat + p.toNat) = false := by
      simp only [avoiding, Bool.not_eq_false', Bool.and_eq_true, decide_eq_true_eq]
      omega
    rw [havoiding, Bool.and_false]
    rfl
  · exact fun _ _ _ => id
  · exact fun _ => id

theorem attempt_avoiding_last_byte :
    EveryFunction fun f =>
      attempt f (avoiding 3) Buffer.reader (Buffer.ofBytes #[9, 1, 2, 3, 9]) 1 3 = none :=
  (attempt_avoiding_byte Buffer.reader (Buffer.ofBytes #[9, 1, 2, 3, 9]) 1
    (by decide : 2 < (3 : UInt64).toNat)).imp fun _ h => h.2

end HashFunction

end Fingerprint
