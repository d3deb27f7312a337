import Fingerprint.Proofs.Injective.Images
import Fingerprint.Proofs.Products
import Mathlib.Logic.Function.Basic

/-!
# Which bytes a digest heeds

A function heeds a byte of its inputs of some length if that byte alone can make a difference to the
digest. To show that it does, inputs are given byte by byte, and one bit of one byte is turned: each
word that the byte lies in has one bit turned, and all others stay.
-/

namespace Fingerprint
open Plan
set_option autoImplicit false

/-! ## Inputs byte by byte -/

/-- The words that lie in bytes given one by one. -/
def wordsOf (g : Nat → UInt8) (w : Width) (p : UInt64) : UInt64 :=
  ByteOrder.little.assemble (Bytes.slice g p.toNat w.bytes)

def arrayOf (n : Nat) (g : Nat → UInt8) : Array UInt8 := Array.ofFn fun i : Fin n => g i

def zeros : Nat → UInt8 := fun _ => 0

/-- Turns bit `r` of byte `i`. -/
def flip (g : Nat → UInt8) (i r : Nat) : Nat → UInt8 :=
  Function.update g i (g i ^^^ UInt8.ofNat (2 ^ r))

/-- Puts the eight bytes of a word at `p`. -/
def place (g : Nat → UInt8) (p : Nat) (x : UInt64) : Nat → UInt8 := fun i =>
  if p ≤ i ∧ i < p + 8 then UInt8.ofNat (x.toNat >>> (8 * (i - p))) else g i

/-- The bytes of a row of words. -/
def spread (words : Nat → UInt64) : Nat → UInt8 := fun i =>
  UInt8.ofNat ((words (i / 8)).toNat >>> (8 * (i % 8)))

section
variable {g g' : Nat → UInt8} {n i j r s : Nat} {w : Width} {p : UInt64}

theorem size_arrayOf : (arrayOf n g).size = n := Array.size_ofFn

theorem getElem?_arrayOf : (arrayOf n g)[i]? = if i < n then some (g i) else none := by
  rw [arrayOf, Array.getElem?_ofFn]
  split <;> rfl

theorem wordsOf_congr (h : ∀ i, p.toNat ≤ i → i < p.toNat + w.bytes → g i = g' i) :
    wordsOf g w p = wordsOf g' w p := by
  rw [wordsOf, wordsOf, Bytes.slice_congr h]

theorem tableWord_arrayOf (h : p.toNat + w.bytes ≤ n) :
    tableWord (arrayOf n g) w p = wordsOf g w p := by
  apply wordsOf_congr
  intro i _ hi
  rw [Array.getD_eq_getD_getElem?, getElem?_arrayOf, if_pos (by omega)]
  rfl

theorem toNat_wordsOf (g : Nat → UInt8) (w : Width) (p : UInt64) :
    (wordsOf g w p).toNat = Bytes.value (Bytes.slice g p.toNat w.bytes) :=
  toNat_ofNat_value (by rw [Bytes.length_slice]; exact w.bytes_le_eight)

theorem toNat_wordsOf_lt : (wordsOf g w p).toNat < 256 ^ w.bytes := by
  have hlt := Bytes.value_lt (Bytes.slice g p.toNat w.bytes)
  rwa [Bytes.length_slice, ← toNat_wordsOf] at hlt

theorem toNat_wordsOf_mod : (wordsOf g w p).toNat % 256 = (g p.toNat).toNat := by
  have hbyte := (g p.toNat).toNat_lt
  obtain ⟨k, hk⟩ : ∃ k, w.bytes = k + 1 := by cases w <;> exact ⟨_, rfl⟩
  rw [toNat_wordsOf, hk, Bytes.slice, Bytes.value]
  omega

theorem wordsOf_eight_eq {x : UInt64}
    (h : ∀ i, p.toNat ≤ i → i < p.toNat + 8 →
      g i = UInt8.ofNat (x.toNat >>> (8 * (i - p.toNat)))) : wordsOf g .eight p = x := by
  have hslice : Bytes.slice g p.toNat 8 = Bytes.digits 8 x.toNat :=
    calc
      Bytes.slice g p.toNat 8 = Bytes.slice (fun i => g (p.toNat + i)) 0 8 :=
        Bytes.slice_add g p.toNat 0 8
      _ = Bytes.slice (fun i => UInt8.ofNat (x.toNat >>> (8 * i))) 0 8 := by
        apply Bytes.slice_congr
        intro i _ hi
        rw [h _ (by omega) (by omega), Nat.add_sub_cancel_left]
      _ = Bytes.digits 8 x.toNat := Bytes.slice_digits x.toNat 0 8
  apply UInt64.toNat.inj
  rw [toNat_wordsOf, Width.bytes_eight, hslice, Bytes.value_digits]
  exact Nat.mod_eq_of_lt x.toNat_lt

theorem wordsOf_place (x : UInt64) : wordsOf (place g p.toNat x) .eight p = x :=
  wordsOf_eight_eq fun _ hi hi' => if_pos ⟨hi, hi'⟩

theorem wordsOf_place_of_disjoint {q : Nat} (x : UInt64)
    (h : p.toNat + w.bytes ≤ q ∨ q + 8 ≤ p.toNat) :
    wordsOf (place g q x) w p = wordsOf g w p :=
  wordsOf_congr fun _ hi hi' => if_neg (by omega)

theorem wordsOf_spread {words : Nat → UInt64} {k : Nat} (hp : p.toNat = 8 * k) :
    wordsOf (spread words) .eight p = words k := by
  apply wordsOf_eight_eq
  intro i hi hi'
  have hword : i / 8 = k := by omega
  have hbyte : i % 8 = i - p.toNat := by omega
  rw [spread, hword, hbyte]

/-! ## Bits turned -/

theorem flip_of_ne (h : j ≠ i) : flip g i r j = g j := Function.update_of_ne h _ _

theorem flip_self : flip g i r i = g i ^^^ UInt8.ofNat (2 ^ r) := Function.update_self _ _ _

theorem flip_comm (h : i ≠ j) : flip (flip g i r) j s = flip (flip g j s) i r := by
  rw [flip, flip_of_ne h.symm, flip, flip, flip_of_ne h, flip, Function.update_comm h]

/-- The exclusive or, byte by byte. -/
theorem xor_add_mul_xor {x y : Nat} (hx : x < 256) (hy : y < 256) (u v : Nat) :
    (x ^^^ y) + 256 * (u ^^^ v) = (x + 256 * u) ^^^ (y + 256 * v) := by
  have hlow := Nat.xor_mod_two_pow (a := x + 256 * u) (b := y + 256 * v) (n := 8)
  have hhigh := Nat.xor_div_two_pow (a := x + 256 * u) (b := y + 256 * v) (n := 8)
  have hx' : (x + 256 * u) % 2 ^ 8 = x := by omega
  have hy' : (y + 256 * v) % 2 ^ 8 = y := by omega
  have hu : (x + 256 * u) / 2 ^ 8 = u := by omega
  have hv : (y + 256 * v) / 2 ^ 8 = v := by omega
  rw [hx', hy'] at hlow
  rw [hu, hv] at hhigh
  omega

theorem value_slice_flip (hr : r < 8) {start count : Nat} (hi : start ≤ i)
    (hi' : i < start + count) :
    Bytes.value (Bytes.slice (flip g i r) start count) =
      Bytes.value (Bytes.slice g start count) ^^^ 2 ^ (8 * (i - start) + r) := by
  induction count generalizing start with
  | zero => omega
  | succ count ih =>
    have hbyte := (g start).toNat_lt
    rw [Bytes.slice, Bytes.slice, Bytes.value, Bytes.value]
    by_cases hstart : i = start
    · have hpow : 2 ^ r < 256 := Nat.pow_lt_pow_right (by decide) hr
      have hbit : (UInt8.ofNat (2 ^ r)).toNat = 2 ^ r := by
        rw [UInt8.toNat_ofNat', Nat.mod_eq_of_lt hpow]
      have hrest : Bytes.slice (flip g i r) (start + 1) count = Bytes.slice g (start + 1) count :=
        Bytes.slice_congr fun j hj _ => flip_of_ne (by omega)
      have hxor := xor_add_mul_xor hbyte hpow (Bytes.value (Bytes.slice g (start + 1) count)) 0
      simp only [Nat.xor_zero, Nat.mul_zero, Nat.add_zero] at hxor
      subst hstart
      rw [hrest, flip_self, UInt8.toNat_xor, hbit, hxor, Nat.sub_self, Nat.mul_zero, Nat.zero_add]
    · have hplace : 2 ^ (8 * (i - start) + r) = 256 * 2 ^ (8 * (i - (start + 1)) + r) := by
        rw [show 8 * (i - start) + r = 8 + (8 * (i - (start + 1)) + r) by omega, Nat.pow_add]
      have hxor := xor_add_mul_xor hbyte (by decide : 0 < 256)
        (Bytes.value (Bytes.slice g (start + 1) count)) (2 ^ (8 * (i - (start + 1)) + r))
      rw [Nat.xor_zero, Nat.zero_add] at hxor
      rw [flip_of_ne (Ne.symm hstart), ih (by omega) (by omega), hxor, hplace]

theorem wordsOf_flip_of_mem (hr : r < 8) (hi : p.toNat ≤ i) (hi' : i < p.toNat + w.bytes) :
    wordsOf (flip g i r) w p = wordsOf g w p ^^^ bit (8 * (i - p.toNat) + r) := by
  have hbytes := w.bytes_le_eight
  apply UInt64.toNat.inj
  rw [UInt64.toNat_xor, toNat_wordsOf, toNat_wordsOf, toNat_bit (by omega)]
  exact value_slice_flip hr hi hi'

theorem wordsOf_flip_of_not_mem (h : ¬ (p.toNat ≤ i ∧ i < p.toNat + w.bytes)) :
    wordsOf (flip g i r) w p = wordsOf g w p :=
  wordsOf_congr fun _ hj hj' => flip_of_ne (by omega)

end

/-! ## Bytes that are heeded -/

/-- Some two inputs of `n` bytes that are the same but for byte `i` have different images. -/
def HeedsByte {β : Type} (image : Array UInt8 → β) (n i : Nat) : Prop :=
  ∃ a b : Array UInt8, a.size = n ∧ b.size = n ∧ (∀ j ≠ i, a[j]? = b[j]?) ∧ image a ≠ image b

theorem heedsByte_of_ne {β : Type} {image : Array UInt8 → β} {g g' : Nat → UInt8} {n i : Nat}
    (hsame : ∀ j ≠ i, g j = g' j) (h : image (arrayOf n g) ≠ image (arrayOf n g')) :
    HeedsByte image n i := by
  refine ⟨arrayOf n g, arrayOf n g', size_arrayOf, size_arrayOf, ?_, h⟩
  intro j hj
  rw [getElem?_arrayOf, getElem?_arrayOf, hsame j hj]

namespace HashFunction

variable {φ δ : Type} [HashFunction φ δ] {f : φ} {n i : Nat}

/-- Some two inputs of `n` bytes that are the same but for byte `i` have different digests. -/
def Heeds (f : φ) (n i : Nat) : Prop := HeedsByte (ofBytes f) n i

theorem ofBytes_arrayOf (hf : ReadsRange f) (hn : n < 2 ^ 64) (g : Nat → UInt8) :
    ofBytes f (arrayOf n g) = (body f (UInt64.ofNat n)).run (wordsOf g) := by
  have hlen : (UInt64.ofNat n).toNat = n := UInt64.toNat_ofNat_of_lt' hn
  rw [ofBytes_eq_run hf, size_arrayOf]
  apply run_congr (hf.staysInside _)
  intro w p hin
  have hin : p.toNat + w.bytes ≤ (UInt64.ofNat n).toNat := hin
  exact tableWord_arrayOf (by omega)

/-- A bit of a byte, turned, that turns the digest. -/
theorem heeds_of_flip (hf : ReadsRange f) (hn : n < 2 ^ 64) {g : Nat → UInt8}
    (h : (body f (UInt64.ofNat n)).run (wordsOf g) ≠
      (body f (UInt64.ofNat n)).run (wordsOf (flip g i 0))) : Heeds f n i := by
  apply heedsByte_of_ne fun j hj => (flip_of_ne hj).symm
  rwa [ofBytes_arrayOf hf hn, ofBytes_arrayOf hf hn]

end HashFunction

end Fingerprint
