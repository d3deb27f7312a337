/-!
# Numbers as bytes

`value` reads a list of bytes as a number in base 256, least significant byte first, and
`digits` writes one back. `slice` takes a row of bytes out of bytes given one by one.
-/

namespace Fingerprint.Bytes
set_option autoImplicit false

/-- The number whose digits in base 256 are `bytes`, least significant first. -/
def value : List UInt8 → Nat
  | [] => 0
  | b :: rest => b.toNat + 256 * value rest

/-- The `count` lowest digits of `n` in base 256, least significant first. -/
def digits : Nat → Nat → List UInt8
  | 0, _ => []
  | count + 1, n => UInt8.ofNat n :: digits count (n / 256)

/-- The bytes at positions `start`, `start + 1`, …, `count` of them. -/
def slice (byteAt : Nat → UInt8) : Nat → Nat → List UInt8
  | _, 0 => []
  | start, count + 1 => byteAt start :: slice byteAt (start + 1) count

@[simp] theorem length_digits (count n : Nat) : (digits count n).length = count := by
  induction count generalizing n with
  | zero => rfl
  | succ count ih => simp [digits, ih]

@[simp] theorem length_slice (byteAt : Nat → UInt8) (start count : Nat) :
    (slice byteAt start count).length = count := by
  induction count generalizing start with
  | zero => rfl
  | succ count ih => simp [slice, ih]

theorem slice_congr {f g : Nat → UInt8} {start count : Nat}
    (h : ∀ i, start ≤ i → i < start + count → f i = g i) :
    slice f start count = slice g start count := by
  induction count generalizing start with
  | zero => rfl
  | succ count ih =>
    simp only [slice, h start (Nat.le_refl _) (by omega)]
    rw [ih fun i hi hj => h i (by omega) (by omega)]

end Fingerprint.Bytes
