import Fingerprint.Proofs.Injective.Rotations
import Mathlib.Data.Nat.Bitwise
import Mathlib.Data.Nat.ModEq
import Mathlib.Tactic.Ring

/-!
# Folded products

A full product of two words, its halves folded into one word, need not give away its factors. A
factor of zero erases the other one, and a factor of all ones leaves only whether the other is zero.
A power of two rotates the other. The halves of a multiple of `2 ^ 64 + 1` are equal, and only of
such, so a factor that is coprime to that number erases nothing. Two numbers with one fold agree up to
some bit just when their upper halves do, so they are further apart than a small multiple of a power
of two. And if one factor is below `2 ^ 63`, to flip any bit but the lowest of the other changes the
fold.
-/

namespace Fingerprint
set_option autoImplicit false

variable {a b : UInt64}

/-- The word with bit `k` alone. -/
def bit (k : Nat) : UInt64 := UInt64.ofNat (2 ^ k)

theorem toNat_bit {k : Nat} (hk : k < 64) : (bit k).toNat = 2 ^ k := by
  have hlt : 2 ^ k < 2 ^ 64 := Nat.pow_lt_pow_right (by decide) hk
  exact UInt64.toNat_ofNat_of_lt' hlt

theorem bit_zero : bit 0 = 1 := rfl

/-- The lower 64 bits of a number and the rest, folded. -/
def foldHalves (p : Nat) : Nat := p % 2 ^ 64 ^^^ p / 2 ^ 64

theorem toNat_foldProduct (a b : UInt64) :
    (foldProduct a b).toNat = foldHalves (a.toNat * b.toNat) := by
  have hlt : a.toNat * b.toNat / 2 ^ 64 < 2 ^ 64 :=
    Nat.div_lt_of_lt_mul (Nat.mul_lt_mul'' a.toNat_lt b.toNat_lt)
  have hhigh : (highProduct a b).toNat = a.toNat * b.toNat / 2 ^ 64 :=
    UInt64.toNat_ofNat_of_lt' hlt
  rw [foldProduct, UInt64.toNat_xor, UInt64.toNat_mul, hhigh, foldHalves]

theorem foldProduct_comm (a b : UInt64) : foldProduct a b = foldProduct b a := by
  apply UInt64.toNat.inj
  rw [toNat_foldProduct, toNat_foldProduct, Nat.mul_comm]

theorem testBit_of_le {n w i : Nat} (hn : n < 2 ^ w) (hi : w ≤ i) : n.testBit i = false :=
  Nat.testBit_lt_two_pow (Nat.lt_of_lt_of_le hn (Nat.pow_le_pow_right (by decide) hi))

/-! ## Factors that erase -/

@[simp] theorem foldProduct_zero_left (b : UInt64) : foldProduct 0 b = 0 := by
  apply UInt64.toNat.inj
  rw [toNat_foldProduct, UInt64.toNat_zero, Nat.zero_mul]
  rfl

@[simp] theorem foldProduct_zero_right (a : UInt64) : foldProduct a 0 = 0 := by
  rw [foldProduct_comm, foldProduct_zero_left]

theorem foldProduct_ones (ha : a ≠ 0) : foldProduct a (~~~0) = ~~~0 := by
  obtain ⟨x, hx⟩ : ∃ x, a.toNat = x + 1 :=
    Nat.exists_eq_succ_of_ne_zero fun h => ha (UInt64.toNat.inj h)
  have hlt := a.toNat_lt
  have hones : (~~~0 : UInt64).toNat = 2 ^ 64 - 1 := rfl
  have hfit : 2 ^ 64 - (x + 1) < 2 ^ 64 := by omega
  have hproduct : (x + 1) * (2 ^ 64 - 1) = 2 ^ 64 - (x + 1) + x * 2 ^ 64 := by omega
  apply UInt64.toNat.inj
  rw [toNat_foldProduct, hones, hx, hproduct, foldHalves, Nat.add_mul_mod_self_right, Nat.mod_eq_of_lt hfit,
    Nat.add_mul_div_right _ _ (by decide), Nat.div_eq_of_lt hfit, Nat.zero_add]
  apply Nat.eq_of_testBit_eq
  intro i
  have hbelow : x < 2 ^ 64 := by omega
  rw [Nat.testBit_xor, Nat.testBit_two_pow_sub_succ (by omega), Nat.testBit_two_pow_sub_one]
  by_cases hi : i < 64
  · simp [hi]
  · simp [hi, testBit_of_le hbelow (Nat.not_lt.1 hi)]

/-! ## Factors that keep -/

theorem foldProduct_bit {k : Nat} (hk : k < 64) (b : UInt64) :
    foldProduct (bit k) b = rotateLeft b (UInt64.ofNat k) := by
  have hfits : k < 2 ^ 64 := by omega
  have hamount : (UInt64.ofNat k).toNat = k := UInt64.toNat_ofNat_of_lt' hfits
  apply eq_of_getLsbD_eq
  intro i hi
  have hbit : (foldProduct (bit k) b).toBitVec.getLsbD i =
      (foldProduct (bit k) b).toNat.testBit i := rfl
  rw [getLsbD_rotateLeft _ _ hi, hbit, toNat_foldProduct, toNat_bit hk, hamount, Nat.mul_comm,
    foldHalves, Nat.testBit_xor, Nat.testBit_mod_two_pow, Nat.testBit_div_two_pow, Nat.testBit_mul_two_pow,
    Nat.testBit_mul_two_pow]
  change _ = b.toNat.testBit _
  by_cases hlow : i < k
  · have hsource : (i + (64 - k % 64)) % 64 = i + 64 - k := by omega
    have hwhole : k ≤ i + 64 := by omega
    simp [hsource, hi, hwhole, Nat.not_le.2 hlow]
  · have hsource : (i + (64 - k % 64)) % 64 = i - k := by omega
    have hbeyond : b.toNat.testBit (i + 64 - k) = false :=
      testBit_of_le b.toNat_lt (by omega)
    simp [hsource, hi, Nat.not_lt.1 hlow, hbeyond]

theorem foldProduct_one_left (b : UInt64) : foldProduct 1 b = b := by
  rw [← bit_zero, foldProduct_bit (by decide)]
  exact rotateLeft_whole b rfl

theorem rotateLeft_bit {j k : Nat} (hj : j < 64) (hk : k < 64) :
    rotateLeft (bit j) (UInt64.ofNat k) = bit ((j + k) % 64) := by
  apply UInt64.toNat.inj
  rw [← foldProduct_bit hk, toNat_foldProduct, toNat_bit hk, toNat_bit hj,
    toNat_bit (Nat.mod_lt _ (by decide)), ← Nat.pow_add, Nat.add_comm, foldHalves]
  by_cases hlow : j + k < 64
  · have hlt : 2 ^ (j + k) < 2 ^ 64 := Nat.pow_lt_pow_right (by decide) hlow
    rw [Nat.mod_eq_of_lt hlt, Nat.div_eq_of_lt hlt, Nat.mod_eq_of_lt hlow, Nat.xor_zero]
  · obtain ⟨i, hi⟩ : ∃ i, j + k = i + 64 := ⟨j + k - 64, by omega⟩
    rw [hi, Nat.pow_add, Nat.mul_mod_left, Nat.mul_div_cancel _ (by decide), Nat.zero_xor,
      Nat.add_mod_right, Nat.mod_eq_of_lt (by omega)]

/-- A factor that is coprime to `2 ^ 64 + 1` erases nothing but zero. -/
theorem foldProduct_ne_zero (ha : Nat.Coprime (2 ^ 64 + 1) a.toNat) (hb : b ≠ 0) :
    foldProduct a b ≠ 0 := by
  intro h
  have hhalves : a.toNat * b.toNat % 2 ^ 64 = a.toNat * b.toNat / 2 ^ 64 := by
    rw [← Nat.xor_eq_zero_iff, ← foldHalves, ← toNat_foldProduct, h]
    rfl
  have hproduct : a.toNat * b.toNat = (2 ^ 64 + 1) * (a.toNat * b.toNat / 2 ^ 64) := by omega
  have hdvd : 2 ^ 64 + 1 ∣ b.toNat := ha.dvd_of_dvd_mul_left ⟨_, hproduct⟩
  have hzero := Nat.eq_zero_of_dvd_of_lt hdvd (by have := b.toNat_lt; omega)
  exact hb (UInt64.toNat.inj hzero)

/-! ## Equal folds -/

section
variable {p p' t v : Nat}

/-- Two numbers with one fold agree below some bit if their upper halves do, and only then. -/
theorem high_mod_eq_iff (h : foldHalves p = foldHalves p') (hv : v ≤ 64) :
    p / 2 ^ 64 % 2 ^ v = p' / 2 ^ 64 % 2 ^ v ↔ p % 2 ^ v = p' % 2 ^ v := by
  have hlow (q : Nat) : q % 2 ^ 64 % 2 ^ v = q % 2 ^ v :=
    Nat.mod_mod_of_dvd _ (Nat.pow_dvd_pow 2 hv)
  have hmod := congrArg (· % 2 ^ v) h
  simp only [foldHalves, Nat.xor_mod_two_pow, hlow] at hmod
  constructor
  · intro hhigh
    rw [hhigh] at hmod
    exact Nat.xor_left_inj.1 hmod
  · intro heq
    rw [heq] at hmod
    exact Nat.xor_right_inj.1 hmod

theorem eq_of_high_eq (h : foldHalves p = foldHalves p') (hhigh : p / 2 ^ 64 = p' / 2 ^ 64) :
    p = p' := by
  rw [foldHalves, foldHalves, hhigh] at h
  have hlow := Nat.xor_left_inj.1 h
  omega

theorem eq_of_mod_eq_of_lt {m x y : Nat} (hmod : x % m = y % m) (hle : x ≤ y) (hlt : y < x + m) :
    x = y := by
  have hdvd := (Nat.modEq_iff_dvd' hle).1 hmod
  have := Nat.eq_zero_of_dvd_of_lt hdvd (by omega)
  omega

/-- Less than a multiple of the power of two that divides it is too little to keep the fold. -/
theorem foldHalves_ne_of_dvd (hv : v ≤ 64) (hdvd : 2 ^ v ∣ t) (hpos : 0 < t)
    (hle : t ≤ 2 ^ 64 * (2 ^ v - 1)) : foldHalves p ≠ foldHalves (p + t) := by
  intro h
  have hsame : p % 2 ^ v = (p + t) % 2 ^ v := by
    obtain ⟨m, rfl⟩ := hdvd
    rw [Nat.add_mul_mod_self_left]
  have hhigh := (high_mod_eq_iff h hv).2 hsame
  generalize 2 ^ v = m at hhigh hle
  have hnone := eq_of_high_eq h (eq_of_mod_eq_of_lt hhigh (by omega) (by omega))
  omega

end

/-! ## Single bits of a factor -/

section
variable {n q : Nat}

theorem xor_two_pow_split (n q : Nat) : 2 ^ q * (n / 2 ^ q ^^^ 1) + n % 2 ^ q = n ^^^ 2 ^ q := by
  have hsplit := Nat.div_add_mod (n ^^^ 2 ^ q) (2 ^ q)
  rwa [Nat.xor_div_two_pow, Nat.xor_mod_two_pow, Nat.div_self (Nat.two_pow_pos q), Nat.mod_self,
    Nat.xor_zero] at hsplit

theorem xor_two_pow_of_even (h : Even (n / 2 ^ q)) : n ^^^ 2 ^ q = n + 2 ^ q := by
  rw [← xor_two_pow_split, Nat.xor_one_of_even h, Nat.mul_add, Nat.mul_one, Nat.add_right_comm,
    Nat.div_add_mod]

theorem xor_two_pow_of_odd (h : Odd (n / 2 ^ q)) : n = (n ^^^ 2 ^ q) + 2 ^ q := by
  obtain ⟨d, hd⟩ := h
  have hn := Nat.div_add_mod n (2 ^ q)
  rw [← xor_two_pow_split, Nat.xor_one_of_odd ⟨d, hd⟩, hd, Nat.add_sub_cancel]
  rw [hd, Nat.mul_add, Nat.mul_one] at hn
  omega

theorem xor_two_pow_cases (n q : Nat) : n ^^^ 2 ^ q = n + 2 ^ q ∨ n = (n ^^^ 2 ^ q) + 2 ^ q :=
  (Nat.even_or_odd (n / 2 ^ q)).imp xor_two_pow_of_even xor_two_pow_of_odd

end

theorem foldProduct_ne_of_add {a' : UInt64} {q : Nat} (hq : 0 < q) (hq' : q < 64)
    (hb : 0 < b.toNat) (hb' : b.toNat < 2 ^ 63) (h : a'.toNat = a.toNat + 2 ^ q) :
    foldProduct a b ≠ foldProduct a' b := by
  obtain ⟨r, rfl⟩ : ∃ r, q = r + 1 := Nat.exists_eq_succ_of_ne_zero (Nat.ne_of_gt hq)
  have hpos : 0 < 2 ^ (r + 1) * b.toNat := Nat.mul_pos (Nat.two_pow_pos _) hb
  have hless : 2 ^ (r + 1) * b.toNat ≤ 2 ^ 64 * (2 ^ (r + 1) - 1) := by
    have hhalf : 2 ^ (r + 1) = 2 * 2 ^ r := Nat.pow_succ'
    calc
      2 ^ (r + 1) * b.toNat ≤ 2 ^ (r + 1) * 2 ^ 63 := Nat.mul_le_mul_left _ (Nat.le_of_lt hb')
      _ = 2 ^ 64 * 2 ^ r := by rw [hhalf]; ring
      _ ≤ 2 ^ 64 * (2 ^ (r + 1) - 1) := Nat.mul_le_mul_left _ (by
        have := Nat.two_pow_pos r
        omega)
  intro heq
  have hnat := congrArg UInt64.toNat heq
  rw [toNat_foldProduct, toNat_foldProduct, h, Nat.add_mul] at hnat
  exact foldHalves_ne_of_dvd (Nat.le_of_lt hq') ⟨_, rfl⟩ hpos hless hnat

theorem foldProduct_flip_ne {q : Nat} (hq : 0 < q) (hq' : q < 64)
    (hb : 0 < b.toNat) (hb' : b.toNat < 2 ^ 63) (a : UInt64) :
    foldProduct a b ≠ foldProduct (a ^^^ bit q) b := by
  have hflip : (a ^^^ bit q).toNat = a.toNat ^^^ 2 ^ q := by rw [UInt64.toNat_xor, toNat_bit hq']
  rcases xor_two_pow_cases a.toNat q with h | h
  · exact foldProduct_ne_of_add hq hq' hb hb' (by rw [hflip, h])
  · exact (foldProduct_ne_of_add hq hq' hb hb' (by rw [hflip, ← h])).symm

end Fingerprint
