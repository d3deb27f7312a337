import Fingerprint.Proofs.EqualFolds
import Fingerprint.Proofs.Heeds.Mixed

/-!
# What wyhash heeds of four to eight bytes

The first and the last four bytes, which share some bytes but when there are eight, are the factors of
one product. Whatever the seed, the lowest byte of a factor can be chosen so that the factor is even,
and then the fold tells the bits of the other one.
-/

namespace Fingerprint.WyHash
open Plan HashFunction
set_option autoImplicit false

/-- A factor of the mixed word: the four bytes at `p`, with the seed and a key. -/
def factor (key seed p : UInt64) (g : Nat → UInt8) : Nat :=
  (wordsOf g .four p ^^^ seed ^^^ key).toNat

theorem run_half (g : Nat → UInt8) (p : UInt64) : (half p).run (wordsOf g) = wordsOf g .four p := by
  have hlt : (wordsOf g .four p).toNat < 2 ^ 32 := toNat_wordsOf_lt
  apply UInt64.toNat.inj
  rw [half, run_bind, run_pure, run_u32, UInt32.toNat_toUInt64, UInt64.toNat_toUInt32]
  exact Nat.mod_eq_of_lt hlt

section
variable {key seed p : UInt64} {g : Nat → UInt8} {n i r : Nat}

theorem factor_lt (key seed p : UInt64) (g : Nat → UInt8) : factor key seed p g < 2 ^ 64 :=
  UInt64.toNat_lt _

theorem factor_flip (hr : r < 8) (hi : p.toNat ≤ i) (hi' : i < p.toNat + 4) :
    factor key seed p (flip g i r) = factor key seed p g ^^^ 2 ^ (8 * (i - p.toNat) + r) := by
  have hword : wordsOf (flip g i r) .four p = wordsOf g .four p ^^^ bit (8 * (i - p.toNat) + r) :=
    wordsOf_flip_of_mem hr hi hi'
  have hturned : wordsOf (flip g i r) .four p ^^^ seed ^^^ key =
      wordsOf g .four p ^^^ seed ^^^ key ^^^ bit (8 * (i - p.toNat) + r) := by
    rw [hword]
    ac_rfl
  rw [factor, hturned, UInt64.toNat_xor, toNat_bit (by omega), factor]

theorem factor_flip_of_not_mem (h : ¬ (p.toNat ≤ i ∧ i < p.toNat + 4)) :
    factor key seed p (flip g i r) = factor key seed p g := by
  rw [factor, wordsOf_flip_of_not_mem h, factor]

/-- The lowest bits of a factor can be chosen. -/
theorem exists_factor_mod (key seed p : UInt64) : ∃ g, factor key seed p g % 4 = 2 := by
  refine ⟨fun _ => 2 ^^^ (seed ^^^ key).toUInt8, ?_⟩
  have hbyte : factor key seed p (fun _ => 2 ^^^ (seed ^^^ key).toUInt8) % 2 ^ 8 = 2 := by
    rw [factor, UInt64.xor_assoc, UInt64.toNat_xor, Nat.xor_mod_two_pow, toNat_wordsOf_mod,
      UInt8.toNat_xor, UInt64.toNat_toUInt8, Nat.xor_assoc, Nat.xor_self, Nat.xor_zero]
    rfl
  omega

/-- Inputs of four to eight bytes whose factors fold differently. -/
theorem heedsByte_of_factors (g g' : Nat → UInt8) (h4 : 4 ≤ n) (h8 : n ≤ 8)
    (hsame : ∀ j ≠ i, g j = g' j)
    (h : foldHalves (factor p0 seed 0 g * factor p1 seed (UInt64.ofNat n - 4) g) ≠
      foldHalves (factor p0 seed 0 g' * factor p1 seed (UInt64.ofNat n - 4) g')) :
    HeedsByte (mixedOf seed) n i := by
  have hlen : (UInt64.ofNat n).toNat = n :=
    UInt64.toNat_ofNat_of_lt' (Nat.lt_of_le_of_lt h8 (by decide))
  have hmore : ¬ UInt64.ofNat n < 4 := by
    rw [UInt64.lt_iff_toNat_lt, hlen]
    exact Nat.not_lt.2 h4
  have hrun (g : Nat → UInt8) : (mixed seed (UInt64.ofNat n)).run (wordsOf g) =
      foldProduct (wordsOf g .four 0 ^^^ seed ^^^ p0)
        (wordsOf g .four (UInt64.ofNat n - 4) ^^^ seed ^^^ p1) ^^^ seed := by
    rw [mixed, if_neg hmore]
    simp only [run_bind, run_half, run_sub, run_pure, mix]
  apply heedsByte_of_ne hsame
  rw [mixedOf_arrayOf (by omega) h8, mixedOf_arrayOf (by omega) h8, hrun, hrun]
  intro heq
  apply h
  have hfold := congrArg UInt64.toNat ((UInt64.xor_left_inj seed).1 heq)
  rwa [toNat_foldProduct, toNat_foldProduct] at hfold

theorem toNat_sub_four (h4 : 4 ≤ n) (h8 : n ≤ 8) : (UInt64.ofNat n - 4).toNat = n - 4 := by
  have hlen : (UInt64.ofNat n).toNat = n :=
    UInt64.toNat_ofNat_of_lt' (Nat.lt_of_le_of_lt h8 (by decide))
  have hfour : (4 : UInt64).toNat = 4 := rfl
  rw [UInt64.toNat_sub_of_le _ _ (UInt64.le_iff_toNat_le.2 (by omega)), hlen, hfour]

/-! ## One factor alone -/

theorem heedsByte_front (h4 : 4 ≤ n) (h8 : n ≤ 8) (hi : i < n - 4) :
    HeedsByte (mixedOf seed) n i := by
  have hlast := toNat_sub_four h4 h8
  have hfirst : (0 : UInt64).toNat = 0 := rfl
  obtain ⟨g, hg⟩ := exists_factor_mod p1 seed (UInt64.ofNat n - 4)
  apply heedsByte_of_factors g (flip g i 0) h4 h8 fun j hj => (flip_of_ne hj).symm
  rw [factor_flip (by decide) (by omega) (by omega), factor_flip_of_not_mem (by omega)]
  exact foldHalves_xor_ne (by omega) (Nat.even_iff.2 (by omega)) (by omega) (factor_lt _ _ _ _)

/-! ## Both factors -/

theorem heedsByte_back (h5 : 5 ≤ n) (h8 : n ≤ 8) (hi : n - 4 ≤ i) (hi' : i < n) :
    HeedsByte (mixedOf seed) n i := by
  have hlast := toNat_sub_four (by omega) h8
  have hfirst : (0 : UInt64).toNat = 0 := rfl
  obtain ⟨g, hg⟩ := exists_factor_mod p0 seed 0
  have heven : Even (factor p0 seed 0 g) := Nat.even_iff.2 (by omega)
  -- The first factor moves with byte `i` or not, but only in bits above the one that is turned.
  have hfront : factor p0 seed 0 g ≡ factor p0 seed 0 (flip g i 2)
      [MOD 2 ^ (8 * (i - (n - 4)) + 2 + 1)] := by
    by_cases hshared : i < 4
    · rw [factor_flip (by decide) (by omega) (by omega), Nat.ModEq, Nat.xor_mod_two_pow,
        Nat.mod_eq_zero_of_dvd (Nat.pow_dvd_pow 2 (by omega)), Nat.xor_zero]
    · rw [factor_flip_of_not_mem (by omega)]
  have heven' : Even (factor p0 seed 0 (flip g i 2)) := by
    have hparity := hfront.of_dvd (Dvd.intro_left _ (Nat.pow_succ 2 _).symm)
    rwa [Nat.even_iff, ← hparity, ← Nat.even_iff]
  have hback : factor p1 seed (UInt64.ofNat n - 4) (flip g i 2) =
      factor p1 seed (UInt64.ofNat n - 4) g ^^^ 2 ^ (8 * (i - (n - 4)) + 2) := by
    rw [factor_flip (by decide) (by omega) (by omega), hlast]
  have hnext (h : Nat → UInt8) (hh : Even (factor p0 seed 0 h)) :
      factor p0 seed 0 (flip h 0 0) = factor p0 seed 0 h + 1 := by
    rw [factor_flip (by decide) (by omega) (by omega)]
    exact Nat.xor_one_of_even hh
  have hstays (h : Nat → UInt8) : factor p1 seed (UInt64.ofNat n - 4) (flip h 0 0) =
      factor p1 seed (UInt64.ofNat n - 4) h := factor_flip_of_not_mem (by omega)
  rcases neighbour_ne (by omega) (by omega) heven hfront (factor_lt _ _ _ _) with hne | hne
  · apply heedsByte_of_factors (flip g 0 0) (flip (flip g 0 0) i 2) (by omega) h8
      fun j hj => (flip_of_ne hj).symm
    rwa [flip_comm (by omega), hnext _ heven, hnext _ heven', hstays, hstays, hback]
  · apply heedsByte_of_factors g (flip g i 2) (by omega) h8
      fun j hj => (flip_of_ne hj).symm
    rwa [hback]

/-- Of four bytes, both factors are the same but for their keys. -/
theorem heedsByte_four (hi : i < 4) : HeedsByte (mixedOf seed) 4 i := by
  have hbits : ∀ i < 4, ∃ r < 8, 2 ≤ 8 * i + r ∧ (p0 ^^^ p1).toNat / 2 ^ (8 * i + r) % 2 = 0 := by
    decide
  have hfirst : (0 : UInt64).toNat = 0 := rfl
  obtain ⟨r, hr, hlow, hkeys⟩ := hbits i hi
  obtain ⟨g, hg⟩ := exists_factor_mod p0 seed 0
  have hother : factor p1 seed 0 g = factor p0 seed 0 g ^^^ (p0 ^^^ p1).toNat := by
    rw [factor, ← xor_through _ p0 p1, UInt64.toNat_xor, factor]
  have hagree : factor p0 seed 0 g % 4 = factor p1 seed 0 g % 4 := by
    have hmod := Nat.xor_mod_two_pow (a := factor p0 seed 0 g) (b := (p0 ^^^ p1).toNat) (n := 2)
    have hkeys : (p0 ^^^ p1).toNat % 2 ^ 2 = 0 := by decide
    rw [hkeys, Nat.xor_zero] at hmod
    rw [hother]
    exact hmod.symm
  have hbit : factor p0 seed 0 g / 2 ^ (8 * i + r) % 2 =
      factor p1 seed 0 g / 2 ^ (8 * i + r) % 2 := by
    rw [hother, Nat.xor_div_two_pow]
    have hmod := Nat.xor_mod_two_pow (a := factor p0 seed 0 g / 2 ^ (8 * i + r))
      (b := (p0 ^^^ p1).toNat / 2 ^ (8 * i + r)) (n := 1)
    rw [Nat.pow_one, hkeys, Nat.xor_zero] at hmod
    exact hmod.symm
  have hplace : UInt64.ofNat 4 - 4 = 0 := rfl
  apply heedsByte_of_factors g (flip g i r) (by decide) (by decide)
    fun j hj => (flip_of_ne hj).symm
  rw [hplace, factor_flip hr (by omega) (by omega), factor_flip hr (by omega) (by omega), hfirst,
    Nat.sub_zero]
  exact foldHalves_both_ne hlow (by omega) (Nat.even_iff.2 (by omega)) hagree hbit
    (factor_lt _ _ _ _) (factor_lt _ _ _ _)

end

end Fingerprint.WyHash
