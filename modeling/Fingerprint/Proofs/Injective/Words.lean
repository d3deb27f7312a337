import Fingerprint.Word.Mix
import Mathlib.Data.Nat.Bitwise
import Mathlib.Data.Nat.ModEq
import Mathlib.Data.Nat.Prime.Basic

/-!
# Steps on words that lose nothing

To shift a word right and take the exclusive or with it can be undone, from the highest bits down; and
so can a product with an odd word, which has an inverse modulo any power of two.
-/

namespace Fingerprint
set_option autoImplicit false

theorem eq_of_xor_shiftRight_eq {k x y : Nat} (hk : 0 < k)
    (h : x ^^^ x >>> k = y ^^^ y >>> k) : x = y := by
  have hlt : ∀ n, n ≠ 0 → n >>> k < n := by
    intro n hn
    rw [Nat.shiftRight_eq_div_pow]
    exact Nat.div_lt_self (Nat.pos_of_ne_zero hn) (Nat.one_lt_two_pow (by omega))
  -- Shifted by `k`, the equation is the same for the numbers without their `k` low bits.
  induction x using Nat.strongRecOn generalizing y with
  | ind x ih =>
    by_cases hx : x = 0
    · subst hx
      by_contra hy
      have hself : y = y >>> k := by
        rw [Nat.zero_shiftRight, Nat.xor_zero] at h
        exact Nat.eq_of_xor_eq_zero h.symm
      exact absurd (hlt y (Ne.symm hy)) (by omega)
    · have hshift : x >>> k ^^^ x >>> k >>> k = y >>> k ^^^ y >>> k >>> k := by
        rw [← Nat.shiftRight_xor_distrib, ← Nat.shiftRight_xor_distrib, h]
      rw [ih _ (hlt x hx) hshift] at h
      exact Nat.xor_left_inj.1 h

theorem xorShift_injective {k : UInt64} (hpos : 0 < k.toNat) (hlt : k.toNat < 64) :
    Function.Injective (xorShift · k) := by
  intro x y h
  have hnat := congrArg UInt64.toNat h
  simp only [xorShift, UInt64.toNat_xor, UInt64.toNat_shiftRight, Nat.mod_eq_of_lt hlt] at hnat
  exact UInt64.toNat.inj (eq_of_xor_shiftRight_eq hpos hnat)

/-- What is added after a shift loses nothing either, if the sum stays below the bits that were shifted:
these are left as they were, and tell what was added. -/
theorem xor_shiftRight_add_injective {k c : UInt64} (hk : k.toNat < 64)
    (hc : 2 ^ (64 - k.toNat) + c.toNat ≤ 2 ^ k.toNat) :
    Function.Injective fun x => x ^^^ (x >>> k + c) := by
  intro x y (h : x ^^^ (x >>> k + c) = y ^^^ (y >>> k + c))
  have hhigh : ∀ z : UInt64, (z ^^^ (z >>> k + c)) >>> k = z >>> k := by
    intro z
    have hshift : (z >>> k).toNat < 2 ^ (64 - k.toNat) := by
      rw [UInt64.toNat_shiftRight, Nat.mod_eq_of_lt hk, Nat.shiftRight_eq_div_pow]
      apply Nat.div_lt_of_lt_mul
      rw [← Nat.pow_add, Nat.add_sub_cancel' (Nat.le_of_lt hk)]
      exact z.toNat_lt
    have hpow : 2 ^ k.toNat ≤ 2 ^ 64 := Nat.pow_le_pow_right (by decide) (Nat.le_of_lt hk)
    have hzero : (z >>> k + c) >>> k = 0 := by
      apply UInt64.toNat.inj
      rw [UInt64.toNat_shiftRight, UInt64.toNat_add, Nat.mod_eq_of_lt hk,
        Nat.mod_eq_of_lt (by omega), Nat.shiftRight_eq_div_pow, Nat.div_eq_of_lt (by omega)]
      rfl
    rw [UInt64.shiftRight_xor, hzero, UInt64.xor_zero]
  have hshift : x >>> k = y >>> k := by rw [← hhigh x, h, hhigh y]
  rw [hshift] at h
  exact (UInt64.xor_left_inj _).1 h

theorem modEq_of_mul_odd {n m x y : Nat} (hm : m % 2 = 1)
    (h : x * m ≡ y * m [MOD 2 ^ n]) : x ≡ y [MOD 2 ^ n] :=
  h.cancel_right_of_coprime ((Nat.coprime_two_left.2 (Nat.odd_iff.2 hm)).pow_left n)

theorem mul_injective_of_odd {m : UInt64} (hm : m.toNat % 2 = 1) :
    Function.Injective (· * m) := by
  intro x y h
  have hnat : x.toNat * m.toNat ≡ y.toNat * m.toNat [MOD 2 ^ 64] := by
    rw [Nat.ModEq, ← UInt64.toNat_mul, ← UInt64.toNat_mul]
    exact congrArg UInt64.toNat h
  exact UInt64.toNat.inj ((modEq_of_mul_odd hm hnat).eq_of_lt_of_lt x.toNat_lt y.toNat_lt)

theorem toNat_low32 (x : UInt64) : (low32 x).toNat = x.toNat % 2 ^ 32 := by
  rw [low32, UInt64.toNat_and]
  exact Nat.and_two_pow_sub_one_eq_mod x.toNat 32

/-- To add an even multiple of the low half multiplies that half by an odd number, which gives it away;
the high half is what is left. -/
theorem add_low32_mul_injective {m : UInt64} (hm : m.toNat % 2 = 0) :
    Function.Injective fun x => x + low32 x * m := by
  intro x y (h : x + low32 x * m = y + low32 y * m)
  have hhalf : ∀ z : UInt64,
      (z + low32 z * m).toNat ≡ (low32 z).toNat * (m.toNat + 1) [MOD 2 ^ 32] := by
    intro z
    have hdvd : (2 : Nat) ^ 32 ∣ 2 ^ 64 := by decide
    have hlow : z.toNat ≡ (low32 z).toNat [MOD 2 ^ 32] := by
      rw [toNat_low32]
      exact (Nat.mod_modEq _ _).symm
    rw [UInt64.toNat_add, UInt64.toNat_mul, Nat.add_mod_mod]
    calc
      (z.toNat + (low32 z).toNat * m.toNat) % 2 ^ 64
      _ ≡ z.toNat + (low32 z).toNat * m.toNat [MOD 2 ^ 32] :=
        (Nat.mod_modEq _ _).of_dvd hdvd
      _ ≡ (low32 z).toNat + (low32 z).toNat * m.toNat [MOD 2 ^ 32] := hlow.add_right _
      _ = (low32 z).toNat * (m.toNat + 1) := by rw [Nat.mul_succ, Nat.add_comm]
  have hmul : (low32 x).toNat * (m.toNat + 1) ≡ (low32 y).toNat * (m.toNat + 1) [MOD 2 ^ 32] :=
    (hhalf x).symm.trans (h ▸ hhalf y)
  have hlow : low32 x = low32 y := by
    apply UInt64.toNat.inj
    have hmod := modEq_of_mul_odd (by omega) hmul
    rw [toNat_low32, toNat_low32] at hmod ⊢
    rwa [Nat.ModEq, Nat.mod_mod, Nat.mod_mod] at hmod
  have hsum : x + low32 x * m = y + low32 x * m := by
    rw [h, hlow]
  exact (UInt64.add_left_inj _).1 hsum

end Fingerprint
