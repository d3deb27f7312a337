import Fingerprint.Proofs.Products
import Mathlib.RingTheory.Coprime.Lemmas
import Mathlib.Tactic.LinearCombination
import Mathlib.Tactic.Positivity
import Mathlib.Tactic.Zify

/-!
# Neighbours whose products fold to one word

Where one factor moves by a power of two and the fold stays, the upper half of the product moves by
that power too. So it does not stay twice in a row, unless the other factor is all ones. Two pairs of
products that are about the same distance apart, but not by the same power of two, do not both fold to
one word. So one of two neighbours tells a bit of the other factor, even if its own upper bits move
along. And where upper halves agree above some bit, lower halves do too; then what one factor moves by,
times the other one, is close to a multiple of `2 ^ 64`.
-/

namespace Fingerprint
set_option autoImplicit false

/-! ## Steps of one factor -/

section
variable {x u q : Nat}

theorem high_step (hq : q ≤ 64) (hu : 0 < u) (hu' : u < 2 ^ 64)
    (h : foldHalves (x * u) = foldHalves ((x + 2 ^ q) * u)) :
    (x + 2 ^ q) * u / 2 ^ 64 = x * u / 2 ^ 64 + 2 ^ q := by
  have hpos : 0 < 2 ^ q * u := Nat.mul_pos (Nat.two_pow_pos q) hu
  have hless : 2 ^ q * u < 2 ^ q * 2 ^ 64 := Nat.mul_lt_mul_of_pos_left hu' (Nat.two_pow_pos q)
  rw [Nat.add_mul] at h ⊢
  have hsame : x * u % 2 ^ q = (x * u + 2 ^ q * u) % 2 ^ q := by rw [Nat.add_mul_mod_self_left]
  have hhigh := (high_mod_eq_iff h hq).2 hsame
  generalize 2 ^ q * u = t at *
  generalize 2 ^ q = m at *
  by_contra hother
  have hnone := eq_of_high_eq h (eq_of_mod_eq_of_lt hhigh (by omega) (by omega))
  omega

/-- From an even place the step turns one bit of the upper half, and the same bit of the lower one. -/
theorem eq_ones_of_step (hq : q ≤ 64) (hu : 0 < u) (hu' : u < 2 ^ 64)
    (h : foldHalves (x * u) = foldHalves ((x + 2 ^ q) * u))
    (heven : Even (x * u / 2 ^ 64 / 2 ^ q)) : u = 2 ^ 64 - 1 := by
  have hpos : 0 < 2 ^ q := Nat.two_pow_pos q
  have hhigh := high_step hq hu hu' h
  have hlow : (x + 2 ^ q) * u % 2 ^ 64 = x * u % 2 ^ 64 ^^^ 2 ^ q := by
    have hfold := h
    rw [foldHalves, foldHalves, hhigh, ← xor_two_pow_of_even heven] at hfold
    calc
      _ = (x + 2 ^ q) * u % 2 ^ 64 ^^^ (x * u / 2 ^ 64 ^^^ 2 ^ q) ^^^ (x * u / 2 ^ 64 ^^^ 2 ^ q) := by
        rw [Nat.xor_assoc, Nat.xor_self, Nat.xor_zero]
      _ = x * u % 2 ^ 64 ^^^ (x * u / 2 ^ 64 ^^^ x * u / 2 ^ 64) ^^^ 2 ^ q := by
        rw [← hfold]
        ac_rfl
      _ = _ := by rw [Nat.xor_self, Nat.xor_zero]
  have hsum := Nat.div_add_mod ((x + 2 ^ q) * u) (2 ^ 64)
  have hsum' := Nat.div_add_mod (x * u) (2 ^ 64)
  rw [hhigh, hlow] at hsum
  have hfactor : 2 ^ q * u = 2 ^ q * (2 ^ 64 - 1) := by
    have hpart : 2 ^ q * u < 2 ^ q * 2 ^ 64 := Nat.mul_lt_mul_of_pos_left hu' hpos
    rw [Nat.add_mul] at hsum
    rw [Nat.mul_sub]
    generalize 2 ^ q * u = t at *
    rcases xor_two_pow_cases (x * u % 2 ^ 64) q with hturned | hturned <;>
      generalize x * u % 2 ^ 64 ^^^ 2 ^ q = l at * <;> generalize 2 ^ q = m at * <;> omega
  exact Nat.eq_of_mul_eq_mul_left hpos hfactor

/-- Of two steps in a row, one changes the fold. -/
theorem exists_step_ne (hq : q ≤ 64) (hu : 0 < u) (hu' : u < 2 ^ 64 - 1) (x : Nat) :
    foldHalves (x * u) ≠ foldHalves ((x + 2 ^ q) * u) ∨
      foldHalves ((x + 2 ^ q) * u) ≠ foldHalves ((x + 2 ^ q + 2 ^ q) * u) := by
  by_contra! hsame
  obtain ⟨hfirst, hsecond⟩ := hsame
  have hlt : u < 2 ^ 64 := by omega
  have hhigh := high_step hq hu hlt hfirst
  have hnext : (x + 2 ^ q) * u / 2 ^ 64 / 2 ^ q = x * u / 2 ^ 64 / 2 ^ q + 1 := by
    rw [hhigh, Nat.add_div_right _ (Nat.two_pow_pos q)]
  rcases Nat.even_or_odd (x * u / 2 ^ 64 / 2 ^ q) with heven | hodd
  · have := eq_ones_of_step hq hu hlt hfirst heven
    omega
  · have heven : Even ((x + 2 ^ q) * u / 2 ^ 64 / 2 ^ q) := by
      rw [hnext]
      exact hodd.add_one
    have := eq_ones_of_step hq hu hlt hsecond heven
    omega

end

/-! ## Two distances -/

/-- Of two pairs about as far apart, one just by an odd multiple of a power of two and the other by an
even one, at most one has equal folds. -/
theorem foldHalves_ne_or_ne {p p' s s' q : Nat} (hq : 2 ≤ q) (hq' : q < 64)
    (hodd : p % 2 ^ q = p' % 2 ^ q) (hodd' : p % 2 ^ (q + 1) ≠ p' % 2 ^ (q + 1))
    (heven : s % 2 ^ (q + 1) = s' % 2 ^ (q + 1)) (hnear : p' + s < p + s' + 2 ^ 64)
    (hnear' : p + s' < p' + s + 2 ^ 64) :
    foldHalves p ≠ foldHalves p' ∨ foldHalves s ≠ foldHalves s' := by
  by_contra! hsame
  obtain ⟨hp, hs⟩ := hsame
  have hfour (m m' k : Nat) (hk : 2 ≤ k) (h : m % 2 ^ k = m' % 2 ^ k) : m % 4 = m' % 4 := by
    have hmod := congrArg (· % 2 ^ 2) h
    simpa only [Nat.mod_mod_of_dvd _ (Nat.pow_dvd_pow 2 hk)] using hmod
  have hp4 := (high_mod_eq_iff (v := 2) hp (by decide)).2 (hfour _ _ q hq hodd)
  have hs4 := (high_mod_eq_iff (v := 2) hs (by decide)).2 (hfour _ _ (q + 1) (by omega) heven)
  -- The upper halves are as far apart in both pairs, as they are so up to two and modulo four.
  have hsum : p' / 2 ^ 64 + s / 2 ^ 64 = p / 2 ^ 64 + s' / 2 ^ 64 := by omega
  apply hodd'
  rw [← high_mod_eq_iff hp (by omega)]
  have hhigh : s / 2 ^ 64 ≡ s' / 2 ^ 64 [MOD 2 ^ (q + 1)] :=
    (high_mod_eq_iff hs (by omega)).2 heven
  have hcancel : p / 2 ^ 64 + s' / 2 ^ 64 ≡ p' / 2 ^ 64 + s' / 2 ^ 64 [MOD 2 ^ (q + 1)] := by
    rw [← hsum]
    exact hhigh.add_left _
  exact Nat.ModEq.add_right_cancel' _ hcancel

/-! ## Bits turned in both factors -/

section
variable {x x' y q : Nat}

/-- An even factor tells every bit of the other one. -/
theorem foldHalves_xor_ne (hq : q < 64) (heven : Even y) (hpos : 0 < y) (hy : y < 2 ^ 64) :
    foldHalves (x * y) ≠ foldHalves ((x ^^^ 2 ^ q) * y) := by
  obtain ⟨k, hk⟩ := heven.two_dvd
  have hdvd : 2 ^ (q + 1) ∣ 2 ^ q * y := ⟨k, by rw [hk]; ring⟩
  have hless : 2 ^ q * y ≤ 2 ^ 64 * (2 ^ (q + 1) - 1) := by
    have hpow := Nat.two_pow_pos q
    calc
      2 ^ q * y ≤ 2 ^ q * 2 ^ 64 := Nat.mul_le_mul_left _ (Nat.le_of_lt hy)
      _ ≤ 2 ^ 64 * (2 ^ (q + 1) - 1) := by
        rw [Nat.mul_comm]
        exact Nat.mul_le_mul_left _ (by omega)
  have hmoved {a a' : Nat} (h : a' = a + 2 ^ q) : foldHalves (a * y) ≠ foldHalves (a' * y) := by
    rw [h, Nat.add_mul]
    exact foldHalves_ne_of_dvd hq hdvd (Nat.mul_pos (Nat.two_pow_pos q) hpos) hless
  rcases xor_two_pow_cases x q with h | h
  · exact hmoved h
  · exact (hmoved h).symm

theorem xor_two_pow_modEq (y q : Nat) : y ^^^ 2 ^ q ≡ y + 2 ^ q [MOD 2 ^ (q + 1)] := by
  rcases xor_two_pow_cases y q with h | h
  · rw [h]
  · have hback : y + 2 ^ q = (y ^^^ 2 ^ q) + 2 ^ (q + 1) := by
      rw [Nat.pow_succ]
      omega
    rw [hback]
    exact (Nat.add_mod_right _ _).symm

/-- A factor that is even, or the one after it, tells a bit of the other factor, even if its own upper
bits move with it. -/
theorem neighbour_ne (hq : 2 ≤ q) (hq' : q < 64) (heven : Even x) (hx : x ≡ x' [MOD 2 ^ (q + 1)])
    (hy : y < 2 ^ 64) :
    foldHalves ((x + 1) * y) ≠ foldHalves ((x' + 1) * (y ^^^ 2 ^ q)) ∨
      foldHalves (x * y) ≠ foldHalves (x' * (y ^^^ 2 ^ q)) := by
  obtain ⟨k, hk⟩ := heven.two_dvd
  have hy' : y ^^^ 2 ^ q < 2 ^ 64 :=
    Nat.xor_lt_two_pow hy (Nat.pow_lt_pow_right (by decide) hq')
  have hmove (a : Nat) : a * (y ^^^ 2 ^ q) ≡ a * y + a * 2 ^ q [MOD 2 ^ (q + 1)] := by
    rw [← Nat.mul_add]
    exact (xor_two_pow_modEq y q).mul_left a
  have hodd : (x' + 1) * (y ^^^ 2 ^ q) ≡ (x + 1) * y + 2 ^ q [MOD 2 ^ (q + 1)] := by
    have hturned : (x + 1) * 2 ^ q = 2 ^ q + 2 ^ (q + 1) * k := by
      rw [hk]
      ring
    calc
      (x' + 1) * (y ^^^ 2 ^ q) ≡ (x + 1) * (y ^^^ 2 ^ q) [MOD 2 ^ (q + 1)] :=
        (hx.symm.add_right 1).mul_right _
      _ ≡ (x + 1) * y + (x + 1) * 2 ^ q [MOD 2 ^ (q + 1)] := hmove (x + 1)
      _ ≡ (x + 1) * y + 2 ^ q [MOD 2 ^ (q + 1)] := by
        rw [hturned, ← Nat.add_assoc]
        exact Nat.add_mul_mod_self_left _ _ _
  have hstays : x' * (y ^^^ 2 ^ q) ≡ x * y [MOD 2 ^ (q + 1)] := by
    have hturned : x * 2 ^ q = 2 ^ (q + 1) * k := by
      rw [hk]
      ring
    calc
      x' * (y ^^^ 2 ^ q) ≡ x * (y ^^^ 2 ^ q) [MOD 2 ^ (q + 1)] := hx.symm.mul_right _
      _ ≡ x * y + x * 2 ^ q [MOD 2 ^ (q + 1)] := hmove x
      _ ≡ x * y [MOD 2 ^ (q + 1)] := by
        rw [hturned]
        exact Nat.add_mul_mod_self_left _ _ _
  have hless : (x + 1) * y % 2 ^ q = (x' + 1) * (y ^^^ 2 ^ q) % 2 ^ q := by
    have hbelow := hodd.of_dvd (Nat.pow_dvd_pow 2 (Nat.le_succ q))
    exact (hbelow.trans (Nat.add_mod_right _ _)).symm
  have hapart : (x + 1) * y % 2 ^ (q + 1) ≠ (x' + 1) * (y ^^^ 2 ^ q) % 2 ^ (q + 1) := by
    intro h
    have hnone : (x + 1) * y + 0 ≡ (x + 1) * y + 2 ^ q [MOD 2 ^ (q + 1)] := Nat.ModEq.trans h hodd
    have hdvd := (Nat.modEq_zero_iff_dvd).1 (Nat.ModEq.add_left_cancel' _ hnone).symm
    have hle := Nat.le_of_dvd (Nat.two_pow_pos q) hdvd
    have hlt := Nat.pow_lt_pow_right (by decide : 1 < 2) (Nat.lt_succ_self q)
    omega
  have hnext := Nat.succ_mul x y
  have hnext' := Nat.succ_mul x' (y ^^^ 2 ^ q)
  rw [Nat.succ_eq_add_one] at hnext hnext'
  exact foldHalves_ne_or_ne hq hq' hless hapart hstays.symm (by omega) (by omega)

/-- Two even factors that agree in the two lowest bits and in a third one tell that bit, though it is
turned in both. -/
theorem foldHalves_both_ne (hq : 2 ≤ q) (hq' : q < 62) (heven : Even x) (hlow : x % 4 = y % 4)
    (hbit : x / 2 ^ q % 2 = y / 2 ^ q % 2) (hx : x < 2 ^ 64) (hy : y < 2 ^ 64) :
    foldHalves (x * y) ≠ foldHalves ((x ^^^ 2 ^ q) * (y ^^^ 2 ^ q)) := by
  obtain ⟨k, hk⟩ : 4 ∣ 2 ^ q := Nat.pow_dvd_pow 2 hq
  have hmoved {a b : Nat} (ha : a % 2 = 0) (hab : a % 4 = b % 4) (ha' : a < 2 ^ 64)
      (hb' : b < 2 ^ 64) : foldHalves (a * b) ≠ foldHalves ((a + 2 ^ q) * (b + 2 ^ q)) := by
    have hproduct : (a + 2 ^ q) * (b + 2 ^ q) = a * b + 2 ^ q * (a + b + 2 ^ q) := by ring
    have hdvd : 2 ^ (q + 2) ∣ 2 ^ q * (a + b + 2 ^ q) := by
      rw [Nat.pow_add]
      apply Nat.mul_dvd_mul_left
      omega
    have hless : 2 ^ q * (a + b + 2 ^ q) ≤ 2 ^ 64 * (2 ^ (q + 2) - 1) := by
      have hpow : 2 ^ q < 2 ^ 62 := Nat.pow_lt_pow_right (by decide) hq'
      calc
        2 ^ q * (a + b + 2 ^ q) ≤ 2 ^ q * (2 ^ 64 * 3) := Nat.mul_le_mul_left _ (by omega)
        _ = 2 ^ 64 * (2 ^ q * 3) := by ring
        _ ≤ 2 ^ 64 * (2 ^ (q + 2) - 1) := Nat.mul_le_mul_left _ (by rw [Nat.pow_add]; omega)
    rw [hproduct]
    exact foldHalves_ne_of_dvd (by omega) hdvd
      (Nat.mul_pos (Nat.two_pow_pos q) (by have := Nat.two_pow_pos q; omega)) hless
  have hparity := Nat.even_iff.1 heven
  rcases Nat.even_or_odd (x / 2 ^ q) with h | h
  · have h' : Even (y / 2 ^ q) := by rwa [Nat.even_iff, ← hbit, ← Nat.even_iff]
    rw [xor_two_pow_of_even h, xor_two_pow_of_even h']
    exact hmoved hparity hlow hx hy
  · have h' : Odd (y / 2 ^ q) := by rwa [Nat.odd_iff, ← hbit, ← Nat.odd_iff]
    have hback := xor_two_pow_of_odd h
    have hback' := xor_two_pow_of_odd h'
    have hne := hmoved (a := x ^^^ 2 ^ q) (b := y ^^^ 2 ^ q) (by omega) (by omega) (by omega)
      (by omega)
    rw [← hback, ← hback'] at hne
    exact hne.symm

end
/-! ## Above a bit -/

theorem low_div_eq {p p' j : Nat} (h : foldHalves p = foldHalves p')
    (hhigh : p / 2 ^ 64 / 2 ^ j = p' / 2 ^ 64 / 2 ^ j) :
    p % 2 ^ 64 / 2 ^ j = p' % 2 ^ 64 / 2 ^ j := by
  have hdiv := congrArg (· / 2 ^ j) h
  simp only [foldHalves, Nat.xor_div_two_pow, hhigh] at hdiv
  exact Nat.xor_left_inj.1 hdiv

/-! ## Nearby products -/

section
variable {u : Nat}

theorem high_div_le (hu : u < 2 ^ 64) (k : Nat) {a x : Nat} (hx : x < a + 2 ^ k) :
    x * u / 2 ^ 64 / 2 ^ k ≤ a * u / 2 ^ 64 / 2 ^ k + 1 := by
  rw [Nat.div_div_eq_div_mul, Nat.div_div_eq_div_mul, ← Nat.add_div_right _ (by positivity)]
  apply Nat.div_le_div_right
  calc
    x * u ≤ (a + 2 ^ k) * u := Nat.mul_le_mul_right u (Nat.le_of_lt hx)
    _ = a * u + u * 2 ^ k := by ring
    _ ≤ a * u + 2 ^ 64 * 2 ^ k := by
      have := Nat.mul_le_mul_right (2 ^ k) (Nat.le_of_lt hu)
      omega

/-- In one half of any range as long as a power of two, upper halves agree from that power on. -/
theorem exists_half (hu : u < 2 ^ 64) (d k : Nat) :
    ∃ e, e / 2 = d ∧ ∀ x x', x / 2 ^ k = e → x' / 2 ^ k = e →
      x * u / 2 ^ 64 / 2 ^ (k + 1) = x' * u / 2 ^ 64 / 2 ^ (k + 1) := by
  have hmono {x y : Nat} (h : x ≤ y) :
      x * u / 2 ^ 64 / 2 ^ (k + 1) ≤ y * u / 2 ^ 64 / 2 ^ (k + 1) :=
    Nat.div_le_div_right (Nat.div_le_div_right (Nat.mul_le_mul_right u h))
  have hrange {x e : Nat} (h : x / 2 ^ k = e) : e * 2 ^ k ≤ x ∧ x < (e + 1) * 2 ^ k :=
    ⟨(Nat.le_div_iff_mul_le (Nat.two_pow_pos k)).1 h.ge,
      (Nat.div_lt_iff_lt_mul (Nat.two_pow_pos k)).1 (by omega)⟩
  have hend : (2 * d + 2) * 2 ^ k = 2 * d * 2 ^ k + 2 ^ (k + 1) := by ring
  have hmiddle := hmono (Nat.mul_le_mul_right (2 ^ k) (Nat.le_add_right (2 * d) 1))
  by_cases h : (2 * d + 1) * 2 ^ k * u / 2 ^ 64 / 2 ^ (k + 1) =
      2 * d * 2 ^ k * u / 2 ^ 64 / 2 ^ (k + 1)
  · have hfirst {x : Nat} (hx : x / 2 ^ k = 2 * d) :
        x * u / 2 ^ 64 / 2 ^ (k + 1) = 2 * d * 2 ^ k * u / 2 ^ 64 / 2 ^ (k + 1) := by
      have hstart := hmono (hrange hx).1
      have hstop := hmono (Nat.le_of_lt (hrange hx).2)
      omega
    exact ⟨2 * d, by omega, fun x x' hx hx' => (hfirst hx).trans (hfirst hx').symm⟩
  · have hsecond {x : Nat} (hx : x / 2 ^ k = 2 * d + 1) :
        x * u / 2 ^ 64 / 2 ^ (k + 1) = (2 * d + 1) * 2 ^ k * u / 2 ^ 64 / 2 ^ (k + 1) := by
      have hstart := hmono (hrange hx).1
      have hstop := high_div_le hu (k + 1) (hend ▸ (hrange hx).2)
      omega
    exact ⟨2 * d + 1, by omega, fun x x' hx hx' => (hsecond hx).trans (hsecond hx').symm⟩

end

/-! ## Near multiples -/

/-- Where folds agree, and upper halves above some bit, the other factor times what the one moves by is
close to a multiple of `2 ^ 64`. -/
theorem exists_near_multiple {x x' u r w : Nat} {s : Int} (hr : r ≤ 64)
    (h : foldHalves (x * u) = foldHalves (x' * u))
    (hhigh : x * u / 2 ^ 64 / 2 ^ w = x' * u / 2 ^ 64 / 2 ^ w) (hs : (x' : Int) = x + 2 ^ r * s) :
    ∃ n : Int, 2 ^ r * |s * u - 2 ^ 64 * n| < 2 ^ w := by
  have hmove : ((x' * u : Nat) : Int) = (x * u : Nat) + 2 ^ r * (s * u) := by
    push_cast
    rw [hs]
    ring
  have hsame : x * u % 2 ^ r = x' * u % 2 ^ r := by
    zify
    push_cast at hmove
    rw [hmove, Int.add_mul_emod_self_left]
  obtain ⟨n, hn⟩ := Nat.modEq_iff_dvd.1 ((high_mod_eq_iff h hr).2 hsame)
  have hclose : |((x' * u % 2 ^ 64 : Nat) : Int) - (x * u % 2 ^ 64 : Nat)| < 2 ^ w := by
    have hlow := low_div_eq h hhigh
    have hpos : 0 < 2 ^ w := Nat.two_pow_pos w
    have hcast : ((2 ^ w : Nat) : Int) = 2 ^ w := by push_cast; rfl
    have hsplit := Nat.div_add_mod (x * u % 2 ^ 64) (2 ^ w)
    have hsplit' := Nat.div_add_mod (x' * u % 2 ^ 64) (2 ^ w)
    have hlt := Nat.mod_lt (x * u % 2 ^ 64) hpos
    have hlt' := Nat.mod_lt (x' * u % 2 ^ 64) hpos
    rw [hlow] at hsplit
    rw [← hcast, abs_lt]
    omega
  have hlows : 2 ^ r * (s * u - 2 ^ 64 * n) =
      ((x' * u % 2 ^ 64 : Nat) : Int) - (x * u % 2 ^ 64 : Nat) := by
    have hparts : ((x * u : Nat) : Int) = 2 ^ 64 * (x * u / 2 ^ 64 : Nat) + (x * u % 2 ^ 64 : Nat) := by
      omega
    have hparts' : ((x' * u : Nat) : Int) =
        2 ^ 64 * (x' * u / 2 ^ 64 : Nat) + (x' * u % 2 ^ 64 : Nat) := by
      omega
    have hcast : ((2 ^ r : Nat) : Int) = 2 ^ r := by push_cast; rfl
    rw [hcast] at hn
    linear_combination hparts' - hparts - hmove + 2 ^ 64 * hn
  refine ⟨n, ?_⟩
  calc
    2 ^ r * |s * u - 2 ^ 64 * n| = |2 ^ r * (s * u - 2 ^ 64 * n)| := by
      rw [abs_mul, abs_pow, abs_two]
    _ < 2 ^ w := by rwa [hlows]

/-- Two coprime numbers bring only the ends of the range close to multiples of `2 ^ 64`. -/
theorem near_ends {u : Nat} {s s' n n' : Int} (hu : u < 2 ^ 64) (hcoprime : IsCoprime s' s)
    (hs : |s| ≤ 2 ^ 17) (hs' : |s'| ≤ 2 ^ 17) (hn : |s * u - 2 ^ 64 * n| < 2 ^ 24)
    (hn' : |s' * u - 2 ^ 64 * n'| < 2 ^ 24) (hless : |s' * u - 2 ^ 64 * n'| < 5 * |s'|) :
    u ≤ 4 ∨ 2 ^ 64 ≤ u + 4 := by
  have hproduct : s' * n = s * n' := by
    have hdistance : |2 ^ 64 * (s' * n - s * n')| < 2 ^ 64 := by
      calc
        |2 ^ 64 * (s' * n - s * n')| =
            |s * (s' * u - 2 ^ 64 * n') - s' * (s * u - 2 ^ 64 * n)| := by
          congr 1
          ring
        _ ≤ |s| * |s' * u - 2 ^ 64 * n'| + |s'| * |s * u - 2 ^ 64 * n| := by
          rw [← abs_mul, ← abs_mul]
          exact abs_sub _ _
        _ ≤ 2 ^ 17 * 2 ^ 24 + 2 ^ 17 * 2 ^ 24 := by gcongr
        _ < 2 ^ 64 := by norm_num
    rw [abs_lt] at hdistance
    omega
  obtain ⟨k, rfl⟩ : s' ∣ n' := hcoprime.dvd_of_dvd_mul_left ⟨n, hproduct.symm⟩
  have hclose : |(u : Int) - 2 ^ 64 * k| < 5 := by
    have hfactor : s' * u - 2 ^ 64 * (s' * k) = s' * (u - 2 ^ 64 * k) := by ring
    rw [hfactor, abs_mul, mul_comm] at hless
    exact lt_of_mul_lt_mul_right hless (abs_nonneg s')
  rw [abs_lt] at hclose
  omega

end Fingerprint
