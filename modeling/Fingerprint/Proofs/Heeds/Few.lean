import Fingerprint.Proofs.Copies
import Fingerprint.Proofs.Heeds.Mixed

/-!
# What wyhash heeds of one to three bytes

One to three bytes make a number below `2 ^ 24`, which is one factor of the mixed word. The other one is
the seed with a key, so it is zero for one seed and all ones for another. For every other seed, each byte
makes a difference to the fold: one that is in the number once can move it by neighbouring powers of
two, and for one that is copied there is a finite check.
-/

namespace Fingerprint.WyHash
open Plan HashFunction
set_option autoImplicit false

/-! ## The number of some bytes -/

theorem toNat_ofBytes (a b c : UInt8) :
    (ofBytes a b c).toNat = a.toNat * 65536 + b.toNat * 256 + c.toNat := by
  have ha := a.toNat_lt
  have hb := b.toNat_lt
  have hc := c.toNat_lt
  have hsixteen : (16 : UInt64).toNat % 64 = 16 := rfl
  have height : (8 : UInt64).toNat % 64 = 8 := rfl
  rw [ofBytes, UInt64.toNat_or, UInt64.toNat_or, UInt64.toNat_shiftLeft, UInt64.toNat_shiftLeft,
    hsixteen, height, UInt8.toNat_toUInt64, UInt8.toNat_toUInt64, UInt8.toNat_toUInt64,
    Nat.shiftLeft_eq, Nat.shiftLeft_eq, Nat.mod_eq_of_lt (by omega), Nat.mod_eq_of_lt (by omega),
    Nat.or_assoc, Nat.mul_comm b.toNat, ← Nat.two_pow_add_eq_or_of_lt hc, Nat.mul_comm a.toNat,
    ← Nat.two_pow_add_eq_or_of_lt (by omega)]
  omega

/-- The first byte, the middle one and the last one of `n`. -/
def number (n : Nat) (g : Nat → UInt8) : Nat :=
  (g 0).toNat * 65536 + (g (n / 2)).toNat * 256 + (g (n - 1)).toNat

section
variable {seed : UInt64} {n i : Nat}

theorem toUInt8_wordsOf (g : Nat → UInt8) (w : Width) (p : UInt64) :
    (wordsOf g w p).toUInt8 = g p.toNat := by
  apply UInt8.toNat.inj
  rw [UInt64.toNat_toUInt8]
  exact toNat_wordsOf_mod

theorem toNat_run_few (hpos : 0 < n) (hn : n < 4) (g : Nat → UInt8) :
    ((few 0 (UInt64.ofNat n)).run (wordsOf g)).toNat = number n g := by
  simp only [few, run_bind, run_pure, run_u8, run_add, run_sub, toUInt8_wordsOf, toNat_ofBytes,
    number]
  obtain rfl | rfl | rfl : n = 1 ∨ n = 2 ∨ n = 3 := by omega
  all_goals rfl

/-- Inputs of one to three bytes whose numbers fold differently. -/
theorem heedsByte_of_numbers (g g' : Nat → UInt8) (hpos : 0 < n) (hn : n < 4)
    (hsame : ∀ j ≠ i, g j = g' j)
    (h : foldHalves ((number n g ^^^ (seed ^^^ p0).toNat) * (seed ^^^ p1).toNat) ≠
      foldHalves ((number n g' ^^^ (seed ^^^ p0).toNat) * (seed ^^^ p1).toNat)) :
    HeedsByte (mixedOf seed) n i := by
  have hfits : n ≤ 8 := by omega
  have hlen : (UInt64.ofNat n).toNat = n :=
    UInt64.toNat_ofNat_of_lt' (Nat.lt_of_le_of_lt hfits (by decide))
  have hfew : UInt64.ofNat n < 4 := by
    rw [UInt64.lt_iff_toNat_lt, hlen]
    exact hn
  have hrun (g : Nat → UInt8) : (mixed seed (UInt64.ofNat n)).run (wordsOf g) =
      foldProduct ((few 0 (UInt64.ofNat n)).run (wordsOf g) ^^^ (seed ^^^ p0)) (seed ^^^ p1) ^^^
        seed := by
    rw [mixed, if_pos hfew, run_bind, run_pure, mix, UInt64.zero_xor, UInt64.xor_assoc _ seed p0]
  apply heedsByte_of_ne hsame
  rw [mixedOf_arrayOf hpos hfits, mixedOf_arrayOf hpos hfits, hrun, hrun]
  intro heq
  apply h
  have hfold := congrArg UInt64.toNat ((UInt64.xor_left_inj seed).1 heq)
  rwa [toNat_foldProduct, toNat_foldProduct, UInt64.toNat_xor _ (seed ^^^ p0),
    UInt64.toNat_xor _ (seed ^^^ p0), toNat_run_few hpos hn, toNat_run_few hpos hn] at hfold

/-! ## A byte that is in the number once -/

/-- A byte at some place of a factor makes a difference to the fold: its two lowest bits can be chosen
so that they are zero, and then the factor moves twice by one power of two. -/
theorem exists_byte_ne {q k u : Nat} (hq : q ≤ 64) (hu : 0 < u) (hu' : u < 2 ^ 64 - 1) :
    ∃ v < 256, ∃ v' < 256,
      foldHalves ((v * 2 ^ q ^^^ k) * u) ≠ foldHalves ((v' * 2 ^ q ^^^ k) * u) := by
  obtain ⟨d, hd⟩ : ∃ d, d = k / 2 ^ q % 2 ^ 2 := ⟨_, rfl⟩
  have hbyte : d < 2 ^ 8 := by omega
  have hdistrib (e : Nat) : (d ^^^ e) * 2 ^ q = d * 2 ^ q ^^^ e * 2 ^ q := by
    simpa only [Nat.shiftLeft_eq] using Nat.shiftLeft_xor_distrib (a := d) (b := e) (i := q)
  have hclear : (d * 2 ^ q ^^^ k) / 2 ^ q % 4 = 0 := by
    have hmod := Nat.xor_mod_two_pow (a := d) (b := k / 2 ^ q) (n := 2)
    have hshort : d % 2 ^ 2 = d := by omega
    rw [← hd, hshort, Nat.xor_self] at hmod
    rw [Nat.xor_div_two_pow, Nat.mul_div_cancel _ (Nat.two_pow_pos q)]
    exact hmod
  have hone : (d ^^^ 1) * 2 ^ q ^^^ k = (d * 2 ^ q ^^^ k) + 2 ^ q := by
    rw [← xor_two_pow_of_even (Nat.even_iff.2 (by omega)), hdistrib, Nat.one_mul, Nat.xor_assoc,
      Nat.xor_comm (2 ^ q), Nat.xor_assoc]
  have htwo : (d ^^^ 2) * 2 ^ q ^^^ k = (d * 2 ^ q ^^^ k) + 2 ^ q + 2 ^ q := by
    have heven : Even ((d * 2 ^ q ^^^ k) / 2 ^ (q + 1)) := by
      rw [Nat.even_iff, Nat.pow_succ, ← Nat.div_div_eq_div_mul]
      omega
    have hsum : (d * 2 ^ q ^^^ k) + 2 ^ q + 2 ^ q = (d * 2 ^ q ^^^ k) + 2 ^ (q + 1) := by
      rw [Nat.pow_succ]
      omega
    rw [hsum, ← xor_two_pow_of_even heven, hdistrib, Nat.xor_assoc, Nat.xor_comm (2 * 2 ^ q),
      Nat.xor_assoc, Nat.pow_succ, Nat.mul_comm (2 ^ q)]
  have hless (e : Nat) (he : e < 2 ^ 8) : d ^^^ e < 256 := Nat.xor_lt_two_pow hbyte he
  rcases exists_step_ne hq hu hu' (d * 2 ^ q ^^^ k) with h | h
  · exact ⟨d, hbyte, d ^^^ 1, hless 1 (by decide), by rwa [hone]⟩
  · exact ⟨d ^^^ 1, hless 1 (by decide), d ^^^ 2, hless 2 (by decide), by rwa [hone, htwo]⟩

/-- Zeros, but for the byte at `i`. -/
def only (i v : Nat) : Nat → UInt8 := Function.update zeros i (UInt8.ofNat v)

theorem toNat_only {v : Nat} (hv : v < 256) (j : Nat) :
    (only i v j).toNat = if j = i then v else 0 := by
  rw [only, Function.update_apply]
  split
  · exact UInt8.toNat_ofNat_of_lt' hv
  · rfl

theorem number_only {v : Nat} (hv : v < 256) :
    number n (only i v) = (if 0 = i then v else 0) * 65536 + (if n / 2 = i then v else 0) * 256 +
      if n - 1 = i then v else 0 := by
  rw [number, toNat_only hv, toNat_only hv, toNat_only hv]

theorem heedsByte_of_bytes (hpos : 0 < n) (hn : n < 4) {c : Nat → Nat}
    (hnumber : ∀ v < 256, number n (only i v) = c v)
    (h : ∃ v < 256, ∃ v' < 256,
      foldHalves ((c v ^^^ (seed ^^^ p0).toNat) * (seed ^^^ p1).toNat) ≠
        foldHalves ((c v' ^^^ (seed ^^^ p0).toNat) * (seed ^^^ p1).toNat)) :
    HeedsByte (mixedOf seed) n i := by
  obtain ⟨v, hv, v', hv', hne⟩ := h
  apply heedsByte_of_numbers (only i v) (only i v') hpos hn
  · intro j hj
    rw [only, only, Function.update_of_ne hj, Function.update_of_ne hj]
  · rwa [hnumber v hv, hnumber v' hv']

/-! ## A byte that is copied -/

/-- What the two factors differ in if all bytes are zero: the exclusive or of their keys. -/
def keyMask : Nat := 0x477563b5d8094cf4

theorem settled_two : ∀ v < 2 ^ 8, ∀ z ∈ patterns,
    Settled 2 keyMask (v + 2 ^ 8 * (v ^^^ z)) := by
  decide +kernel

theorem settled_three : ∀ v < 2 ^ 8, ∀ z ∈ patterns, ∀ z' ∈ patterns,
    Settled 3 keyMask (v + 2 ^ 8 * (v ^^^ z) + 2 ^ 16 * (v ^^^ z')) := by
  decide +kernel

theorem ends_ne : ∀ c ∈ [2, 3], ∀ v ∈ [1, 2, 3, 4, 2 ^ 64 - 4, 2 ^ 64 - 3, 2 ^ 64 - 2],
    foldHalves ((v ^^^ keyMask) * v) ≠ foldHalves ((v ^^^ keyMask ^^^ copies c 1) * v) := by
  decide

theorem settled_of_slopes {c : Nat} (hc : c ∈ [2, 3]) (x : Nat)
    (hall : ∀ r < 6, |slope c x r| = |slope c x 6|) :
    Settled c keyMask (x % 2 ^ (8 * c)) := by
  have hbyte {j : Nat} (hj : j < c) := byte_of_abs_slope_eq hall hj
  rcases hc with _ | ⟨_, _ | ⟨_, ⟨⟩⟩⟩
  · obtain ⟨z, hz, hx⟩ := hbyte (j := 1) (by decide)
    have hlow : x % 2 ^ (8 * 2) = x % 2 ^ 8 + 2 ^ 8 * (x % 2 ^ 8 ^^^ z) := by
      rw [← hx]
      omega
    rw [hlow]
    exact settled_two _ (Nat.mod_lt _ (by decide)) z hz
  · obtain ⟨z, hz, hx⟩ := hbyte (j := 1) (by decide)
    obtain ⟨z', hz', hx'⟩ := hbyte (j := 2) (by decide)
    have hlow : x % 2 ^ (8 * 3) =
        x % 2 ^ 8 + 2 ^ 8 * (x % 2 ^ 8 ^^^ z) + 2 ^ 16 * (x % 2 ^ 8 ^^^ z') := by
      rw [← hx, ← hx']
      omega
    rw [hlow]
    exact settled_three _ (Nat.mod_lt _ (by decide)) z hz z' hz'

/-! ## Every seed but two -/

theorem heedsByte_few (hn : n < 4) (hi : i < n) (hzero : seed ≠ p1) (hones : seed ≠ ~~~p1) :
    HeedsByte (mixedOf seed) n i := by
  have hpos : 0 < n := Nat.zero_lt_of_lt hi
  have hu : 0 < (seed ^^^ p1).toNat := by
    apply Nat.pos_of_ne_zero
    intro h
    exact hzero (UInt64.xor_eq_zero_iff.1 (UInt64.toNat.inj h))
  have hu' : (seed ^^^ p1).toNat < 2 ^ 64 - 1 := by
    have hlt := (seed ^^^ p1).toNat_lt
    have hmost : (~~~0 : UInt64).toNat = 2 ^ 64 - 1 := rfl
    have hne : (seed ^^^ p1).toNat ≠ (~~~0 : UInt64).toNat := by
      intro h
      have hxor : seed ^^^ p1 = ~~~0 := UInt64.toNat.inj h
      apply hones
      calc
        seed = seed ^^^ p1 ^^^ p1 := by rw [UInt64.xor_assoc, UInt64.xor_self, UInt64.xor_zero]
        _ = ~~~p1 := by rw [hxor]; rfl
    omega
  have hother : (seed ^^^ p0).toNat = (seed ^^^ p1).toNat ^^^ keyMask := by
    have hkeys : (p1 ^^^ p0).toNat = keyMask := rfl
    rw [← hkeys, ← UInt64.toNat_xor, xor_through]
  have honce {q : Nat} (hq : q ≤ 64) (hnumber : ∀ v < 256, number n (only i v) = v * 2 ^ q) :
      HeedsByte (mixedOf seed) n i := heedsByte_of_bytes hpos hn hnumber (exists_byte_ne hq hu hu')
  have hcopied {c : Nat} (hc : c ∈ [2, 3]) (hnumber : ∀ v < 256, number n (only i v) = copies c v) :
      HeedsByte (mixedOf seed) n i := by
    obtain ⟨v, hv, v', hv', hne⟩ := exists_copies_ne hc hu hu' (ends_ne c hc) (settled_of_slopes hc)
    refine heedsByte_of_bytes hpos hn hnumber ⟨v, hv, v', hv', ?_⟩
    rwa [hother, Nat.xor_comm, Nat.xor_comm (copies c v')]
  obtain ⟨rfl, rfl⟩ | ⟨rfl, rfl⟩ | ⟨rfl, rfl⟩ | ⟨rfl, rfl⟩ | ⟨rfl, rfl⟩ | ⟨rfl, rfl⟩ :
      (n = 1 ∧ i = 0) ∨ (n = 2 ∧ i = 0) ∨ (n = 2 ∧ i = 1) ∨ (n = 3 ∧ i = 0) ∨ (n = 3 ∧ i = 1) ∨
        (n = 3 ∧ i = 2) := by omega
  · exact hcopied (c := 3) (by decide) fun v hv => by simp [number_only hv, copies]; omega
  · exact honce (q := 16) (by decide) fun v hv => by simp [number_only hv]
  · exact hcopied (c := 2) (by decide) fun v hv => by simp [number_only hv, copies]; omega
  · exact honce (q := 16) (by decide) fun v hv => by simp [number_only hv]
  · exact honce (q := 8) (by decide) fun v hv => by simp [number_only hv]
  · exact honce (q := 0) (by decide) fun v hv => by simp [number_only hv]

end

end Fingerprint.WyHash
