import Fingerprint.Proofs.Heeds.Basic
import Fingerprint.Proofs.Heeds.Mixes

/-!
# What wyhash heeds of nine to 32 bytes

Some byte is in a word that is mixed with another one. The word can be chosen so that its factor is
zero, which erases the other word, and that factor turns into a power of two if one bit of the byte is
turned. Then one bit of the other word decides one bit of what the last product folds; so of the two
ways to choose that bit, one lets the digest heed the byte.
-/

namespace Fingerprint.WyHash
open Plan HashFunction
set_option autoImplicit false

/-! ## Crossed words -/

/-- The word at `p`, its halves exchanged. -/
def cross (g : Nat → UInt8) (p : UInt64) : UInt64 := rotateLeft (wordsOf g .eight p) 32

/-- The bit of a crossed word that bit `r` of the byte `d` bytes from its start goes to. -/
def crossBit (d r : Nat) : Nat := (8 * d + r + 32) % 64

theorem crossBit_lt (d r : Nat) : crossBit d r < 64 := Nat.mod_lt _ (by decide)

section
variable {g : Nat → UInt8} {i r : Nat} {p : UInt64}

theorem cross_flip_of_mem (hr : r < 8) (hi : p.toNat ≤ i) (hi' : i < p.toNat + 8) :
    cross (flip g i r) p = cross g p ^^^ bit (crossBit (i - p.toNat) r) := by
  rw [cross, wordsOf_flip_of_mem (w := .eight) hr hi hi', rotateLeft_xor, cross]
  congr 1
  exact rotateLeft_bit (by omega) (by decide)

theorem cross_flip_of_not_mem (h : ¬ (p.toNat ≤ i ∧ i < p.toNat + 8)) :
    cross (flip g i r) p = cross g p := by
  rw [cross, wordsOf_flip_of_not_mem h, cross]

theorem cross_place (x : UInt64) : cross (place g p.toNat (rotateLeft x 32)) p = x := by
  rw [cross, wordsOf_place, rotateLeft_rotateLeft]
  exact rotateLeft_whole x rfl

theorem cross_place_of_disjoint {q : Nat} (x : UInt64) (h : p.toNat + 8 ≤ q ∨ q + 8 ≤ p.toNat) :
    cross (place g q x) p = cross g p := by
  rw [cross, wordsOf_place_of_disjoint x h, cross]

end

/-! ## Gates -/

section
variable {digest rest : (Nat → UInt8) → UInt64} {key1 key2 s c p q : UInt64} {i j : Nat}

/-- Where byte `i` is in a mixed word and byte `j` in the other one alone, one of the two decides
whether the digest heeds the other. -/
theorem exists_flip_ne (hc : 0 < c.toNat) (hc' : c.toNat < 2 ^ 63)
    (hdigest : ∀ g, digest g =
      foldProduct (mix key1 key2 s (cross g p) (cross g q) ^^^ rest g) c)
    (hi : p.toNat ≤ i) (hi' : i < p.toNat + 8) (hj : q.toNat ≤ j) (hj' : j < q.toNat + 8)
    (hapart : ¬ (p.toNat ≤ j ∧ j < p.toNat + 8)) (hrest : ∀ g, rest (flip g j 1) = rest g) :
    ∃ g, digest g ≠ digest (flip g i 0) := by
  let closed := place zeros p.toNat (rotateLeft (s ^^^ key1) 32)
  let opened := flip closed i 0
  have hne : i ≠ j := by omega
  have hclosed : cross closed p = s ^^^ key1 := cross_place _
  have hopened : cross opened p = s ^^^ key1 ^^^ bit (crossBit (i - p.toNat) 0) := by
    rw [cross_flip_of_mem (by decide) hi hi', hclosed]
  have hm := crossBit_lt (i - p.toNat) 0
  have hk := crossBit_lt (j - q.toNat) 1
  -- While the gate is closed, bit 1 of byte `j` makes no difference.
  have hsame : digest (flip closed j 1) = digest closed := by
    rw [hdigest, hdigest, cross_flip_of_not_mem hapart, hrest, hclosed, mix_zero, mix_zero]
  -- Once it is open, that bit turns one bit of what is folded last.
  have hturned : digest opened ≠ digest (flip opened j 1) := by
    have hodd : 0 < (crossBit (j - q.toNat) 1 + crossBit (i - p.toNat) 0) % 64 := by
      simp only [crossBit]
      omega
    have hother : cross (flip opened j 1) q ^^^ s ^^^ key2 =
        cross opened q ^^^ s ^^^ key2 ^^^ bit (crossBit (j - q.toNat) 1) := by
      rw [cross_flip_of_mem (by decide) hj hj']
      ac_rfl
    have hfolded : mix key1 key2 s (cross (flip opened j 1) p) (cross (flip opened j 1) q) ^^^
          rest (flip opened j 1) =
        mix key1 key2 s (cross opened p) (cross opened q) ^^^ rest opened ^^^
          bit ((crossBit (j - q.toNat) 1 + crossBit (i - p.toNat) 0) % 64) := by
      rw [cross_flip_of_not_mem hapart, hrest, hopened, mix_bit _ _ _ hm, mix_bit _ _ _ hm,
        hother, rotateLeft_xor, rotateLeft_bit hk hm]
      ac_rfl
    rw [hdigest, hdigest, hfolded]
    exact foldProduct_flip_ne hodd (Nat.mod_lt _ (by decide)) hc hc' _
  by_cases h : digest closed = digest opened
  · refine ⟨flip closed j 1, ?_⟩
    rw [hsame, h, flip_comm hne.symm]
    exact hturned
  · exact ⟨closed, h⟩

theorem exists_flip_ne_of_mixed {k : Nat} (hc : 0 < c.toNat) (hc' : c.toNat < 2 ^ 63)
    (hdigest : ∀ g, digest g =
      foldProduct (mix key1 key2 s (cross g p) (cross g q) ^^^ rest g) c)
    (hi : (p.toNat ≤ i ∧ i < p.toNat + 8) ∨ (q.toNat ≤ i ∧ i < q.toNat + 8))
    (hj : (p.toNat ≤ j ∧ j < p.toNat + 8) ∧ ¬ (q.toNat ≤ j ∧ j < q.toNat + 8))
    (hk : (q.toNat ≤ k ∧ k < q.toNat + 8) ∧ ¬ (p.toNat ≤ k ∧ k < p.toNat + 8))
    (hrestj : ∀ g, rest (flip g j 1) = rest g) (hrestk : ∀ g, rest (flip g k 1) = rest g) :
    ∃ g, digest g ≠ digest (flip g i 0) := by
  rcases hi with hi | hi
  · exact exists_flip_ne hc hc' hdigest hi.1 hi.2 hk.1.1 hk.1.2 hk.2 hrestk
  · have hswapped : ∀ g, digest g =
        foldProduct (mix key2 key1 s (cross g q) (cross g p) ^^^ rest g) c := by
      intro g
      rw [hdigest, mix_comm]
    exact exists_flip_ne hc hc' hswapped hi.1 hi.2 hj.1.1 hj.1.2 hj.2 hrestj

end

/-! ## The three expressions -/

section
variable {seed len : UInt64} {i : Nat}

theorem toNat_sub_eight (len : UInt64) (h : 8 ≤ len.toNat) : (len - 8).toNat = len.toNat - 8 :=
  UInt64.toNat_sub_of_le _ _ (UInt64.le_iff_toNat_le.2 h)

/-- The regimes of short ranges, told apart by numbers. -/
theorem body_of_le (h : len.toNat ≤ 32) (hpos : 9 ≤ len.toNat) :
    body seed len =
      if len.toNat ≤ 16 then do
        return ofTwo seed (← crossed 0) (← crossed (← sub len 8)) len
      else if len.toNat ≤ 24 then of17to24 seed len
      else of25to32 seed len := by
  simp only [body, upTo32, UInt64.le_iff_toNat_le, UInt64.lt_iff_toNat_lt, ← UInt64.toNat_inj,
    UInt64.reduceToNat]
  rw [if_pos h, if_neg (by omega), if_neg (by omega), if_neg (by omega)]

theorem run_of9to16 (h : 9 ≤ len.toNat) (h' : len.toNat ≤ 16) (g : Nat → UInt8) :
    (body seed len).run (wordsOf g) =
      foldProduct (mix p0 p1 seed (cross g 0) (cross g (len - 8)) ^^^ seed) (len ^^^ p4) := by
  rw [body_of_le (by omega) h, if_pos h']
  rfl

theorem run_of17to24 (h : 17 ≤ len.toNat) (h' : len.toNat ≤ 24) (g : Nat → UInt8) :
    (body seed len).run (wordsOf g) =
      foldProduct (mix p0 p1 seed (cross g 0) (cross g 8) ^^^ mix p2 p3 seed (cross g (len - 8)) 0)
        (len ^^^ p4) := by
  rw [body_of_le (by omega) (by omega), if_neg (by omega), if_pos h']
  rfl

theorem run_of25to32 (h : 25 ≤ len.toNat) (h' : len.toNat ≤ 32) (g : Nat → UInt8) :
    (body seed len).run (wordsOf g) =
      foldProduct (mix p0 p1 seed (cross g 0) (cross g 8) ^^^
        mix p2 p3 seed (cross g 16) (cross g (len - 8))) (len ^^^ p4) := by
  rw [body_of_le h' (by omega), if_neg (by omega), if_neg (by omega)]
  rfl

theorem toNat_lastKey (len : UInt64) (h : len.toNat ≤ 32) :
    0 < (len ^^^ p4).toNat ∧ (len ^^^ p4).toNat < 2 ^ 63 := by
  have hlt : (len ^^^ p4).toNat < 2 ^ 63 := by
    rw [UInt64.toNat_xor]
    exact Nat.xor_lt_two_pow (by omega) (by decide)
  refine ⟨Nat.pos_of_ne_zero fun hzero => ?_, hlt⟩
  rw [UInt64.xor_eq_zero_iff.1 (UInt64.toNat.inj hzero)] at h
  exact absurd h (by decide)

theorem coprime_lastKey (h : 17 ≤ len.toNat) (h' : len.toNat ≤ 24) :
    Nat.Coprime (2 ^ 64 + 1) (len ^^^ p4).toNat := by
  have hall : ∀ n ≤ 24, 17 ≤ n → Nat.Coprime (2 ^ 64 + 1) (n ^^^ p4.toNat) := by decide +kernel
  rw [UInt64.toNat_xor]
  exact hall _ h' h

/-! ## Every byte that can be heeded is -/

theorem exists_flip_of9to16 (h : 9 ≤ len.toNat) (h' : len.toNat ≤ 16) (hi : i < len.toNat) :
    ∃ g, (body seed len).run (wordsOf g) ≠ (body seed len).run (wordsOf (flip g i 0)) := by
  obtain ⟨hc, hc'⟩ := toNat_lastKey len (by omega)
  have hlast := toNat_sub_eight len (by omega)
  have hfirst : (0 : UInt64).toNat = 0 := rfl
  exact exists_flip_ne_of_mixed (p := 0) (q := len - 8) (j := 0) (k := len.toNat - 1) hc hc'
    (run_of9to16 h h') (by omega) (by omega) (by omega) (fun _ => rfl) fun _ => rfl

theorem exists_flip_of17to24 (h : 17 ≤ len.toNat) (h' : len.toNat ≤ 24) (hi : i < 16) :
    ∃ g, (body seed len).run (wordsOf g) ≠ (body seed len).run (wordsOf (flip g i 0)) := by
  obtain ⟨hc, hc'⟩ := toNat_lastKey len (by omega)
  have hlast := toNat_sub_eight len (by omega)
  have hfirst : (0 : UInt64).toNat = 0 := rfl
  have hsecond : (8 : UInt64).toNat = 8 := rfl
  exact exists_flip_ne_of_mixed (p := 0) (q := 8) (j := 0) (k := 8) hc hc' (run_of17to24 h h')
    (by omega) (by omega) (by omega)
    (fun g => by rw [cross_flip_of_not_mem (by omega)])
    (fun g => by rw [cross_flip_of_not_mem (by omega)])

/-- Unless the seed erases the last word, which it does if it is the key of the other factor. -/
theorem exists_flip_of17to24_last (h : 17 ≤ len.toNat) (h' : len.toNat ≤ 24) (hi : 16 ≤ i)
    (hi' : i < len.toNat) (hseed : seed ≠ p3) :
    ∃ g, (body seed len).run (wordsOf g) ≠ (body seed len).run (wordsOf (flip g i 0)) := by
  have hlast := toNat_sub_eight len (by omega)
  have hfirst : (0 : UInt64).toNat = 0 := rfl
  let back := place zeros (len - 8).toNat (rotateLeft (seed ^^^ p2) 32)
  let closed := place back (0 : UInt64).toNat (rotateLeft (seed ^^^ p0) 32)
  have hfront : cross closed 0 = seed ^^^ p0 := cross_place _
  have hback : cross closed (len - 8) = seed ^^^ p2 := by
    rw [cross_place_of_disjoint _ (by omega), cross_place]
  have hfront' : cross (flip closed i 0) 0 = seed ^^^ p0 := by
    rw [cross_flip_of_not_mem (by omega), hfront]
  have hback' : cross (flip closed i 0) (len - 8) =
      seed ^^^ p2 ^^^ bit (crossBit (i - (len - 8).toNat) 0) := by
    rw [cross_flip_of_mem (by decide) (by omega) (by omega), hback]
  refine ⟨closed, ?_⟩
  rw [run_of17to24 h h', run_of17to24 h h', hfront, hfront', hback, hback', mix_zero, mix_zero,
    mix_zero, mix_bit _ _ _ (crossBit_lt _ _), UInt64.zero_xor, UInt64.zero_xor,
    foldProduct_zero_left, UInt64.zero_xor, foldProduct_comm]
  apply Ne.symm
  apply foldProduct_ne_zero (coprime_lastKey h h')
  intro hzero
  have heq := rotateLeft_injective _ (hzero.trans (rotateLeft_zero _).symm)
  exact hseed (UInt64.xor_eq_zero_iff.1 heq)

theorem exists_flip_of25to32 (h : 25 ≤ len.toNat) (h' : len.toNat ≤ 32) (hi : i < len.toNat) :
    ∃ g, (body seed len).run (wordsOf g) ≠ (body seed len).run (wordsOf (flip g i 0)) := by
  obtain ⟨hc, hc'⟩ := toNat_lastKey len (by omega)
  have hlast := toNat_sub_eight len (by omega)
  have hfirst : (0 : UInt64).toNat = 0 := rfl
  have hsecond : (8 : UInt64).toNat = 8 := rfl
  have hthird : (16 : UInt64).toNat = 16 := rfl
  by_cases hfront : i < 16
  · exact exists_flip_ne_of_mixed (p := 0) (q := 8) (j := 0) (k := 8) hc hc' (run_of25to32 h h')
      (by omega) (by omega) (by omega)
      (fun g => by rw [cross_flip_of_not_mem (by omega), cross_flip_of_not_mem (by omega)])
      (fun g => by rw [cross_flip_of_not_mem (by omega), cross_flip_of_not_mem (by omega)])
  · have hswapped : ∀ g, (body seed len).run (wordsOf g) =
        foldProduct (mix p2 p3 seed (cross g 16) (cross g (len - 8)) ^^^
          mix p0 p1 seed (cross g 0) (cross g 8)) (len ^^^ p4) := by
      intro g
      rw [run_of25to32 h h', UInt64.xor_comm]
    exact exists_flip_ne_of_mixed (p := 16) (q := len - 8) (j := 16) (k := len.toNat - 1) hc hc'
      hswapped (by omega) (by omega) (by omega)
      (fun g => by rw [cross_flip_of_not_mem (by omega), cross_flip_of_not_mem (by omega)])
      (fun g => by rw [cross_flip_of_not_mem (by omega), cross_flip_of_not_mem (by omega)])

end

end Fingerprint.WyHash
