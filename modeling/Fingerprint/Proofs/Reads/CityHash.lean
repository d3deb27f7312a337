import Fingerprint.CityHash
import Fingerprint.Proofs.Reads.Steps

/-!
# What CityHash reads

Up to 64 bytes, reads from the front and reads from the end meet in the middle. Above, the chunks
take in all but the last, never empty, part of at most 64 bytes, which the start has already read.
-/

namespace Fingerprint.CityHash
open Plan
set_option autoImplicit false

variable {len p : UInt64} {k : Nat}

/-! ## Up to 64 bytes -/

theorem upTo16_staysInside : (upTo16 len).StaysInside len := by
  simp [upTo16, UInt64.le_iff_toNat_le, UInt64.lt_iff_toNat_lt, UInt64.toNat_sub]
  omega

theorem upTo16_covers (h : len.toNat ≤ 16) (hk : k < len.toNat) : (upTo16 len).Covers k := by
  simp [upTo16, UInt64.le_iff_toNat_le, UInt64.lt_iff_toNat_lt, UInt64.toNat_sub]
  omega

theorem of17to32_staysInside (h : 16 < len.toNat) : (of17to32 len).StaysInside len := by
  simp [of17to32, UInt64.le_iff_toNat_le, UInt64.toNat_sub]
  omega

theorem of17to32_covers (h : 16 < len.toNat) (h' : len.toNat ≤ 32) (hk : k < len.toNat) :
    (of17to32 len).Covers k := by
  simp [of17to32, UInt64.le_iff_toNat_le, UInt64.toNat_sub]
  omega

theorem upTo32_staysInside : (upTo32 len).StaysInside len := by
  unfold upTo32
  split
  · exact upTo16_staysInside
  · rename_i h
    exact of17to32_staysInside (Nat.lt_of_not_le h)

theorem upTo32_covers (h : len.toNat ≤ 32) (hk : k < len.toNat) : (upTo32 len).Covers k := by
  unfold upTo32
  split
  · rename_i h'
    exact upTo16_covers h' hk
  · rename_i h'
    exact of17to32_covers (Nat.lt_of_not_le h') h hk

theorem of33to64_staysInside (h : 32 < len.toNat) : (of33to64 len).StaysInside len := by
  simp [of33to64, UInt64.le_iff_toNat_le, UInt64.toNat_sub]
  omega

theorem of33to64_covers (h : 32 < len.toNat) (h' : len.toNat ≤ 64) (hk : k < len.toNat) :
    (of33to64 len).Covers k := by
  simp [of33to64, UInt64.le_iff_toNat_le, UInt64.toNat_sub]
  omega

/-! ## More than 64 bytes -/

theorem round_staysInside (h : p.toNat + 64 ≤ len.toNat) (s : State) :
    (round p s).StaysInside len := by
  have hlen := len.toNat_lt
  simp [round, weakMixAt]
  omega

theorem round_covers (h : p.toNat + 64 < 2 ^ 64) (hp : p.toNat ≤ k) (hk : k < p.toNat + 64)
    (s : State) : (round p s).Covers k := by
  simp [round, weakMixAt]
  omega

theorem start_staysInside (h : 64 < len.toNat) : (start len).StaysInside len := by
  have hlen := len.toNat_lt
  simp [start, weakMixAt, UInt64.le_iff_toNat_le, UInt64.toNat_sub]
  omega

theorem start_covers (h : 64 < len.toNat) (hp : len.toNat ≤ k + 64) (hk : k < len.toNat) :
    (start len).Covers k := by
  have hlen := len.toNat_lt
  simp [start, weakMixAt, UInt64.le_iff_toNat_le, UInt64.toNat_sub]
  omega

/-- Clearing the six lowest bits rounds down to a multiple of 64. -/
theorem toNat_clear (x : UInt64) : (x &&& ~~~63).toNat = x.toNat / 64 * 64 := by
  have hmask : (~~~63 : UInt64).toNat = 2 ^ 64 - (63 + 1) := rfl
  have hshift : x.toNat / 64 * 64 = x.toNat >>> 6 <<< 6 := by
    rw [Nat.shiftLeft_eq, Nat.shiftRight_eq_div_pow]
  rw [UInt64.toNat_and, hmask, hshift]
  apply Nat.eq_of_testBit_eq
  intro i
  have hsmall : Nat.testBit 63 i = decide (i < 6) := Nat.testBit_two_pow_sub_one 6 i
  rw [Nat.testBit_and, Nat.testBit_two_pow_sub_succ (by decide), hsmall, Nat.testBit_shiftLeft,
    Nat.testBit_shiftRight]
  by_cases hi : i < 6
  · simp [hi, Nat.not_le.2 hi]
  · have hle := Nat.le_of_not_lt hi
    by_cases hi' : i < 64
    · simp [hi, hi', hle, Nat.add_sub_cancel' hle]
    · have hx : x.toNat.testBit i = false :=
        Nat.testBit_lt_two_pow (Nat.lt_of_lt_of_le x.toNat_lt
          (Nat.pow_le_pow_right (by decide) (Nat.le_of_not_lt hi')))
      simp [hi', Nat.add_sub_cancel' hle, hx]

theorem chunkBytes_always (h : 0 < len.toNat) : (chunkBytes len).Always (Step.Inside len)
    fun left => left.toNat = (len.toNat - 1) / 64 * 64 := by
  have hone := toNat_allButLast h
  simp [chunkBytes, UInt64.le_iff_toNat_le, -UInt64.toNat_and, toNat_clear, hone]
  omega

theorem long_staysInside (h : 64 < len.toNat) : (long len).StaysInside len := by
  apply (start_staysInside h).andThen
  intro s _
  apply (chunkBytes_always (by omega)).andThen
  intro left hleft
  have hlen := len.toNat_lt
  have hstep : (64 : UInt64).toNat = 64 := rfl
  have hloop : (portions 64 round len.toNat left 0 s).StaysInside len := by
    apply Always.portions Step.inside_true (n := (len.toNat - 1) / 64) (by omega) (by omega) hleft
    · rw [UInt64.toNat_zero, hstep]
      omega
    · intro k hk q s hq
      rw [UInt64.toNat_zero, hstep] at hq
      exact round_staysInside (by omega) s
  exact hloop.andThen fun _ _ => trivial

theorem long_covers (h : 64 < len.toNat) (hk : k < len.toNat) : (long len).Covers k := by
  have hlen := len.toNat_lt
  have hstep : (64 : UInt64).toNat = 64 := rfl
  by_cases hlast : len.toNat ≤ k + 64
  · exact (start_covers h hlast hk).first
  apply Sometime.later
  intro s
  apply Sometime.after (chunkBytes_always (by omega))
  intro left hleft
  have hloop : (portions 64 round len.toNat left 0 s).Covers k := by
    apply Sometime.portions (n := (len.toNat - 1) / 64) (k := k / 64) (by omega) (by decide)
      (by omega) hleft
    · rw [UInt64.toNat_zero, hstep]
      omega
    · intro q s hq
      rw [UInt64.toNat_zero, hstep] at hq
      exact round_covers (by omega) (by omega) (by omega) s
  exact hloop.first

/-! ## Any length -/

theorem body_staysInside : (body len).StaysInside len := by
  unfold body
  split
  · exact upTo32_staysInside
  · rename_i h
    split
    · exact of33to64_staysInside (Nat.lt_of_not_le h)
    · rename_i h'
      exact long_staysInside (Nat.lt_of_not_le h')

theorem body_covers (hk : k < len.toNat) : (body len).Covers k := by
  unfold body
  split
  · rename_i h
    exact upTo32_covers h hk
  · rename_i h
    split
    · rename_i h'
      exact of33to64_covers (Nat.lt_of_not_le h) h' hk
    · rename_i h'
      exact long_covers (Nat.lt_of_not_le h') hk

/-! ## Narrow reads -/

theorem upTo32_backed (h : len.toNat = 0 ∨ 4 ≤ len.toNat) : (upTo32 len).ReadsBacked := by
  simp [upTo32, upTo16, of17to32, UInt64.le_iff_toNat_le, UInt64.lt_iff_toNat_lt]
  omega

theorem round_backed (p : UInt64) (s : State) : (round p s).ReadsBacked := by
  simp [round, weakMixAt]

theorem long_backed : (long len).ReadsBacked := by
  have hstart : (start len).ReadsBacked := by simp [start, weakMixAt]
  apply hstart.andThen
  intro s _
  have hbytes : (chunkBytes len).ReadsBacked := by simp [chunkBytes]
  apply hbytes.andThen
  intro left _
  exact (Always.portions_of_forall Step.backed_demand round_backed 64 _ left 0 s).andThen fun _ _ => trivial

theorem body_backed (h : len.toNat = 0 ∨ 4 ≤ len.toNat) : (body len).ReadsBacked := by
  have hmiddle : (of33to64 len).ReadsBacked := by simp [of33to64]
  rw [body, ReadsBacked, always_ite, always_ite]
  exact ⟨fun _ => upTo32_backed h, fun _ => ⟨fun _ => hmiddle, fun _ => long_backed⟩⟩

end Fingerprint.CityHash
