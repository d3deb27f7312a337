import Fingerprint.MurmurHash
import Fingerprint.Proofs.Reads.Steps

/-!
# What MurmurHash reads

The blocks take in all bytes but the last, at most 15; those are read one by one.
-/

namespace Fingerprint.MurmurHash
open Plan
set_option autoImplicit false

variable {len p n i rest : UInt64} {k : Nat}

theorem round_staysInside (h : i.toNat * 16 + 16 ≤ len.toNat) (s : State) :
    (round i s).StaysInside len := by
  have hlen := len.toNat_lt
  simp [round]
  omega

theorem round_covers (h : i.toNat * 16 + 16 < 2 ^ 64) (hi : i.toNat = k / 16) (s : State) :
    (round i s).Covers k := by
  simp [round]
  omega

/-! ## The rest -/

theorem partialWord_staysInside (hn : n.toNat ≤ 8) (h : p.toNat + n.toNat ≤ len.toNat) :
    (partialWord p n).StaysInside len := by
  have hlen := len.toNat_lt
  rw [partialWord, StaysInside, always_demand, decide_eq_true (UInt64.le_iff_toNat_le.2 hn)]
  refine ⟨Step.inside_true, Always.range Step.inside_true ?_ 0⟩
  intro i word _ hi
  simp
  omega

theorem partialWord_covers (hp : p.toNat ≤ k) (hk : k < p.toNat + n.toNat)
    (h : p.toNat + n.toNat < 2 ^ 64) : (partialWord p n).Covers k := by
  rw [partialWord, Covers, sometime_demand]
  refine .inr (Sometime.range (Nat.zero_le _) (by omega : k - p.toNat < n.toNat) ?_ 0)
  intro i word hi
  simp
  omega

theorem takePartial_staysInside (hn : n.toNat ≤ 8) (h : p.toNat + n.toNat ≤ len.toNat)
    (scramble : UInt64 → UInt64) (lane : UInt64) :
    (takePartial scramble p n lane).StaysInside len :=
  (partialWord_staysInside hn h).andThen fun _ _ => trivial

theorem takePartial_covers (hp : p.toNat ≤ k) (hk : k < p.toNat + n.toNat)
    (h : p.toNat + n.toNat < 2 ^ 64) (scramble : UInt64 → UInt64) (lane : UInt64) :
    (takePartial scramble p n lane).Covers k :=
  (partialWord_covers hp hk h).first

theorem toNat_min_eight (rest : UInt64) : (min rest 8).toNat = min rest.toNat 8 := by
  have h8 : (8 : UInt64).toNat = 8 := rfl
  change (if rest ≤ 8 then rest else 8).toNat = _
  split <;> rename_i h <;> rw [UInt64.le_iff_toNat_le] at h <;> omega

theorem takeFirst_staysInside (h : p.toNat + rest.toNat ≤ len.toNat) (lane : UInt64) :
    (takeFirst p rest lane).StaysInside len := by
  have hmin := toNat_min_eight rest
  rw [takeFirst, StaysInside, always_ite]
  exact ⟨fun _ => takePartial_staysInside (by omega) (by omega) _ _, fun _ => trivial⟩

theorem takeSecond_staysInside (hrest : rest.toNat ≤ 16) (h : p.toNat + rest.toNat ≤ len.toNat)
    (lane : UInt64) : (takeSecond p rest lane).StaysInside len := by
  have hlen := len.toNat_lt
  have h8 : (8 : UInt64).toNat = 8 := rfl
  rw [takeSecond, StaysInside, always_ite, UInt64.lt_iff_toNat_lt]
  refine ⟨fun hmore => ?_, fun _ => trivial⟩
  apply Always.add Step.inside_true (by omega)
  intro q hq
  apply Always.sub Step.inside_true (by omega)
  intro n hn
  exact takePartial_staysInside (by omega) (by omega) _ _

theorem takeFirst_covers (h : p.toNat + rest.toNat < 2 ^ 64) (hp : p.toNat ≤ k)
    (hk : k < p.toNat + rest.toNat) (hfirst : k < p.toNat + 8) (lane : UInt64) :
    (takeFirst p rest lane).Covers k := by
  have hmin := toNat_min_eight rest
  have hpos : 0 < rest := UInt64.lt_iff_toNat_lt.2 (by rw [UInt64.toNat_zero]; omega)
  rw [takeFirst, if_pos hpos]
  exact takePartial_covers hp (by omega) (by omega) _ _

theorem takeSecond_covers (h : p.toNat + rest.toNat < 2 ^ 64) (hk : k < p.toNat + rest.toNat)
    (hsecond : p.toNat + 8 ≤ k) (lane : UInt64) : (takeSecond p rest lane).Covers k := by
  have h8 : (8 : UInt64).toNat = 8 := rfl
  rw [takeSecond, if_pos (UInt64.lt_iff_toNat_lt.2 (by omega))]
  apply Sometime.add (by omega)
  intro q hq
  apply Sometime.sub (by omega)
  intro n hn
  exact takePartial_covers (by omega) (by omega) (by omega) _ _

theorem tail_staysInside (hrest : rest.toNat ≤ 16) (h : p.toNat + rest.toNat ≤ len.toNat)
    (s : State) : (tail p rest s).StaysInside len := by
  apply (takeSecond_staysInside hrest h s.h2).andThen
  intro h2 _
  exact (takeFirst_staysInside h s.h1).andThen fun _ _ => trivial

theorem tail_covers (h : p.toNat + rest.toNat < 2 ^ 64) (hp : p.toNat ≤ k)
    (hk : k < p.toNat + rest.toNat) (s : State) : (tail p rest s).Covers k := by
  by_cases hfirst : k < p.toNat + 8
  · apply Sometime.later
    intro h2
    exact (takeFirst_covers h hp hk hfirst s.h1).first
  · exact (takeSecond_covers h hk (by omega) s.h2).first

/-! ## The body -/

theorem toNat_blocks (len : UInt64) : (len / 16).toNat = len.toNat / 16 := UInt64.toNat_div len 16

theorem body_staysInside (seed : UInt64) : (body seed len).StaysInside len := by
  have hlen := len.toNat_lt
  have h16 : (16 : UInt64).toNat = 16 := rfl
  have hblocks := toNat_blocks len
  have hloop : (range 0 (len / 16) round (start seed)).StaysInside len := by
    apply Always.range Step.inside_true
    intro i s _ hi
    exact round_staysInside (by omega) s
  apply hloop.andThen
  intro s _
  apply Always.mul Step.inside_true (by rw [hblocks, h16]; omega)
  intro p hp
  rw [hblocks, h16] at hp
  apply Always.sub Step.inside_true (by omega)
  intro rest hrest
  exact (tail_staysInside (by omega) (by omega) s).andThen fun _ _ => trivial

theorem body_covers (seed : UInt64) (hk : k < len.toNat) : (body seed len).Covers k := by
  have hlen := len.toNat_lt
  have h16 : (16 : UInt64).toNat = 16 := rfl
  have hblocks := toNat_blocks len
  by_cases hin : k < len.toNat / 16 * 16
  · have hloop : (range 0 (len / 16) round (start seed)).Covers k := by
      apply Sometime.range (Nat.zero_le _) (by omega : k / 16 < (len / 16).toNat)
      intro i s hi
      exact round_covers (by omega) hi s
    exact hloop.first
  apply Sometime.later
  intro s
  apply Sometime.mul (by rw [hblocks, h16]; omega)
  intro p hp
  rw [hblocks, h16] at hp
  apply Sometime.sub (by omega)
  intro rest hrest
  exact (tail_covers (by omega) (by omega) (by omega) s).first

/-! ## Narrow reads -/

theorem partialWord_backed (hp : 3 ≤ p.toNat) (h : p.toNat + n.toNat < 2 ^ 64) :
    (partialWord p n).ReadsBacked := by
  refine ⟨trivial, Always.range trivial ?_ 0⟩
  intro i word _ hi
  have hadd : (p + i).toNat = p.toNat + i.toNat := toNat_add_of_lt (by omega)
  simp [hadd]
  omega

theorem takePartial_backed (hp : 3 ≤ p.toNat) (h : p.toNat + n.toNat < 2 ^ 64)
    (scramble : UInt64 → UInt64) (lane : UInt64) : (takePartial scramble p n lane).ReadsBacked :=
  (partialWord_backed hp h).andThen fun _ _ => trivial

theorem tail_backed (hp : rest.toNat = 0 ∨ 3 ≤ p.toNat) (h : p.toNat + rest.toNat < 2 ^ 64)
    (s : State) : (tail p rest s).ReadsBacked := by
  have h8 : (8 : UInt64).toNat = 8 := rfl
  have hmin := toNat_min_eight rest
  have hsecond : (takeSecond p rest s.h2).ReadsBacked := by
    rw [takeSecond, ReadsBacked, always_ite, UInt64.lt_iff_toNat_lt]
    refine ⟨fun hmore => ?_, fun _ => trivial⟩
    apply Always.add trivial (by omega)
    intro q hq
    apply Always.sub trivial (by omega)
    intro n hn
    exact takePartial_backed (by omega) (by omega) _ _
  have hfirst : (takeFirst p rest s.h1).ReadsBacked := by
    rw [takeFirst, ReadsBacked, always_ite, UInt64.lt_iff_toNat_lt, UInt64.toNat_zero]
    exact ⟨fun hmore => takePartial_backed (by omega) (by omega) _ _, fun _ => trivial⟩
  apply hsecond.andThen
  intro h2 _
  exact hfirst.andThen fun _ _ => trivial

theorem body_backed (seed : UInt64) (h : len.toNat = 0 ∨ 16 ≤ len.toNat) :
    (body seed len).ReadsBacked := by
  have hlen := len.toNat_lt
  have h16 : (16 : UInt64).toNat = 16 := rfl
  have hblocks := toNat_blocks len
  have hround : ∀ i s, (round i s).ReadsBacked := by simp [round]
  apply (Always.range_of_forall Step.backed_demand hround 0 (len / 16) (start seed)).andThen
  intro s _
  apply Always.mul trivial (by rw [hblocks, h16]; omega)
  intro p hp
  rw [hblocks, h16] at hp
  apply Always.sub trivial (by omega)
  intro rest hrest
  exact (tail_backed (by omega) (by omega) s).andThen fun _ _ => trivial

end Fingerprint.MurmurHash
