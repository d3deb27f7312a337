import Fingerprint.XXH3.Wide
import Fingerprint.Proofs.Reads.XXH3.Long

/-!
# What the 128-bit XXH3 reads

Its regimes are those of the 64-bit function, but from 129 to 240 bytes it goes by pairs of pieces,
32 bytes a round, and ends with the last 32.
-/

namespace Fingerprint.XXH3.Wide
open Plan
set_option autoImplicit false

variable {len p q o : UInt64} {k : Nat} (seed : UInt64)

/-! ## Up to 16 bytes -/

theorem upTo16_staysInside (h : len.toNat ≤ 16) : (upTo16 seed len).StaysInside len := by
  simp [upTo16, of9to16, of4to8, of1to3, void, UInt64.lt_iff_toNat_lt, UInt64.le_iff_toNat_le,
    UInt64.toNat_sub]
  omega

theorem upTo16_covers (hk : k < len.toNat) (h : len.toNat ≤ 16) : (upTo16 seed len).Covers k := by
  simp [upTo16, of9to16, of4to8, of1to3, void, UInt64.lt_iff_toNat_lt, UInt64.le_iff_toNat_le,
    UInt64.toNat_sub]
  omega

/-! ## 17 to 240 bytes -/

theorem mix32_staysInside (h : Pair len p q o) (s : Sums) :
    (mix32 seed p q o s).StaysInside len := by
  have hlen := len.toNat_lt
  have hp := h.front
  have hq := h.back
  have ho := h.keys
  simp [mix32, mix16]
  omega

theorem mix32_covers (h : Pair len p q o) (hk : Pair.Has k p q) (s : Sums) :
    (mix32 seed p q o s).Covers k := by
  have hlen := len.toNat_lt
  have hp := h.front
  have hq := h.back
  unfold Pair.Has at hk
  simp [mix32, mix16]
  omega

theorem of17to128_staysInside (hlong : 16 < len.toNat) : (of17to128 seed len).StaysInside len := by
  have hwalk := fromBothEnds_staysInside hlong (fun p q o s h => mix32_staysInside seed h s)
    (start len)
  exact hwalk.andThen fun _ _ => trivial

theorem of17to128_covers (hk : k < len.toNat) (hlong : 16 < len.toNat) (h : len.toNat ≤ 128) :
    (of17to128 seed len).Covers k := by
  have hwalk := fromBothEnds_covers hk hlong h (fun p q o s h hk => mix32_covers seed h hk s)
    (start len)
  exact hwalk.first

theorem toNat_add_three (o : UInt64) (h : o.toNat ≤ 192) : (3 + o).toNat = 3 + o.toNat := by
  have h3 : (3 : UInt64).toNat = 3 := rfl
  exact toNat_add_of_lt (by omega)

theorem of129to240_staysInside (hlong : 128 < len.toNat) (h : len.toNat ≤ 240) :
    (of129to240 seed len).StaysInside len := by
  have h16 : (16 : UInt64).toNat = 16 := rfl
  have h32 : (32 : UInt64).toNat = 32 := rfl
  have h4 : (4 : UInt64).toNat = 4 := rfl
  have hrounds : (len / 32).toNat = len.toNat / 32 := UInt64.toNat_div _ _
  unfold of129to240
  apply Always.andThen (Always.range Step.inside_true ?_ _)
  · intro s _
    apply Always.andThen (Always.range Step.inside_true ?_ _)
    · intro s _
      apply Always.sub Step.inside_true (by omega)
      intro p hp
      apply Always.sub Step.inside_true (by omega)
      intro q hq
      have hpair : Pair len p q 103 := ⟨by omega, by omega, by decide⟩
      exact (mix32_staysInside _ hpair s).andThen fun _ _ => trivial
    · intro i s hlow hi
      apply Always.mul Step.inside_true (by rw [h32]; omega)
      intro p hp
      apply Always.mul Step.inside_true (by rw [h32]; omega)
      intro q hq
      rw [h32] at hp hq
      apply Always.add Step.inside_true (by omega)
      intro q' hq'
      apply Always.sub Step.inside_true (by omega)
      intro j hj
      apply Always.mul Step.inside_true (by rw [h32]; omega)
      intro o ho
      rw [h32] at ho
      have ho' := toNat_add_three o (by omega)
      exact mix32_staysInside seed ⟨by omega, by omega, by omega⟩ s
  · intro i s _ hi
    apply Always.mul Step.inside_true (by rw [h32]; omega)
    intro p hp
    apply Always.mul Step.inside_true (by rw [h32]; omega)
    intro q hq
    rw [h32] at hp hq
    apply Always.add Step.inside_true (by omega)
    intro q' hq'
    apply Always.mul Step.inside_true (by rw [h32]; omega)
    intro o ho
    rw [h32] at ho
    exact mix32_staysInside seed ⟨by omega, by omega, by omega⟩ s

theorem of129to240_covers (hk : k < len.toNat) (hlong : 128 < len.toNat) (h : len.toNat ≤ 240) :
    (of129to240 seed len).Covers k := by
  have h16 : (16 : UInt64).toNat = 16 := rfl
  have h32 : (32 : UInt64).toNat = 32 := rfl
  have h4 : (4 : UInt64).toNat = 4 := rfl
  have hrounds : (len / 32).toNat = len.toNat / 32 := UInt64.toNat_div _ _
  unfold of129to240
  by_cases hfront : k < 128
  · apply (Sometime.range (Nat.zero_le _) (by omega : k / 32 < 4) ?_ _).first
    intro i s hi
    apply Sometime.mul (by rw [h32]; omega)
    intro p hp
    apply Sometime.mul (by rw [h32]; omega)
    intro q hq
    rw [h32] at hp hq
    apply Sometime.add (by omega)
    intro q' hq'
    apply Sometime.mul (by rw [h32]; omega)
    intro o ho
    rw [h32] at ho
    have hpair : Pair len p q' o := ⟨by omega, by omega, by omega⟩
    exact mix32_covers seed hpair (by unfold Pair.Has; omega) s
  apply Sometime.later
  intro s
  by_cases hmore : k < len.toNat / 32 * 32
  · apply (Sometime.range (by omega) (by omega : k / 32 < (len / 32).toNat) ?_ _).first
    intro i s hi
    apply Sometime.mul (by rw [h32]; omega)
    intro p hp
    apply Sometime.mul (by rw [h32]; omega)
    intro q hq
    rw [h32] at hp hq
    apply Sometime.add (by omega)
    intro q' hq'
    apply Sometime.sub (by omega)
    intro j hj
    apply Sometime.mul (by rw [h32]; omega)
    intro o ho
    rw [h32] at ho
    have ho' := toNat_add_three o (by omega)
    have hpair : Pair len p q' (3 + o) := ⟨by omega, by omega, by omega⟩
    exact mix32_covers seed hpair (by unfold Pair.Has; omega) s
  apply Sometime.later
  intro s
  apply Sometime.sub (by omega)
  intro p hp
  apply Sometime.sub (by omega)
  intro q hq
  have hpair : Pair len p q 103 := ⟨by omega, by omega, by decide⟩
  exact (mix32_covers _ hpair (by unfold Pair.Has; omega) s).first

/-! ## Any length -/

theorem long_staysInside (secret : Secret) (h : 240 < len.toNat) :
    (long secret len).StaysInside len := by
  apply (longLanes_staysInside secret h).andThen
  intro acc _
  apply (mergeLow_staysInside secret acc).andThen
  intro low _
  exact (mergeHigh_staysInside secret acc).andThen fun _ _ => trivial

theorem long_covers (secret : Secret) (hk : k < len.toNat) (h : 240 < len.toNat) :
    (long secret len).Covers k :=
  (longLanes_covers secret hk h).first

theorem body_staysInside : (body seed len).StaysInside len := by
  have h16 : (16 : UInt64).toNat = 16 := rfl
  have h128 : (128 : UInt64).toNat = 128 := rfl
  have h240 : (240 : UInt64).toNat = 240 := rfl
  unfold body
  simp only [StaysInside, always_ite, UInt64.lt_iff_toNat_lt]
  refine ⟨fun h => long_staysInside _ (by omega), fun hless => ⟨fun h => ?_, fun hless => ⟨?_, ?_⟩⟩⟩
  · exact of129to240_staysInside seed (by omega) (by omega)
  · exact fun h => of17to128_staysInside seed (by omega)
  · exact fun hless => upTo16_staysInside seed (by omega)

theorem body_covers (hk : k < len.toNat) : (body seed len).Covers k := by
  have h16 : (16 : UInt64).toNat = 16 := rfl
  have h128 : (128 : UInt64).toNat = 128 := rfl
  have h240 : (240 : UInt64).toNat = 240 := rfl
  unfold body
  simp only [Covers, sometime_ite, UInt64.lt_iff_toNat_lt]
  refine ⟨fun h => long_covers _ hk (by omega), fun hless => ⟨fun h => ?_, fun hless => ⟨?_, ?_⟩⟩⟩
  · exact of129to240_covers seed hk (by omega) (by omega)
  · exact fun h => of17to128_covers seed hk (by omega) (by omega)
  · exact fun hless => upTo16_covers seed hk (by omega)

/-! ## Reads of one byte -/

theorem upTo16_backed (h : len.toNat = 0 ∨ 4 ≤ len.toNat) : (upTo16 seed len).ReadsBacked := by
  simp [upTo16, of9to16, of4to8, of1to3, void, key, halfKey, UInt64.lt_iff_toNat_lt,
    UInt64.le_iff_toNat_le]
  omega

theorem mix32_backed (p q o : UInt64) (s : Sums) : (mix32 seed p q o s).ReadsBacked := by
  simp [mix32, mix16, key]

theorem of17to128_backed : (of17to128 seed len).ReadsBacked :=
  (fromBothEnds_backed (mix32_backed seed) _).andThen fun _ _ => trivial

theorem of129to240_backed : (of129to240 seed len).ReadsBacked := by
  have hmix := mix32_backed seed
  unfold of129to240
  refine (Always.range_of_forall Step.backed_demand ?_ _ _ _).andThen fun s _ => ?_
  · exact fun i s => ⟨trivial, trivial, trivial, trivial, hmix _ _ _ s⟩
  refine (Always.range_of_forall Step.backed_demand ?_ _ _ _).andThen fun s _ => ?_
  · exact fun i s => ⟨trivial, trivial, trivial, trivial, trivial, hmix _ _ _ s⟩
  exact ⟨trivial, trivial, (mix32_backed _ _ _ _ s).andThen fun _ _ => trivial⟩

theorem long_backed (secret : Secret) : (long secret len).ReadsBacked := by
  apply (longLanes_backed secret).andThen
  intro acc _
  apply (mergeLanes_backed secret _ _ acc).andThen
  intro low _
  exact (mergeLanes_backed secret _ _ acc).andThen fun _ _ => trivial

theorem body_backed (h : len.toNat = 0 ∨ 4 ≤ len.toNat) : (body seed len).ReadsBacked := by
  simp only [body, ReadsBacked, always_ite]
  exact ⟨fun _ => long_backed _, fun _ => ⟨fun _ => of129to240_backed seed,
    fun _ => ⟨fun _ => of17to128_backed seed, fun _ => upTo16_backed seed h⟩⟩⟩

end Fingerprint.XXH3.Wide
