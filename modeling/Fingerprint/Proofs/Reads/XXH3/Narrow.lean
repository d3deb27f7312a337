import Fingerprint.XXH3.Narrow
import Fingerprint.Proofs.Reads.XXH3.Long

/-!
# What the 64-bit XXH3 reads
-/

namespace Fingerprint.XXH3.Narrow
open Plan
set_option autoImplicit false

variable {len p q o : UInt64} {k : Nat} (seed : UInt64)

/-! ## Up to 16 bytes -/

theorem upTo16_staysInside (h : len.toNat ≤ 16) : (upTo16 seed len).StaysInside len := by
  simp [upTo16, of9to16, of4to8, of1to3, void, UInt64.lt_iff_toNat_lt, UInt64.le_iff_toNat_le,
    UInt64.toNat_sub]
  omega

theorem upTo16_covers (hk : k < len.toNat) (h : len.toNat ≤ 16) : (upTo16 seed len).Covers k := by
  simp [upTo16, of9to16, of4to8, of1to3, void, UInt64.lt_iff_toNat_lt, UInt64.le_iff_toNat_le,
    UInt64.toNat_sub]
  omega

/-! ## 17 to 240 bytes -/

theorem addMix_staysInside (secret : Secret) (hp : p.toNat + 16 ≤ len.toNat)
    (ho : o.toNat + 16 ≤ 192) (sum : UInt64) : (addMix secret seed p o sum).StaysInside len :=
  (mix16_staysInside secret hp ho seed).andThen fun _ _ => trivial

theorem addMix_covers (secret : Secret) (hp : p.toNat ≤ k) (hk : k < p.toNat + 16)
    (h : p.toNat + 16 < 2 ^ 64) (sum : UInt64) : (addMix secret seed p o sum).Covers k :=
  (mix16_covers secret hp hk h seed).first

theorem addBoth_staysInside (secret : Secret) (h : Pair len p q o) (sum : UInt64) :
    (addBoth secret seed p q o sum).StaysInside len := by
  have ho := h.keys
  have h16 : (16 : UInt64).toNat = 16 := rfl
  apply (addMix_staysInside seed secret h.front (by omega) sum).andThen
  intro sum _
  apply Always.add Step.inside_true (by omega)
  intro o' ho'
  exact addMix_staysInside seed secret h.back (by omega) sum

theorem addBoth_covers (secret : Secret) (h : Pair len p q o) (hk : Pair.Has k p q)
    (sum : UInt64) : (addBoth secret seed p q o sum).Covers k := by
  have hlen := len.toNat_lt
  have h16 : (16 : UInt64).toNat = 16 := rfl
  have hp := h.front
  have hq := h.back
  have ho := h.keys
  rcases hk with hk | hk
  · exact (addMix_covers seed secret hk.1 hk.2 (by omega) sum).first
  · apply Sometime.later
    intro sum
    apply Sometime.add (by omega)
    intro o' _
    exact addMix_covers seed secret hk.1 hk.2 (by omega) sum

theorem of17to128_staysInside (secret : Secret) (hlong : 16 < len.toNat) :
    (of17to128 secret seed len).StaysInside len := by
  have hwalk := fromBothEnds_staysInside hlong
    (fun p q o sum h => addBoth_staysInside seed secret h sum) (len * XXHash.prime1)
  exact hwalk.andThen fun _ _ => trivial

theorem of17to128_covers (secret : Secret) (hk : k < len.toNat) (hlong : 16 < len.toNat)
    (h : len.toNat ≤ 128) : (of17to128 secret seed len).Covers k := by
  have hwalk := fromBothEnds_covers hk hlong h
    (fun p q o sum h hk => addBoth_covers seed secret h hk sum) (len * XXHash.prime1)
  exact hwalk.first

theorem of129to240_staysInside (hlong : 128 < len.toNat) (h : len.toNat ≤ 240) :
    (of129to240 seed len).StaysInside len := by
  have h16 : (16 : UInt64).toNat = 16 := rfl
  have h8 : (8 : UInt64).toNat = 8 := rfl
  have h3 : (3 : UInt64).toNat = 3 := rfl
  have hrounds : (len / 16).toNat = len.toNat / 16 := UInt64.toNat_div _ _
  unfold of129to240
  apply Always.andThen (Always.range Step.inside_true ?_ _)
  · intro sum _
    apply Always.andThen (Always.range Step.inside_true ?_ _)
    · intro sum _
      apply Always.sub Step.inside_true (by omega)
      intro p hp
      apply (addMix_staysInside seed .default (by omega) (by decide) sum).andThen
      exact fun _ _ => trivial
    · intro i sum hlow hi
      apply Always.mul Step.inside_true (by rw [h16]; omega)
      intro p hp
      apply Always.sub Step.inside_true (by omega)
      intro j hj
      apply Always.mul Step.inside_true (by rw [h16]; omega)
      intro o ho
      rw [h16] at hp ho
      apply Always.add Step.inside_true (by omega)
      intro o' ho'
      exact addMix_staysInside seed .default (by omega) (by omega) sum
  · intro i sum _ hi
    apply Always.mul Step.inside_true (by rw [h16]; omega)
    intro p hp
    apply Always.mul Step.inside_true (by rw [h16]; omega)
    intro o ho
    rw [h16] at hp ho
    exact addMix_staysInside seed .default (by omega) (by omega) sum

theorem of129to240_covers (hk : k < len.toNat) (hlong : 128 < len.toNat) (h : len.toNat ≤ 240) :
    (of129to240 seed len).Covers k := by
  have h16 : (16 : UInt64).toNat = 16 := rfl
  have h8 : (8 : UInt64).toNat = 8 := rfl
  have h3 : (3 : UInt64).toNat = 3 := rfl
  have hrounds : (len / 16).toNat = len.toNat / 16 := UInt64.toNat_div _ _
  unfold of129to240
  by_cases hfront : k < 128
  · apply (Sometime.range (Nat.zero_le _) (by omega : k / 16 < 8) ?_ _).first
    intro i sum hi
    apply Sometime.mul (by rw [h16]; omega)
    intro p hp
    apply Sometime.mul (by rw [h16]; omega)
    intro o _
    rw [h16] at hp
    exact addMix_covers seed .default (by omega) (by omega) (by omega) sum
  apply Sometime.later
  intro sum
  by_cases hmore : k < len.toNat / 16 * 16
  · apply (Sometime.range (by omega) (by omega : k / 16 < (len / 16).toNat) ?_ _).first
    intro i sum hi
    apply Sometime.mul (by rw [h16]; omega)
    intro p hp
    apply Sometime.sub (by omega)
    intro j hj
    apply Sometime.mul (by rw [h16]; omega)
    intro o ho
    rw [h16] at hp ho
    apply Sometime.add (by omega)
    intro o' _
    exact addMix_covers seed .default (by omega) (by omega) (by omega) sum
  apply Sometime.later
  intro sum
  apply Sometime.sub (by omega)
  intro p hp
  exact (addMix_covers seed .default (by omega) (by omega) (by omega) sum).first

/-! ## Any length -/

theorem long_staysInside (secret : Secret) (h : 240 < len.toNat) :
    (long secret len).StaysInside len := by
  apply (longLanes_staysInside secret h).andThen
  exact fun acc _ => mergeLow_staysInside secret acc

theorem long_covers (secret : Secret) (hk : k < len.toNat) (h : 240 < len.toNat) :
    (long secret len).Covers k :=
  (longLanes_covers secret hk h).first

theorem body_staysInside : (body seed len).StaysInside len := by
  have h16 : (16 : UInt64).toNat = 16 := rfl
  have h128 : (128 : UInt64).toNat = 128 := rfl
  have h240 : (240 : UInt64).toNat = 240 := rfl
  unfold body
  simp only [StaysInside, always_ite, UInt64.le_iff_toNat_le]
  refine ⟨fun h => upTo16_staysInside seed h, fun hmore => ⟨fun _ => ?_, fun hmore => ⟨?_, ?_⟩⟩⟩
  · exact of17to128_staysInside seed .default (by omega)
  · exact fun h => of129to240_staysInside seed (by omega) h
  · exact fun hmore => long_staysInside _ (by omega)

theorem body_covers (hk : k < len.toNat) : (body seed len).Covers k := by
  have h16 : (16 : UInt64).toNat = 16 := rfl
  have h128 : (128 : UInt64).toNat = 128 := rfl
  have h240 : (240 : UInt64).toNat = 240 := rfl
  unfold body
  simp only [Covers, sometime_ite, UInt64.le_iff_toNat_le]
  refine ⟨fun h => upTo16_covers seed hk h, fun hmore => ⟨fun h => ?_, fun hmore => ⟨?_, ?_⟩⟩⟩
  · exact of17to128_covers seed .default hk (by omega) h
  · exact fun h => of129to240_covers seed hk (by omega) h
  · exact fun hmore => long_covers _ hk (by omega)

/-! ## Reads of one byte -/

theorem upTo16_backed (h : len.toNat = 0 ∨ 4 ≤ len.toNat) : (upTo16 seed len).ReadsBacked := by
  simp [upTo16, of9to16, of4to8, of1to3, void, key, halfKey, UInt64.lt_iff_toNat_lt,
    UInt64.le_iff_toNat_le]
  omega

theorem addMix_backed (secret : Secret) (p o sum : UInt64) :
    (addMix secret seed p o sum).ReadsBacked := by
  simp [addMix, mix16, key]

theorem of17to128_backed (secret : Secret) :
    (of17to128 secret seed len).ReadsBacked := by
  have hboth : ∀ p q o sum, (addBoth secret seed p q o sum).ReadsBacked := by
    intro p q o sum
    refine (addMix_backed seed secret p o sum).andThen fun sum _ => ⟨trivial, ?_⟩
    exact addMix_backed seed secret q _ sum
  exact (fromBothEnds_backed hboth _).andThen fun _ _ => trivial

theorem of129to240_backed : (of129to240 seed len).ReadsBacked := by
  have hmix := addMix_backed seed .default
  unfold of129to240
  refine (Always.range_of_forall Step.backed_demand ?_ _ _ _).andThen fun sum _ => ?_
  · exact fun i sum => ⟨trivial, trivial, hmix _ _ sum⟩
  refine (Always.range_of_forall Step.backed_demand ?_ _ _ _).andThen fun sum _ => ?_
  · exact fun i sum => ⟨trivial, trivial, trivial, trivial, hmix _ _ sum⟩
  exact ⟨trivial, (hmix _ _ sum).andThen fun _ _ => trivial⟩

theorem body_backed (h : len.toNat = 0 ∨ 4 ≤ len.toNat) : (body seed len).ReadsBacked := by
  have hlong : (long (.derive seed) len).ReadsBacked :=
    (longLanes_backed _).andThen fun acc _ => mergeLanes_backed _ _ _ acc
  simp only [body, ReadsBacked, always_ite]
  exact ⟨fun _ => upTo16_backed seed h, fun _ => ⟨fun _ => of17to128_backed seed _,
    fun _ => ⟨fun _ => of129to240_backed seed, fun _ => hlong⟩⟩⟩

end Fingerprint.XXH3.Narrow
