import Fingerprint.XXH3.Long
import Fingerprint.Proofs.Reads.XXH3.Mix

/-!
# What XXH3 reads above 240 bytes

The blocks, the stripes after them and the last 64 bytes reach over the whole range. The blocks and
stripes leave out the last byte, so that there is something left for the last stripe.
-/

namespace Fingerprint.XXH3
open Plan
set_option autoImplicit false

variable {len p o n b : UInt64} {k : Nat} (secret : Secret)

theorem toNat_laneOffset (i : Fin 8) : (laneOffset i).toNat = 8 * i.val := by
  rw [laneOffset, UInt64.toNat_ofNat']
  omega

theorem toNat_stripeBytes : stripeBytes.toNat = 64 := rfl

theorem toNat_blockStripes : blockStripes.toNat = 16 := rfl

theorem toNat_blockBytes : blockBytes.toNat = 1024 := rfl

/-! ## Stripes -/

theorem accumulate_staysInside (hp : p.toNat + 64 ≤ len.toNat) (ho : o.toNat + 64 ≤ 192)
    (acc : Lanes) : (accumulate secret p o acc).StaysInside len := by
  have hlen := len.toNat_lt
  apply Always.foldlM
  intro acc i _
  have hi := toNat_laneOffset i
  simp [hi]
  omega

theorem accumulate_covers (hp : p.toNat ≤ k) (hk : k < p.toNat + 64) (h : p.toNat + 64 < 2 ^ 64)
    (acc : Lanes) : (accumulate secret p o acc).Covers k := by
  have hlane : (k - p.toNat) / 8 < 8 := by omega
  apply Sometime.foldlM (List.mem_finRange ⟨(k - p.toNat) / 8, hlane⟩)
  intro acc
  simp [toNat_laneOffset]
  omega

theorem scramble_staysInside (ho : o.toNat + 64 ≤ 192) (acc : Lanes) :
    (scramble secret o acc).StaysInside len := by
  apply Always.foldlM
  intro acc i _
  have hi := toNat_laneOffset i
  simp [hi]
  omega

theorem stripes_staysInside (hp : p.toNat + n.toNat * 64 ≤ len.toNat) (hn : n.toNat ≤ 16)
    (acc : Lanes) : (stripes secret p n acc).StaysInside len := by
  have hlen := len.toNat_lt
  have h8 : (8 : UInt64).toNat = 8 := rfl
  apply Always.range Step.inside_true
  intro i acc _ hi
  apply Always.mul Step.inside_true (by rw [toNat_stripeBytes]; omega)
  intro q hq
  rw [toNat_stripeBytes] at hq
  apply Always.add Step.inside_true (by omega)
  intro r hr
  apply Always.mul Step.inside_true (by rw [h8]; omega)
  intro o ho
  rw [h8] at ho
  exact accumulate_staysInside secret (by omega) (by omega) acc

theorem stripes_covers (hp : p.toNat ≤ k) (hk : k < p.toNat + n.toNat * 64)
    (h : p.toNat + n.toNat * 64 < 2 ^ 64) (acc : Lanes) : (stripes secret p n acc).Covers k := by
  have h8 : (8 : UInt64).toNat = 8 := rfl
  apply Sometime.range (Nat.zero_le _) (by omega : (k - p.toNat) / 64 < n.toNat)
  intro i acc hi
  apply Sometime.mul (by rw [hi, toNat_stripeBytes]; omega)
  intro q hq
  rw [hi, toNat_stripeBytes] at hq
  apply Sometime.add (by omega)
  intro r hr
  apply Sometime.mul (by rw [hi, h8]; omega)
  intro o _
  exact accumulate_covers secret (by omega) (by omega) (by omega) acc

/-! ## Blocks -/

theorem block_staysInside (h : b.toNat * 1024 + 1024 ≤ len.toNat) (acc : Lanes) :
    (block secret b acc).StaysInside len := by
  have hlen := len.toNat_lt
  apply Always.mul Step.inside_true (by rw [toNat_blockBytes]; omega)
  intro p hp
  rw [toNat_blockBytes] at hp
  have hend : p.toNat + blockStripes.toNat * 64 ≤ len.toNat := by
    rw [toNat_blockStripes]
    omega
  apply (stripes_staysInside secret hend (by decide) acc).andThen
  exact fun acc _ => scramble_staysInside secret (by decide) acc

theorem block_covers (h : b.toNat * 1024 + 1024 < 2 ^ 64) (hb : b.toNat = k / 1024)
    (acc : Lanes) : (block secret b acc).Covers k := by
  have hstripes := toNat_blockStripes
  have hfits : b.toNat * 1024 < 2 ^ 64 := Nat.lt_of_le_of_lt (Nat.le_add_right _ _) h
  apply Sometime.mul (by rw [toNat_blockBytes]; exact hfits)
  intro p hp
  rw [toNat_blockBytes] at hp
  exact (stripes_covers secret (by omega) (by omega) (by omega) acc).first

/-! ## The lanes -/

theorem longLanes_staysInside (h : 240 < len.toNat) : (longLanes secret len).StaysInside len := by
  have hlen := len.toNat_lt
  have h1 : (1 : UInt64).toNat = 1 := rfl
  unfold longLanes
  apply Always.sub Step.inside_true (by omega)
  intro body hbody
  have hblocks : (body / blockBytes).toNat = body.toNat / 1024 := UInt64.toNat_div _ _
  apply Always.andThen (Always.range Step.inside_true ?_ _)
  · intro acc _
    apply Always.sub Step.inside_true (by omega)
    intro body' hbody'
    apply Always.mul Step.inside_true (by rw [toNat_blockBytes]; omega)
    intro done hdone
    rw [toNat_blockBytes] at hdone
    apply Always.sub Step.inside_true (by omega)
    intro left hleft
    have hmore : (left / stripeBytes).toNat = left.toNat / 64 := UInt64.toNat_div _ _
    apply Always.mul Step.inside_true (by rw [toNat_blockBytes]; omega)
    intro p hp
    rw [toNat_blockBytes] at hp
    apply (stripes_staysInside secret (by omega) (by omega) acc).andThen
    intro acc _
    apply Always.sub Step.inside_true (by rw [toNat_stripeBytes]; omega)
    intro q hq
    rw [toNat_stripeBytes] at hq
    exact accumulate_staysInside secret (by omega) (by decide) acc
  · intro i acc _ hi
    exact block_staysInside secret (by omega) acc

theorem longLanes_covers (hk : k < len.toNat) (h : 240 < len.toNat) :
    (longLanes secret len).Covers k := by
  have hlen := len.toNat_lt
  have h1 : (1 : UInt64).toNat = 1 := rfl
  unfold longLanes
  apply Sometime.sub (by omega)
  intro body hbody
  have hblocks : (body / blockBytes).toNat = body.toNat / 1024 := UInt64.toNat_div _ _
  by_cases hin : k < body.toNat / 1024 * 1024
  · have hloop : (range 0 (body / blockBytes) (block secret) Lanes.start).Covers k := by
      apply Sometime.range (Nat.zero_le _) (by omega : k / 1024 < (body / blockBytes).toNat)
      intro i acc hi
      exact block_covers secret (by omega) hi acc
    exact hloop.first
  apply Sometime.later
  intro acc
  apply Sometime.sub (by omega)
  intro body' hbody'
  apply Sometime.mul (by rw [toNat_blockBytes]; omega)
  intro done hdone
  rw [toNat_blockBytes] at hdone
  apply Sometime.sub (by omega)
  intro left hleft
  have hmore : (left / stripeBytes).toNat = left.toNat / 64 := UInt64.toNat_div _ _
  apply Sometime.mul (by rw [toNat_blockBytes]; omega)
  intro p hp
  rw [toNat_blockBytes] at hp
  by_cases hin' : k < p.toNat + left.toNat / 64 * 64
  · exact (stripes_covers secret (by omega) (by omega) (by omega) acc).first
  apply Sometime.later
  intro acc
  apply Sometime.sub (by rw [toNat_stripeBytes]; omega)
  intro q hq
  rw [toNat_stripeBytes] at hq
  exact accumulate_covers secret (by omega) (by omega) (by omega) acc

/-! ## Merging -/

theorem mergeLanes_staysInside (ho : o.toNat + 64 ≤ 192) (first : UInt64) (acc : Lanes) :
    (mergeLanes secret o first acc).StaysInside len := by
  simp [mergeLanes]
  omega

theorem mergeLow_staysInside (acc : Lanes) : (mergeLow secret len acc).StaysInside len :=
  mergeLanes_staysInside secret (by decide) _ acc

theorem mergeHigh_staysInside (acc : Lanes) : (mergeHigh secret len acc).StaysInside len :=
  mergeLanes_staysInside secret (by decide) _ acc

/-! ## Narrow reads -/

theorem accumulate_backed (p o : UInt64) (acc : Lanes) :
    (accumulate secret p o acc).ReadsBacked := by
  apply Always.foldlM
  intro acc i _
  simp [key]

theorem stripes_backed (p n : UInt64) (acc : Lanes) : (stripes secret p n acc).ReadsBacked := by
  apply Always.range_of_forall Step.backed_demand
  intro i acc
  exact ⟨trivial, trivial, trivial, accumulate_backed secret _ _ acc⟩

theorem longLanes_backed : (longLanes secret len).ReadsBacked := by
  have hblock : ∀ b acc, (block secret b acc).ReadsBacked := by
    intro b acc
    refine ⟨trivial, (stripes_backed secret _ _ acc).andThen fun acc _ => ?_⟩
    apply Always.foldlM
    intro acc i _
    simp [key]
  refine ⟨trivial, ?_⟩
  apply (Always.range_of_forall Step.backed_demand hblock _ _ _).andThen
  intro acc _
  refine ⟨trivial, trivial, trivial, trivial, (stripes_backed secret _ _ acc).andThen ?_⟩
  exact fun acc _ => ⟨trivial, accumulate_backed secret _ _ acc⟩

theorem mergeLanes_backed (o first : UInt64) (acc : Lanes) :
    (mergeLanes secret o first acc).ReadsBacked := by
  simp [mergeLanes, key]

end Fingerprint.XXH3
