import Fingerprint.XXH3.Mix
import Fingerprint.Proofs.Reads.Steps

/-!
# What the mixing steps of XXH3 read

A step takes 16 bytes at two places. The steps from both ends meet in the middle of a range of at
most 128 bytes.
-/

namespace Fingerprint.XXH3
open Plan
set_option autoImplicit false

variable {len p o : UInt64} {k : Nat}

section
variable (secret : Secret)

@[simp] theorem always_key {post : UInt64 → Prop} :
    (key secret o).Always (Step.Inside len) post ↔ o.toNat + 8 ≤ 192 ∧ ∀ x, post x := by
  simp [key]

@[simp] theorem always_halfKey {post : UInt32 → Prop} :
    (halfKey secret o).Always (Step.Inside len) post ↔
      o.toNat + 4 ≤ 192 ∧ ∀ x : UInt64, post x.toUInt32 := by
  simp [halfKey]

@[simp] theorem sometime_key {post : UInt64 → Prop} :
    (key secret o).Sometime (Step.Touches k) post ↔ ∀ x, post x := by
  simp [key]

@[simp] theorem sometime_halfKey {post : UInt32 → Prop} :
    (halfKey secret o).Sometime (Step.Touches k) post ↔ ∀ x : UInt64, post x.toUInt32 := by
  simp [halfKey]

theorem mix16_staysInside (hp : p.toNat + 16 ≤ len.toNat) (ho : o.toNat + 16 ≤ 192)
    (seed : UInt64) : (mix16 secret seed p o).StaysInside len := by
  have hlen := len.toNat_lt
  simp [mix16]
  omega

theorem mix16_covers (hp : p.toNat ≤ k) (hk : k < p.toNat + 16) (h : p.toNat + 16 < 2 ^ 64)
    (seed : UInt64) : (mix16 secret seed p o).Covers k := by
  simp [mix16]
  omega

end

/-! ## From both ends -/

/-- Two pieces of 16 bytes in the range, and as many bytes in the secret. -/
structure Pair (len p q o : UInt64) : Prop where
  front : p.toNat + 16 ≤ len.toNat
  back : q.toNat + 16 ≤ len.toNat
  keys : o.toNat + 32 ≤ 192

/-- One of the two pieces has byte `k`. -/
def Pair.Has (k : Nat) (p q : UInt64) : Prop :=
  p.toNat ≤ k ∧ k < p.toNat + 16 ∨ q.toNat ≤ k ∧ k < q.toNat + 16

/-- Where a pair stands that is looked at in ranges longer than `least`. -/
structure Inwards (least front back : UInt64) : Prop where
  front_le : front.toNat + 16 ≤ least.toNat
  le_back : 16 ≤ back.toNat
  back_le : back.toNat ≤ least.toNat
  keys : least.toNat + 32 ≤ 192

section
variable {σ : Type} {step : UInt64 → UInt64 → UInt64 → σ → Plan σ} {least front back : UInt64}

theorem inwards48 : Inwards 96 48 64 := ⟨by decide, by decide, by decide, by decide⟩

theorem inwards32 : Inwards 64 32 48 := ⟨by decide, by decide, by decide, by decide⟩

theorem inwards16 : Inwards 32 16 32 := ⟨by decide, by decide, by decide, by decide⟩

theorem Inwards.pair (h : Inwards least front back) (hlong : least.toNat < len.toNat)
    (hq : p.toNat = len.toNat - back.toNat) : Pair len front p least := by
  have hfront := h.front_le
  have hback := h.le_back
  have hle := h.back_le
  exact ⟨by omega, by omega, h.keys⟩

theorem lastPair (hlong : 16 < len.toNat) (hq : p.toNat = len.toNat - 16) : Pair len 0 p 0 :=
  ⟨by rw [UInt64.toNat_zero]; omega, by omega, by decide⟩

theorem stepAt_staysInside (h : Inwards least front back)
    (hstep : ∀ p q o s, Pair len p q o → (step p q o s).StaysInside len) (s : σ) :
    (stepAt len step least front back s).StaysInside len := by
  have hle := h.back_le
  rw [stepAt, StaysInside, always_ite, UInt64.lt_iff_toNat_lt]
  refine ⟨fun hlong => ?_, fun _ => trivial⟩
  apply Always.sub Step.inside_true (by omega)
  intro q hq
  exact hstep front q least s (h.pair hlong hq)

theorem fromBothEnds_staysInside (hlong : 16 < len.toNat)
    (hstep : ∀ p q o s, Pair len p q o → (step p q o s).StaysInside len) (s : σ) :
    (fromBothEnds len step s).StaysInside len := by
  have h16 : (16 : UInt64).toNat = 16 := rfl
  unfold fromBothEnds
  apply (stepAt_staysInside inwards48 hstep s).andThen
  intro s _
  apply (stepAt_staysInside inwards32 hstep s).andThen
  intro s _
  apply (stepAt_staysInside inwards16 hstep s).andThen
  intro s _
  apply Always.sub Step.inside_true (by omega)
  intro q hq
  exact hstep 0 q 0 s (lastPair hlong hq)

theorem stepAt_covers (h : Inwards least front back) (hlong : least.toNat < len.toNat)
    (hk : front.toNat ≤ k ∧ k < front.toNat + 16 ∨
      len.toNat ≤ k + back.toNat ∧ k + back.toNat < len.toNat + 16)
    (hstep : ∀ p q o s, Pair len p q o → Pair.Has k p q → (step p q o s).Covers k) (s : σ) :
    (stepAt len step least front back s).Covers k := by
  have hle := h.back_le
  rw [stepAt, if_pos (UInt64.lt_iff_toNat_lt.2 hlong)]
  apply Sometime.sub (by omega)
  intro q hq
  have hhas : Pair.Has k front q := by
    unfold Pair.Has
    omega
  exact hstep front q least s (h.pair hlong hq) hhas

/-- Each pair of pieces reaches 16 bytes further in than the one after it. -/
theorem fromBothEnds_covers (hk : k < len.toNat) (hlong : 16 < len.toNat) (h : len.toNat ≤ 128)
    (hstep : ∀ p q o s, Pair len p q o → Pair.Has k p q → (step p q o s).Covers k) (s : σ) :
    (fromBothEnds len step s).Covers k := by
  have h16 : (16 : UInt64).toNat = 16 := rfl
  have h32 : (32 : UInt64).toNat = 32 := rfl
  have h48 : (48 : UInt64).toNat = 48 := rfl
  have h64 : (64 : UInt64).toNat = 64 := rfl
  have h96 : (96 : UInt64).toNat = 96 := rfl
  unfold fromBothEnds
  by_cases hin48 : 48 ≤ k ∧ k + 48 < len.toNat
  · exact (stepAt_covers inwards48 (by omega) (by omega) hstep s).first
  apply Sometime.later
  intro s
  by_cases hin32 : 32 ≤ k ∧ k + 32 < len.toNat
  · exact (stepAt_covers inwards32 (by omega) (by omega) hstep s).first
  apply Sometime.later
  intro s
  by_cases hin16 : 16 ≤ k ∧ k + 16 < len.toNat
  · exact (stepAt_covers inwards16 (by omega) (by omega) hstep s).first
  apply Sometime.later
  intro s
  apply Sometime.sub (by omega)
  intro q hq
  have hhas : Pair.Has k 0 q := by
    unfold Pair.Has
    rw [UInt64.toNat_zero]
    omega
  exact hstep 0 q 0 s (lastPair hlong hq) hhas

end

/-! ## Narrow reads -/

theorem fromBothEnds_backed {σ : Type} {step : UInt64 → UInt64 → UInt64 → σ → Plan σ}
    (h : ∀ p q o s, (step p q o s).ReadsBacked) (s : σ) :
    (fromBothEnds len step s).ReadsBacked := by
  have hstep : ∀ least front back s, (stepAt len step least front back s).ReadsBacked := by
    intro least front back s
    rw [stepAt, ReadsBacked, always_ite]
    exact ⟨fun _ => ⟨trivial, h _ _ _ s⟩, fun _ => trivial⟩
  unfold fromBothEnds
  apply (hstep _ _ _ s).andThen
  intro s _
  apply (hstep _ _ _ s).andThen
  intro s _
  apply (hstep _ _ _ s).andThen
  intro s _
  exact ⟨trivial, h _ _ _ s⟩

end Fingerprint.XXH3
