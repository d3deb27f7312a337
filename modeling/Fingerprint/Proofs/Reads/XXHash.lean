import Fingerprint.XXHash
import Fingerprint.Proofs.Reads.Steps

/-!
# What the 64-bit xxHash reads

The stripes leave at most 31 bytes, the words at most seven of these, and half a word at most three,
which are read one by one.
-/

namespace Fingerprint.XXHash
open Plan
set_option autoImplicit false

variable {len p : UInt64} {k : Nat}

theorem take_staysInside (h : p.toNat + 32 ≤ len.toNat) (s : Lanes) :
    (Lanes.take p s).StaysInside len := by
  have hlen := len.toNat_lt
  simp [Lanes.take]
  omega

theorem take_covers (hp : p.toNat ≤ k) (hk : k < p.toNat + 32) (h : p.toNat + 32 ≤ len.toNat)
    (s : Lanes) : (Lanes.take p s).Covers k := by
  have hlen := len.toNat_lt
  simp [Lanes.take]
  omega

/-! ## Stripes -/

theorem stripes_always (seed : UInt64) :
    (stripes seed len).Always (Step.Inside len) fun r => r.1.toNat ≤ len.toNat := by
  rw [stripes, always_ite]
  refine ⟨fun _ => ?_, fun _ => Nat.zero_le _⟩
  apply (Always.strides Step.inside_true (Nat.zero_le _) ?_ _).andThen
  · rintro ⟨p, lanes⟩ ⟨hp, -⟩
    exact hp
  · exact fun q s hq => take_staysInside hq s

theorem stripes_sometime (seed : UInt64) :
    (stripes seed len).Sometime (Step.Touches k) fun r => r.1.toNat ≤ k := by
  rw [stripes, sometime_ite]
  refine ⟨fun _ => ?_, fun _ => Nat.zero_le _⟩
  apply (Sometime.strides (k := k) (Nat.zero_le _) (Nat.zero_le _) ?_ _).orElse
  · rintro ⟨p, lanes⟩ hp
    exact hp
  · exact fun q s hq hk h => take_covers hq hk h s

/-! ## The rest -/

theorem rest_staysInside (hp : p.toNat ≤ len.toNat) (h : UInt64) :
    (rest len p h).StaysInside len := by
  unfold rest
  apply (Always.strides Step.inside_true hp ?_ _).andThen
  · rintro ⟨p, h⟩ ⟨hp, -⟩
    apply (Always.piece Step.inside_true hp h ?_).andThen
    · rintro ⟨p, h⟩ -
      apply Always.range Step.inside_true
      intro i h _ hi
      simpa [Nat.succ_le_iff] using hi
    · intro hmore
      simpa using hmore
  · intro q h hq
    simpa [Stride.word] using hq

theorem rest_covers (hp : p.toNat ≤ k) (hk : k < len.toNat) (h : UInt64) :
    (rest len p h).Covers k := by
  have hlen := len.toNat_lt
  have htrue : (Step.demand true).Inside len := rfl
  unfold rest
  apply ((Sometime.strides (k := k) (by omega) hp ?_ _).both
    (Always.strides htrue (by omega) ?_ _)).orElse
  · rintro ⟨q, h⟩ ⟨hqk, hq, -⟩
    apply (Sometime.piece hq hqk h ?_).orElse
    · rintro ⟨r, h⟩ hrk
      dsimp only at hrk
      apply Sometime.range hrk hk
      intro i h hi
      simp [hi]
    · intro hnext _
      simpa using ⟨hqk, hnext⟩
  · intro q h hqk hnext _
    simpa using ⟨hqk, hnext⟩
  · intro q h hq
    simpa [Stride.word] using hq

/-! ## The body -/

theorem body_staysInside (seed : UInt64) : (body seed len).StaysInside len := by
  apply (stripes_always seed).andThen
  rintro ⟨p, h⟩ hp
  exact (rest_staysInside hp _).andThen fun _ _ => trivial

theorem body_covers (seed : UInt64) (hk : k < len.toNat) : (body seed len).Covers k := by
  apply (stripes_sometime seed).orElse
  rintro ⟨p, h⟩ hp
  exact (rest_covers hp hk _).first

/-! ## Narrow reads -/

theorem stripes_backed (seed : UInt64) :
    (stripes seed len).Always Step.Backed fun r =>
      r.1.toNat ≤ len.toNat ∧ (r.1.toNat = 0 ∨ 4 ≤ r.1.toNat) := by
  rw [stripes, always_ite]
  refine ⟨fun _ => ?_, fun _ => ⟨Nat.zero_le _, .inl rfl⟩⟩
  exact (Plan.stripes_backed (by simp [Lanes.take]) _).andThen fun _ hp => hp

/-- The words and the half word before the bytes are at least four bytes, if there are that many. -/
theorem rest_backed {p : UInt64} (hp : p.toNat ≤ len.toNat) (hfar : p.toNat = 0 ∨ 4 ≤ p.toNat)
    (h : len.toNat = 0 ∨ 4 ≤ len.toNat) (s : UInt64) : (rest len p s).ReadsBacked := by
  have h8 : Stride.word.step.toNat = 8 := rfl
  have h4 : (4 : UInt64).toNat = 4 := rfl
  unfold rest
  apply (Always.strides trivial hp (fun q s _ => by simp) s).andThen
  rintro ⟨q, s⟩ ⟨hq, -, hword⟩
  dsimp only at hq hword
  apply (Always.piece trivial hq s (fun _ => by simp)).andThen
  rintro ⟨r, s⟩ ⟨hqr, -, -, hhalf⟩
  dsimp only at hqr hhalf
  apply Always.range trivial
  intro i s hi hilen
  simp
  omega

theorem body_backed (seed : UInt64) (h : len.toNat = 0 ∨ 4 ≤ len.toNat) :
    (body seed len).ReadsBacked := by
  apply (stripes_backed seed).andThen
  rintro ⟨p, s⟩ ⟨hp, hfar⟩
  exact (rest_backed hp hfar h _).andThen fun _ _ => trivial

end Fingerprint.XXHash
