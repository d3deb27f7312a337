import Fingerprint.MetroHash
import Fingerprint.Proofs.Reads.Steps

/-!
# What MetroHash64 reads

The stripes leave at most 31 bytes. Each piece then halves what may be left, and the last one leaves
nothing.
-/

namespace Fingerprint.MetroHash
open Plan
set_option autoImplicit false

variable {len p : UInt64} {k : Nat}

theorem take_staysInside (h : p.toNat + 32 ≤ len.toNat) (s : Lanes) :
    (Lanes.take p s).StaysInside len := by
  have hlen := len.toNat_lt
  simp [Lanes.take]
  omega

theorem take_covers (hp : p.toNat ≤ k) (hk : k < p.toNat + 32) (h : p.toNat + 32 ≤ len.toNat)
    (s : Lanes) : (Lanes.take p s).Covers k := by
  have hlen := len.toNat_lt
  simp [Lanes.take]
  omega

theorem stripes_always (h : UInt64) :
    (stripes len h).Always (Step.Inside len) fun r =>
      r.1.toNat ≤ len.toNat ∧ len.toNat < r.1.toNat + 32 := by
  rw [stripes, always_ite]
  refine ⟨fun _ => ?_, fun hless => ?_⟩
  · apply (Always.strides Step.inside_true (Nat.zero_le _) ?_ _).andThen
    · rintro ⟨p, lanes⟩ ⟨hp, hless, -⟩
      exact ⟨hp, hless⟩
    · exact fun q s hq => take_staysInside hq s
  · rw [UInt64.le_iff_toNat_le] at hless
    simpa using hless

theorem stripes_sometime (h : UInt64) :
    (stripes len h).Sometime (Step.Touches k) fun r => r.1.toNat ≤ k := by
  rw [stripes, sometime_ite]
  refine ⟨fun _ => ?_, fun _ => Nat.zero_le _⟩
  apply (Sometime.strides (k := k) (Nat.zero_le _) (Nat.zero_le _) ?_ _).orElse
  · rintro ⟨p, lanes⟩ hp
    exact hp
  · exact fun q s hq hk h => take_covers hq hk h s

theorem body_staysInside (seed : UInt64) : (body seed len).StaysInside len := by
  have hlen := len.toNat_lt
  unfold body
  apply (stripes_always _).andThen
  rintro ⟨p, h⟩ ⟨hp, -⟩
  apply (Always.piece Step.inside_true hp h (by simp; omega)).andThen
  rintro ⟨p, h⟩ ⟨-, hp, -⟩
  apply (Always.piece Step.inside_true hp h (by simp)).andThen
  rintro ⟨p, h⟩ ⟨-, hp, -⟩
  apply (Always.piece Step.inside_true hp h (by simp)).andThen
  rintro ⟨p, h⟩ ⟨-, hp, -⟩
  apply (Always.piece Step.inside_true hp h (by simp)).andThen
  rintro ⟨p, h⟩ ⟨-, hp, -⟩
  apply (Always.piece Step.inside_true hp h (by simp)).andThen
  exact fun _ _ => trivial

/-- A piece takes the byte in, or leaves a rest that has it and is less than the piece. -/
theorem piece_covers {α : Type} {width h : UInt64} {take : UInt64 → UInt64 → Plan UInt64}
    {next : UInt64 × UInt64 → Plan α} (hp : p.toNat ≤ len.toNat) (hpk : p.toNat ≤ k)
    (hless : len.toNat < p.toNat + 2 * width.toNat)
    (hinside : p.toNat + width.toNat ≤ len.toNat → (take p h).StaysInside len)
    (hcovers : k < p.toNat + width.toNat → p.toNat + width.toNat ≤ len.toNat →
      (take p h).Covers k)
    (hnext : ∀ q h, q.toNat ≤ k → q.toNat ≤ len.toNat → len.toNat < q.toNat + width.toNat →
      (next (q, h)).Covers k) : (piece len width take p h >>= next).Covers k := by
  have hhit := Sometime.piece hp hpk h hcovers
  have hstop := Always.piece Step.inside_true hp h hinside
  apply (hhit.both hstop).orElse
  rintro ⟨q, h⟩ ⟨hqk, -, hq, hleft, -⟩
  exact hnext q h hqk hq (hleft hless)

theorem body_covers (seed : UInt64) (hk : k < len.toNat) : (body seed len).Covers k := by
  have hlen := len.toNat_lt
  unfold body
  apply ((stripes_sometime _).both (stripes_always _)).orElse
  rintro ⟨p, h⟩ ⟨hpk, hp, hless⟩
  dsimp only at hpk hp hless
  refine piece_covers hp hpk hless (by simp; omega) (by simp; omega) ?_
  intro p h hpk hp hless
  refine piece_covers hp hpk hless (by simp) (by simp; omega) ?_
  intro p h hpk hp hless
  refine piece_covers hp hpk hless (by simp) (by simp; omega) ?_
  intro p h hpk hp hless
  refine piece_covers hp hpk hless (by simp) (by simp; omega) ?_
  intro p h hpk hp hless
  refine piece_covers hp hpk hless (by simp) (by simp; omega) ?_
  intro p h hpk hp hless
  have hnone : len.toNat < p.toNat + 1 := hless
  omega

/-! ## Narrow reads -/

theorem stripes_backed (h : UInt64) :
    (stripes len h).Always Step.Backed fun r =>
      r.1.toNat ≤ len.toNat ∧ (r.1.toNat = 0 ∨ 4 ≤ r.1.toNat) := by
  rw [stripes, always_ite]
  refine ⟨fun _ => ?_, fun _ => ⟨Nat.zero_le _, .inl rfl⟩⟩
  exact (Plan.stripes_backed (by simp [Lanes.take]) _).andThen fun _ hp => hp

theorem body_backed (seed : UInt64) (h : len.toNat = 0 ∨ 4 ≤ len.toNat) :
    (body seed len).ReadsBacked := by
  have h16 : (16 : UInt64).toNat = 16 := rfl
  have h8 : (8 : UInt64).toNat = 8 := rfl
  have h4 : (4 : UInt64).toNat = 4 := rfl
  have h2 : (2 : UInt64).toNat = 2 := rfl
  have h1 : (1 : UInt64).toNat = 1 := rfl
  unfold body
  apply (stripes_backed _).andThen
  rintro ⟨p, s⟩ ⟨hp, hfar⟩
  dsimp only at hp hfar
  apply (Always.piece trivial hp s (fun _ => by simp)).andThen
  rintro ⟨q, s⟩ ⟨hpq, hq, -, hpair⟩
  dsimp only at hpq hq hpair
  apply (Always.piece trivial hq s (fun _ => by simp)).andThen
  rintro ⟨p, s⟩ ⟨hqp, hp, -, hword⟩
  dsimp only at hqp hp hword
  apply (Always.piece trivial hp s (fun _ => by simp)).andThen
  rintro ⟨q, s⟩ ⟨hpq, hq, -, hhalf⟩
  dsimp only at hpq hq hhalf
  have hback : len.toNat = 0 ∨ 4 ≤ q.toNat := by omega
  apply (Always.piece trivial hq s (fun _ => by simp; omega)).andThen
  rintro ⟨p, s⟩ ⟨hqp, hp, -⟩
  dsimp only at hqp hp
  apply (Always.piece trivial hp s (fun _ => by simp; omega)).andThen
  exact fun _ _ => trivial

end Fingerprint.MetroHash
