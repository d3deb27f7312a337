import Fingerprint.FarmHash
import Fingerprint.Proofs.Reads.CityHash

/-!
# What FarmHash reads

Both functions end a long range with a round over its last 64 bytes, so that the chunks before it
need not reach the end.
-/

namespace Fingerprint.FarmHash
open Plan CityHash
set_option autoImplicit false

variable {len p : UInt64} {k : Nat}

theorem chunkEnd_always (h : 0 < len.toNat) : (chunkEnd len).Always (Step.Inside len)
    fun stop => stop.toNat = (len.toNat - 1) / 64 * 64 := by
  have hlen := len.toNat_lt
  have hone := toNat_allButLast h
  simp [chunkEnd, UInt64.le_iff_toNat_le, hone]
  omega

section
variable {σ : Type} {stop : UInt64} {round : UInt64 → σ → Plan σ}

/-- The chunk loop that both functions run stays inside a long range if its rounds do. -/
theorem chunks_staysInside (h : 64 < len.toNat) (hstop : stop.toNat = (len.toNat - 1) / 64 * 64)
    (hround : ∀ p s, p.toNat + 64 ≤ len.toNat → (round p s).StaysInside len) (s : σ) :
    (chunks 64 stop round len.toNat 0 s).StaysInside len := by
  have hstep : (64 : UInt64).toNat = 64 := rfl
  apply Always.chunks Step.inside_true (n := (len.toNat - 1) / 64) (by omega) (by decide) (by omega)
  · rw [UInt64.toNat_zero, hstep]
    omega
  · intro k hk q s hq
    rw [UInt64.toNat_zero, hstep] at hq
    exact hround q s (by omega)

/-- It covers every byte but the last 64 if each round covers its own. -/
theorem chunks_covers (hk : k + 64 < len.toNat) (hstop : stop.toNat = (len.toNat - 1) / 64 * 64)
    (hround : ∀ p s, p.toNat + 64 < 2 ^ 64 → p.toNat ≤ k → k < p.toNat + 64 →
      (round p s).Covers k) (s : σ) :
    (chunks 64 stop round len.toNat 0 s).Covers k := by
  have hlen := len.toNat_lt
  have hstep : (64 : UInt64).toNat = 64 := rfl
  apply Sometime.chunks (n := (len.toNat - 1) / 64) (k := k / 64) (by omega) (by decide) (by omega)
  · rw [UInt64.toNat_zero, hstep]
    omega
  · intro q s hq
    rw [UInt64.toNat_zero, hstep] at hq
    exact hround q s (by omega) (by omega) (by omega)

end

/-! ## `na` -/

namespace Na

theorem of33to64_staysInside (h : 32 < len.toNat) : (of33to64 len).StaysInside len := by
  simp [of33to64, UInt64.le_iff_toNat_le, UInt64.toNat_sub]
  omega

theorem of33to64_covers (h : 32 < len.toNat) (h' : len.toNat ≤ 64) (hk : k < len.toNat) :
    (of33to64 len).Covers k := by
  simp [of33to64, UInt64.le_iff_toNat_le, UInt64.toNat_sub]
  omega

theorem start_staysInside (h : 64 < len.toNat) : start.StaysInside len := by
  simp [start]
  omega

theorem lastRound_staysInside (h : p.toNat + 64 ≤ len.toNat) (s : State) :
    (lastRound len p s).StaysInside len := by
  have hlen := len.toNat_lt
  simp [lastRound, weakMixAt, UInt64.le_iff_toNat_le]
  omega

theorem lastRound_covers (h : p.toNat + 64 < 2 ^ 64) (hp : p.toNat ≤ k) (hk : k < p.toNat + 64)
    (s : State) : (lastRound len p s).Covers k := by
  simp [lastRound, weakMixAt]
  omega

theorem long_staysInside (h : 64 < len.toNat) : (long len).StaysInside len := by
  have h64 : (64 : UInt64).toNat = 64 := rfl
  apply (chunkEnd_always (by omega)).andThen
  intro stop hstop
  apply Always.sub Step.inside_true (by omega)
  intro last hlast
  apply (start_staysInside h).andThen
  intro s _
  apply (chunks_staysInside h hstop (fun p s hp => round_staysInside hp s) s).andThen
  intro s _
  exact (lastRound_staysInside (by omega) s).andThen fun _ _ => trivial

theorem long_covers (h : 64 < len.toNat) (hk : k < len.toNat) : (long len).Covers k := by
  have hlen := len.toNat_lt
  have h64 : (64 : UInt64).toNat = 64 := rfl
  apply Sometime.after (chunkEnd_always (by omega))
  intro stop hstop
  apply Sometime.sub (by omega)
  intro last hlast
  apply Sometime.later
  intro s
  by_cases hchunk : k + 64 < len.toNat
  · exact (chunks_covers hchunk hstop (fun p s => round_covers (s := s)) s).first
  · apply Sometime.later
    intro s
    exact (lastRound_covers (by omega) (by omega) (by omega) s).first

theorem body_staysInside : (body len).StaysInside len := by
  unfold body
  split
  · exact upTo32_staysInside
  · rename_i h
    split
    · exact of33to64_staysInside (Nat.lt_of_not_le h)
    · rename_i h'
      exact long_staysInside (Nat.lt_of_not_le h')

theorem body_covers (hk : k < len.toNat) : (body len).Covers k := by
  unfold body
  split
  · rename_i h
    exact upTo32_covers h hk
  · rename_i h
    split
    · rename_i h'
      exact of33to64_covers (Nat.lt_of_not_le h) h' hk
    · rename_i h'
      exact long_covers (Nat.lt_of_not_le h') hk

end Na

/-! ## `uo` -/

namespace Uo

theorem round_staysInside (mul : UInt64) (h : p.toNat + 64 ≤ len.toNat) (s : State) :
    (round mul p s).StaysInside len := by
  have hlen := len.toNat_lt
  simp [round]
  omega

theorem round_covers (mul : UInt64) (h : p.toNat + 64 < 2 ^ 64) (hp : p.toNat ≤ k)
    (hk : k < p.toNat + 64) (s : State) : (round mul p s).Covers k := by
  simp [round]
  omega

theorem lastRound_staysInside (mul : UInt64) (h : p.toNat + 64 ≤ len.toNat) (s : State) :
    (lastRound mul len p s).StaysInside len := by
  have hlen := len.toNat_lt
  simp [lastRound, weakMixAt, UInt64.le_iff_toNat_le]
  omega

theorem lastRound_covers (mul : UInt64) (h : p.toNat + 64 < 2 ^ 64) (hp : p.toNat ≤ k)
    (hk : k < p.toNat + 64) (s : State) : (lastRound mul len p s).Covers k := by
  simp [lastRound, weakMixAt]
  omega

theorem long_staysInside (h : 64 < len.toNat) (seed0 seed1 : UInt64) :
    (long len seed0 seed1).StaysInside len := by
  have h64 : (64 : UInt64).toNat = 64 := rfl
  apply (chunkEnd_always (by omega)).andThen
  intro stop hstop
  apply Always.sub Step.inside_true (by omega)
  intro last hlast
  apply (chunks_staysInside h hstop (fun p s hp => round_staysInside _ hp s) _).andThen
  intro s _
  exact lastRound_staysInside _ (by omega) s

theorem long_covers (h : 64 < len.toNat) (hk : k < len.toNat) (seed0 seed1 : UInt64) :
    (long len seed0 seed1).Covers k := by
  have hlen := len.toNat_lt
  have h64 : (64 : UInt64).toNat = 64 := rfl
  apply Sometime.after (chunkEnd_always (by omega))
  intro stop hstop
  apply Sometime.sub (by omega)
  intro last hlast
  by_cases hchunk : k + 64 < len.toNat
  · exact (chunks_covers hchunk hstop (fun p s => round_covers _ (s := s)) _).first
  · apply Sometime.later
    intro s
    exact lastRound_covers _ (by omega) (by omega) (by omega) s

theorem body_staysInside (seeds : Seeds) : (body seeds len).StaysInside len := by
  unfold body
  split
  · exact always_map _ |>.2 Na.body_staysInside
  · rename_i h
    exact long_staysInside (Nat.lt_of_not_le h) _ _

theorem body_covers (seeds : Seeds) (hk : k < len.toNat) : (body seeds len).Covers k := by
  unfold body
  split
  · exact sometime_map _ |>.2 (Na.body_covers hk)
  · rename_i h
    exact long_covers (Nat.lt_of_not_le h) hk _ _

end Uo

/-! ## Narrow reads -/

theorem chunkEnd_backed : (chunkEnd len).ReadsBacked := by simp [chunkEnd]

theorem Na.long_backed : (Na.long len).ReadsBacked := by
  apply chunkEnd_backed.andThen
  intro stop _
  refine ⟨trivial, ?_⟩
  have hstart : Na.start.ReadsBacked := by simp [Na.start]
  apply hstart.andThen
  intro s _
  apply (Always.chunks_of_forall Step.backed_demand round_backed 64 stop _ 0 s).andThen
  intro s _
  simp [Na.lastRound, weakMixAt]

theorem Na.body_backed (h : len.toNat = 0 ∨ 4 ≤ len.toNat) : (Na.body len).ReadsBacked := by
  have hmiddle : (Na.of33to64 len).ReadsBacked := by simp [Na.of33to64]
  rw [Na.body, ReadsBacked, always_ite, always_ite]
  exact ⟨fun _ => upTo32_backed h, fun _ => ⟨fun _ => hmiddle, fun _ => Na.long_backed⟩⟩

theorem Uo.long_backed (seed0 seed1 : UInt64) : (Uo.long len seed0 seed1).ReadsBacked := by
  apply chunkEnd_backed.andThen
  intro stop _
  refine ⟨trivial, ?_⟩
  have hround : ∀ mul p s, (Uo.round mul p s).ReadsBacked := by simp [Uo.round]
  apply (Always.chunks_of_forall Step.backed_demand (hround _) 64 stop _ 0 _).andThen
  intro s _
  simp [Uo.lastRound, weakMixAt]

theorem Uo.body_backed (seeds : Seeds) (h : len.toNat = 0 ∨ 4 ≤ len.toNat) :
    (Uo.body seeds len).ReadsBacked := by
  rw [Uo.body, ReadsBacked, always_ite, always_map]
  exact ⟨fun _ => Na.body_backed h, fun _ => Uo.long_backed _ _⟩

end Fingerprint.FarmHash
