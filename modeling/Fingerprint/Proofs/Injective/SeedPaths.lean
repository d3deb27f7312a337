import Fingerprint.Proofs.Injective.MurmurHash
import Fingerprint.Proofs.Injective.XXH3.Narrow
import Fingerprint.Proofs.Injective.XXHash
import Fingerprint.Proofs.Values.Calls

/-!
# Seeds that no input hides

Where every step from the seed to the digest can be undone, whatever the words that were read, two
seeds never give one input the same digest. MurmurHash is such everywhere, xxHash as long as there is
no stripe, and the 64-bit XXH3 up to eight bytes.
-/

namespace Fingerprint
open HashFunction Plan
set_option autoImplicit false

/-- Among the calls of lengths that `within` holds of, each is refused whatever the seed, or no two
seeds give it the same digest. -/
def TellsSeedsApart {φ δ : Type} [HashFunction φ δ] (make : UInt64 → φ) (within : UInt64 → Prop) :
    Prop :=
  ∀ c : Call, within c.byteLength → (∃ refusal, ∀ seed, c.answer (make seed) = .error refusal) ∨
    ∃ digest : UInt64 → δ, Function.Injective digest ∧
      ∀ seed, c.answer (make seed) = .ok (digest seed)

/-- It is enough that the body does so, whatever words it reads. -/
theorem TellsSeedsApart.of_body {φ δ : Type} [HashFunction φ δ] {make : UInt64 → φ}
    {within : UInt64 → Prop} (hshortcuts : ∀ seed, Shortcuts (make seed))
    (hbody : ∀ len read, within len →
      Function.Injective fun seed => (HashFunction.body (make seed) len).run read) :
    TellsSeedsApart make within := by
  intro c hc
  obtain ⟨refusal, hrefused⟩ | ⟨read, hruns⟩ := c.refused_or_runs
  · exact .inl ⟨refusal, fun seed => hrefused (make seed)⟩
  · exact .inr ⟨_, hbody c.byteLength read hc, fun seed => hruns (hshortcuts seed)⟩

theorem TellsSeedsApart.ofBytes_ne {φ δ : Type} [HashFunction φ δ] {make : UInt64 → φ}
    {within : UInt64 → Prop} (h : TellsSeedsApart make within) {a : Array UInt8}
    (ha : within (.ofNat a.size)) {seed seed' : UInt64} (hne : seed ≠ seed') :
    HashFunction.ofBytes (make seed) a ≠ HashFunction.ofBytes (make seed') a := by
  obtain ⟨refusal, hrefused⟩ | ⟨digest, hinjective, hdigest⟩ := h (.bytes a) ha
  · cases hrefused seed
  · have heach (seed : UInt64) : HashFunction.ofBytes (make seed) a = digest seed :=
      Except.ok.inj (hdigest seed)
    rw [heach, heach]
    exact hinjective.ne hne

section
variable (read : Width → UInt64 → UInt64) (len : UInt64)

/-! ## MurmurHash -/

namespace MurmurHash

theorem start_injective : Function.Injective start := fun _ _ h => (State.mk.inj h).1

theorem run_takePartial_injective (scramble : UInt64 → UInt64) (p n : UInt64) :
    Function.Injective fun lane => (takePartial scramble p n lane).run read := by
  intro lane lane' h
  simp only [takePartial, run_bind, run_pure] at h
  exact (UInt64.xor_left_inj _).1 h

theorem run_takeFirst_injective (p rest : UInt64) :
    Function.Injective fun lane => (takeFirst p rest lane).run read := by
  intro lane lane' h
  simp only [takeFirst, run_ite, run_pure] at h
  split at h
  · exact run_takePartial_injective read _ _ _ h
  · exact h

theorem run_takeSecond_injective (p rest : UInt64) :
    Function.Injective fun lane => (takeSecond p rest lane).run read := by
  intro lane lane' h
  simp only [takeSecond, run_ite, run_bind, run_pure] at h
  split at h
  · exact run_takePartial_injective read _ _ _ h
  · exact h

theorem run_tail_injective (p rest : UInt64) :
    Function.Injective fun s => (tail p rest s).run read := by
  rintro ⟨h1, h2⟩ ⟨h1', h2'⟩ h
  simp only [tail, run_bind, run_pure] at h
  obtain ⟨hfirst, hsecond⟩ := State.mk.inj h
  rw [run_takeFirst_injective read _ _ hfirst, run_takeSecond_injective read _ _ hsecond]

theorem run_round_injective (i : UInt64) : Function.Injective fun s => (round i s).run read := by
  intro s s' h
  simp only [round, run_bind, run_pure] at h
  exact block_injective _ _ h

theorem run_body_injective : Function.Injective fun seed => (body seed len).run read := by
  intro seed seed' h
  simp only [body, run_bind, run_range_eq_foldl, run_pure] at h
  have hblocks := run_tail_injective read _ _ (finish_injective len h)
  have hstart := foldl_injective (fun i _ => run_round_injective read (UInt64.ofNat i)) hblocks
  exact start_injective hstart

end MurmurHash

/-! ## xxHash -/

theorem XXHash.run_body_injective (hlen : len < 32) :
    Function.Injective fun seed => (body seed len).run read := by
  intro seed seed' h
  have hshort : ¬ 32 ≤ len.toNat := Nat.not_le.2 (UInt64.lt_iff_toNat_lt.1 hlen)
  simp only [run_body, striped, if_neg hshort] at h
  have hstart := foldl_injective (fun q _ => q.takeWord_injective _) (avalanche_injective h)
  exact (UInt64.add_left_inj _).1 ((UInt64.add_left_inj _).1 hstart)

/-! ## XXH3 -/

namespace XXH3

theorem low32_widenSeed (seed : UInt64) : low32 (widenSeed seed) = low32 seed := by
  have hhigh : ∀ x : UInt64, (x <<< 32).toNat % 2 ^ 32 = 0 := by
    intro x
    have hshift : (x <<< 32).toNat = x.toNat <<< 32 % 2 ^ 64 := UInt64.toNat_shiftLeft x 32
    rw [hshift, Nat.shiftLeft_eq]
    omega
  apply UInt64.toNat.inj
  rw [toNat_low32, toNat_low32, widenSeed, UInt64.toNat_xor, Nat.xor_mod_two_pow, hhigh,
    Nat.xor_zero]

/-- The low half is kept, and gives away what was folded into the high one. -/
theorem widenSeed_injective : Function.Injective widenSeed := by
  intro seed seed' h
  have hlow := congrArg low32 h
  rw [low32_widenSeed, low32_widenSeed] at hlow
  rw [widenSeed, widenSeed, hlow] at h
  exact (UInt64.xor_left_inj _).1 h

namespace Narrow

theorem run_void_injective : Function.Injective fun seed => (void seed).run read := by
  intro seed seed' h
  simp only [void, run_bind, run_pure] at h
  have h := (UInt64.xor_left_inj _).1 (XXHash.avalanche_injective h)
  exact (UInt64.xor_left_inj _).1 h

theorem run_of1to3_injective (first middle last : UInt8) :
    Function.Injective fun seed => (of1to3 seed first middle last len).run read := by
  intro seed seed' h
  simp only [of1to3, run_bind, run_pure] at h
  have h := (UInt64.xor_right_inj _).1 (XXHash.avalanche_injective h)
  exact (UInt64.add_right_inj _).1 h

theorem run_of4to8_injective (hlen : len ≤ 8) (first last : UInt32) :
    Function.Injective fun seed => (of4to8 seed first last len).run read := by
  intro seed seed' h
  simp only [of4to8, run_bind, run_pure] at h
  have hsmall : len.toNat < 2 ^ 32 := Nat.lt_of_le_of_lt (UInt64.le_iff_toNat_le.1 hlen) (by decide)
  have h := (UInt64.xor_right_inj _).1 (strongAvalanche_injective hsmall h)
  exact widenSeed_injective ((UInt64.sub_right_inj _).1 h)

theorem run_body_injective (hlen : len ≤ 8) :
    Function.Injective fun seed => (body seed len).run read := by
  intro seed seed' h
  have h16 : len ≤ 16 := UInt64.le_trans hlen (by decide)
  simp only [body, if_pos h16, upTo16, if_neg (UInt64.not_lt.2 hlen), run_ite, run_bind] at h
  split at h
  · exact run_of4to8_injective read len hlen _ _ h
  · split at h
    · exact run_of1to3_injective read len _ _ _ h
    · exact run_void_injective read h

end Narrow

end XXH3

end

/-- Two seeds never give one input the same digest: with MurmurHash whatever the input, with xxHash if it
has fewer than 32 bytes, and with the 64-bit XXH3 if it has at most eight. -/
theorem seeds_toldApart :
    TellsSeedsApart MurmurHash.ofSeed (fun _ => True) ∧
    TellsSeedsApart XXHash.ofSeed (· < 32) ∧
    TellsSeedsApart XXH3.Narrow.ofSeed (· ≤ 8) :=
  ⟨.of_body (fun _ => MurmurHash.shortcuts _) fun len read _ => MurmurHash.run_body_injective read len,
    .of_body (fun _ => XXHash.shortcuts _) fun len read => XXHash.run_body_injective read len,
    .of_body (fun _ => XXH3.Narrow.shortcuts _) fun len read => XXH3.Narrow.run_body_injective read len⟩

/-- Two seeds, and the longest of each kind of input. -/
theorem seeds_toldApart_one_two :
    HashFunction.ofBytes (MurmurHash.ofSeed 1) (.replicate 100 7) ≠
        HashFunction.ofBytes (MurmurHash.ofSeed 2) (.replicate 100 7) ∧
      HashFunction.ofBytes (XXHash.ofSeed 1) (.replicate 31 7) ≠
        HashFunction.ofBytes (XXHash.ofSeed 2) (.replicate 31 7) ∧
      HashFunction.ofBytes (XXH3.Narrow.ofSeed 1) (.replicate 8 7) ≠
        HashFunction.ofBytes (XXH3.Narrow.ofSeed 2) (.replicate 8 7) := by
  obtain ⟨hmurmur, hxx, hxx3⟩ := seeds_toldApart
  exact ⟨hmurmur.ofBytes_ne trivial (by decide), hxx.ofBytes_ne (by decide) (by decide),
    hxx3.ofBytes_ne (by decide) (by decide)⟩

end Fingerprint
