import Fingerprint.Proofs.Values.Calls
import Fingerprint.Proofs.Injective.XXH3.Narrow
import Fingerprint.Proofs.Injective.XXH3.Wide

/-!
# Functions that agree up to a length, or from one on

Two functions agree on calls of some lengths if their bodies come to the same there, whatever words
are read: the shortcuts for the empty input and for single words follow their bodies. So do the City
function and Farm's two up to the length where each goes its own way, a single seed and the pair that
it stands for, and the 64-bit XXH3 and the first word of the 128-bit one.
-/

namespace Fingerprint
open HashFunction Plan
set_option autoImplicit false

/-- Where the bodies come to the same under a map, whatever words they read, so do the answers. -/
theorem Call.answer_eq_of_run_eq {φ ψ δ ε : Type} [HashFunction φ δ] [HashFunction ψ ε] {f : φ}
    {g : ψ} (hf : Shortcuts f) (hg : Shortcuts g) (map : δ → ε) (c : Call)
    (h : ∀ read, (body g c.byteLength).run read = map ((body f c.byteLength).run read)) :
    c.answer g = map <$> c.answer f := by
  rcases c.refused_or_runs with ⟨refusal, hrefused⟩ | ⟨read, hruns⟩
  · rw [hrefused f, hrefused g]
    rfl
  · rw [hruns hf, hruns hg, h read]
    rfl

section
variable {φ ψ χ δ : Type} [HashFunction φ δ] [HashFunction ψ δ] [HashFunction χ δ]

/-- The functions give the same answer to every call of a length that `within` holds of. -/
def AgreeWithin (within : UInt64 → Prop) (f : φ) (g : ψ) : Prop :=
  ∀ c : Call, within c.byteLength → c.answer f = c.answer g

namespace AgreeWithin

variable {within within' : UInt64 → Prop} {f : φ} {g : ψ} {k : χ}

theorem of_body_eq (hf : Shortcuts f) (hg : Shortcuts g)
    (h : ∀ len, within len → body f len = body g len) : AgreeWithin within f g := by
  intro c hc
  have hanswer := Call.answer_eq_of_run_eq hg hf id c fun read =>
    congrArg (Plan.run read) (h c.byteLength hc)
  rw [hanswer, id_map]

theorem trans (h : AgreeWithin within f g) (h' : AgreeWithin within g k) :
    AgreeWithin within f k :=
  fun c hc => (h c hc).trans (h' c hc)

theorem mono (h : AgreeWithin within f g) (himp : ∀ len, within' len → within len) :
    AgreeWithin within' f g :=
  fun c hc => h c (himp c.byteLength hc)

theorem ofBytes_eq (h : AgreeWithin within f g) {a : Array UInt8} (ha : within (.ofNat a.size)) :
    ofBytes f a = ofBytes g a := Except.ok.inj (h (.bytes a) ha)

end AgreeWithin

end

/-! ## The City and Farm functions -/

theorem FarmHash.Uo.body_of_lt (seeds : Seeds) {len : UInt64} (h : 64 < len) :
    Uo.body seeds len = Uo.long len (Uo.loopSeeds seeds).1 (Uo.loopSeeds seeds).2 :=
  if_neg (UInt64.not_le.2 h)

section
open FarmHash
variable (seeds : Seeds) (seed : UInt64)

theorem cityHash_agrees_na : AgreeWithin (· ≤ 32) (CityHash.mk seeds) (Na.mk seeds) := by
  apply AgreeWithin.of_body_eq (CityHash.shortcuts _) (Na.shortcuts _)
  intro len hlen
  change seeds.finish <$> CityHash.body len = seeds.finish <$> Na.body len
  rw [CityHash.body_of_le hlen, Na.body_of_le hlen]

theorem na_agrees_uo : AgreeWithin (· ≤ 64) (Na.mk seeds) (Uo.mk seeds) := by
  apply AgreeWithin.of_body_eq (Na.shortcuts _) (Uo.shortcuts _)
  intro len hlen
  exact (Uo.body_of_le seeds hlen).symm

theorem cityHash_agrees_uo : AgreeWithin (· ≤ 32) (CityHash.mk seeds) (Uo.mk seeds) := by
  have hna := (na_agrees_uo seeds).mono fun len (hlen : len ≤ 32) =>
    UInt64.le_trans hlen (by decide)
  exact (cityHash_agrees_na seeds).trans hna

theorem cityHash_seed_agrees_pair :
    AgreeWithin (fun _ => True) (CityHash.ofSeed seed) (CityHash.ofSeeds CityHash.k2 seed) :=
  .of_body_eq (CityHash.shortcuts _) (CityHash.shortcuts _) fun _ _ => rfl

theorem na_seed_agrees_pair :
    AgreeWithin (fun _ => True) (Na.ofSeed seed) (Na.ofSeeds CityHash.k2 seed) :=
  .of_body_eq (Na.shortcuts _) (Na.shortcuts _) fun _ _ => rfl

theorem uo_seed_agrees_pair_upTo64 :
    AgreeWithin (· ≤ 64) (Uo.ofSeed seed) (Uo.ofSeeds CityHash.k2 seed) := by
  apply AgreeWithin.of_body_eq (Uo.shortcuts _) (Uo.shortcuts _)
  intro len hlen
  change Uo.body (.one seed) len = Uo.body (.two CityHash.k2 seed) len
  rw [Uo.body_of_le _ hlen, Uo.body_of_le _ hlen]
  rfl

/-- Above 64 bytes the seeds count only as those that the loop starts from. -/
theorem uo_agrees_of_loopSeeds {seeds seeds' : Seeds} (h : Uo.loopSeeds seeds = Uo.loopSeeds seeds') :
    AgreeWithin (64 < ·) (Uo.mk seeds) (Uo.mk seeds') := by
  apply AgreeWithin.of_body_eq (Uo.shortcuts _) (Uo.shortcuts _)
  intro len hlen
  change Uo.body _ len = Uo.body _ len
  rw [Uo.body_of_lt _ hlen, Uo.body_of_lt _ hlen, h]

/-- With the same seeds, the City function and both Farm functions agree up to 32 bytes, and the Farm
functions up to 64. A single seed stands beside `k2` wherever seeds are bound into the digest; where
Farm's `uo` starts its loop from them, it stands beside zero, and no seed is the pair 81 and zero. -/
theorem cityAndFarm_agree :
    (AgreeWithin (· ≤ 32) (CityHash.mk seeds) (Na.mk seeds) ∧
      AgreeWithin (· ≤ 32) (CityHash.mk seeds) (Uo.mk seeds) ∧
      AgreeWithin (· ≤ 64) (Na.mk seeds) (Uo.mk seeds)) ∧
    (AgreeWithin (fun _ => True) (CityHash.ofSeed seed) (CityHash.ofSeeds CityHash.k2 seed) ∧
      AgreeWithin (fun _ => True) (Na.ofSeed seed) (Na.ofSeeds CityHash.k2 seed) ∧
      AgreeWithin (· ≤ 64) (Uo.ofSeed seed) (Uo.ofSeeds CityHash.k2 seed)) ∧
    AgreeWithin (64 < ·) (Uo.ofSeed seed) (Uo.ofSeeds 0 seed) ∧
    AgreeWithin (64 < ·) Uo.unseeded (Uo.ofSeeds 81 0) :=
  ⟨⟨cityHash_agrees_na seeds, cityHash_agrees_uo seeds, na_agrees_uo seeds⟩,
    ⟨cityHash_seed_agrees_pair seed, na_seed_agrees_pair seed, uo_seed_agrees_pair_upTo64 seed⟩,
    uo_agrees_of_loopSeeds rfl, uo_agrees_of_loopSeeds rfl⟩

/-- At the ends of the lengths within which they agree. -/
theorem cityAndFarm_agree_at_ends :
    ofBytes (CityHash.ofSeed 7) (.replicate 32 1) = ofBytes (Na.ofSeed 7) (.replicate 32 1) ∧
      ofBytes (Na.ofSeed 7) (.replicate 64 1) = ofBytes (Uo.ofSeed 7) (.replicate 64 1) ∧
      ofBytes (Uo.ofSeed 5) (.replicate 64 1) =
        ofBytes (Uo.ofSeeds CityHash.k2 5) (.replicate 64 1) ∧
      ofBytes (Uo.ofSeed 5) (.replicate 65 1) = ofBytes (Uo.ofSeeds 0 5) (.replicate 65 1) ∧
      ofBytes Uo.unseeded (.replicate 65 1) = ofBytes (Uo.ofSeeds 81 0) (.replicate 65 1) := by
  obtain ⟨⟨hcity, -, hfarm⟩, ⟨-, -, hpair⟩, hlong, hnone⟩ := cityAndFarm_agree (.one 7) 5
  exact ⟨hcity.ofBytes_eq (by decide), hfarm.ofBytes_eq (by decide), hpair.ofBytes_eq (by decide),
    hlong.ofBytes_eq (by decide), hnone.ofBytes_eq (by decide)⟩

example : ofBytes Na.unseeded (Array.replicate 65 1) ≠ ofBytes Uo.unseeded (Array.replicate 65 1) := by
  decide +kernel

end

/-! ## XXH3 -/

namespace XXH3

section
variable (read : Width → UInt64 → UInt64) (seed : UInt64) {len : UInt64}

theorem run_of1to3_eq_low (first middle last : UInt8) :
    (Narrow.of1to3 seed first middle last len).run read =
      ((Wide.of1to3 seed first middle last len).run read).low := by
  simp only [Narrow.of1to3, Wide.of1to3, run_bind, run_pure, UInt32.toUInt64_xor]

theorem run_body_eq_low_1to3 (hlow : 1 ≤ len) (hhigh : len ≤ 3) :
    (Narrow.body seed len).run read = ((Wide.body seed len).run read).low := by
  have h16 : len ≤ 16 := UInt64.le_trans hhigh (by decide)
  rw [Narrow.body_eq_byRegime seed h16, Wide.body_eq_byRegime seed h16,
    byRegime_1to3 _ _ _ _ hlow hhigh, byRegime_1to3 _ _ _ _ hlow hhigh]
  simp only [run_bind, run_of1to3_eq_low]

theorem run_body_eq_low_long (h : 240 < len) :
    (Narrow.body seed len).run read = ((Wide.body seed len).run read).low := by
  have hle : ∀ {n : UInt64}, n ≤ 240 → ¬ len ≤ n :=
    fun hn => UInt64.not_le.2 (UInt64.lt_of_le_of_lt hn h)
  rw [Narrow.body, if_neg (hle (by decide)), if_neg (hle (by decide)), if_neg (hle (by decide)),
    Wide.body, if_pos h, Narrow.long, Wide.long]
  simp only [run_bind, run_pure]

end

/-- The 64-bit function answers every call of one to three bytes, and every one of more than 240, with
the low word of what the 128-bit function answers: over whichever reader, and also where a single byte
or two are digested by themselves. -/
theorem answer_narrow_eq_low (seed : UInt64) {c : Call}
    (h : 1 ≤ c.byteLength ∧ c.byteLength ≤ 3 ∨ 240 < c.byteLength) :
    c.answer (Narrow.ofSeed seed) = Digest128.low <$> c.answer (Wide.ofSeed seed) := by
  apply Call.answer_eq_of_run_eq (Wide.shortcuts _) (Narrow.shortcuts _)
  intro read
  rcases h with ⟨hlow, hhigh⟩ | hlong
  · exact run_body_eq_low_1to3 read seed hlow hhigh
  · exact run_body_eq_low_long read seed hlong

theorem answer_narrow_eq_low_two_bytes :
    let c := Call.scalar (513 : UInt16)
    let long := Call.digest Buffer.reader (Buffer.ofBytes (Array.replicate 242 1)) 1 241
    c.answer (Narrow.ofSeed 7) = Digest128.low <$> c.answer (Wide.ofSeed 7) ∧
      long.answer (Narrow.ofSeed 7) = Digest128.low <$> long.answer (Wide.ofSeed 7) :=
  ⟨answer_narrow_eq_low 7 (.inl (by decide)), answer_narrow_eq_low 7 (.inr (by decide))⟩

end XXH3

end Fingerprint
