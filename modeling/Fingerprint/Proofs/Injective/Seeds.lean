import Fingerprint.Proofs.Delegation
import Fingerprint.Proofs.Injective.Words

/-!
# Seeds of the City and Farm functions keep every collision

To fold a word with another can be undone where the other is known. So what binds the seeds into a
digest tells digests apart as they were without seeds, no better and no worse, and it tells the first
seeds apart. Farm's `uo` binds its seeds so up to 64 bytes; beyond that its loop starts from them,
and nothing is said of it.
-/

namespace Fingerprint
set_option autoImplicit false

theorem foldPair_injective {mul : UInt64} (hmul : mul.toNat % 2 = 1) (v : UInt64) :
    Function.Injective (foldPair mul · v) := by
  intro u u' h
  have h := xorShift_injective (by decide) (by decide) (mul_injective_of_odd hmul h)
  have h := (UInt64.xor_right_inj v).1 (mul_injective_of_odd hmul h)
  have h := xorShift_injective (by decide) (by decide) h
  exact (UInt64.xor_left_inj v).1 (mul_injective_of_odd hmul h)

namespace Seeds

theorem multiplier_odd : multiplier.toNat % 2 = 1 := by decide

theorem finish_injective (seeds : Seeds) : Function.Injective seeds.finish := by
  intro d d' h
  cases seeds with
  | unseeded => exact h
  | one seed => exact (UInt64.sub_left_inj _).1 (foldPair_injective multiplier_odd seed h)
  | two seed0 seed1 => exact (UInt64.sub_left_inj _).1 (foldPair_injective multiplier_odd seed1 h)

theorem finish_two_inj {seed0 seed0' seed1 d : UInt64}
    (h : (two seed0 seed1).finish d = (two seed0' seed1).finish d) : seed0 = seed0' :=
  (UInt64.sub_right_inj _).1 (foldPair_injective multiplier_odd seed1 h)

end Seeds

/-- Among the calls that `P` holds of, seeds make none agree that did not agree without them, and
none differ that agreed. To change the first of two seeds changes the digest. -/
structure KeepsCollisions {φ : Type} [HashFunction φ UInt64] (make : Seeds → φ)
    (P : Call → Prop) : Prop where
  answer_eq_iff : ∀ (seeds : Seeds) {c c' : Call}, P c → P c' →
    (c.answer (make seeds) = c'.answer (make seeds) ↔
      c.answer (make .unseeded) = c'.answer (make .unseeded))
  digest_ne : ∀ {seed0 seed0' : UInt64} (seed1 : UInt64) {c : Call} {d d' : UInt64}, P c →
    seed0 ≠ seed0' → c.answer (make (.two seed0 seed1)) = .ok d →
      c.answer (make (.two seed0' seed1)) = .ok d' → d ≠ d'

/-- Seeds that are bound into the digests, and nowhere else. -/
theorem KeepsCollisions.of_mapped {φ : Type} [HashFunction φ UInt64] {make : Seeds → φ}
    {within : UInt64 → Prop}
    (h : ∀ seeds : Seeds, Mapped seeds.finish within (make .unseeded) (make seeds)) :
    KeepsCollisions make fun c => within c.byteLength where
  answer_eq_iff seeds c c' hc hc' := by
    rw [(h seeds).answer_eq hc, (h seeds).answer_eq hc']
    exact map_inj_right fun hd => seeds.finish_injective hd
  digest_ne {seed0 seed0'} seed1 {c d d'} hc hne hd hd' heq := by
    rw [(h _).answer_eq hc] at hd hd'
    cases hanswer : c.answer (make .unseeded) with
    | error refusal =>
      rw [hanswer] at hd
      cases hd
    | ok digest =>
      rw [hanswer] at hd hd'
      have hd : (Seeds.two seed0 seed1).finish digest = d := Except.ok.inj hd
      have hd' : (Seeds.two seed0' seed1).finish digest = d' := Except.ok.inj hd'
      exact hne (Seeds.finish_two_inj (hd.trans (heq.trans hd'.symm)))

section
variable {φ : Type} [HashFunction φ UInt64] {make : Seeds → φ} {P : Call → Prop}
  (h : KeepsCollisions make P) {a b : Array UInt8} (ha : P (.bytes a))
include h ha

theorem KeepsCollisions.ofBytes_ne_iff (seeds : Seeds) (hb : P (.bytes b)) :
    HashFunction.ofBytes (make seeds) a ≠ HashFunction.ofBytes (make seeds) b ↔
      HashFunction.ofBytes (make .unseeded) a ≠ HashFunction.ofBytes (make .unseeded) b := by
  have hiff := h.answer_eq_iff seeds ha hb
  simp only [Call.answer, Except.ok.injEq] at hiff
  exact not_congr hiff

theorem KeepsCollisions.ofBytes_two_ne {seed0 seed0' : UInt64} (seed1 : UInt64)
    (hne : seed0 ≠ seed0') :
    HashFunction.ofBytes (make (.two seed0 seed1)) a ≠
      HashFunction.ofBytes (make (.two seed0' seed1)) a :=
  h.digest_ne seed1 ha hne rfl rfl

end

/-! ## The functions -/

section
variable (seeds : Seeds)

theorem Seeds.map_finish (p : Plan UInt64) :
    seeds.finish <$> p = seeds.finish <$> (Seeds.unseeded.finish <$> p) :=
  congrArg (seeds.finish <$> ·) (id_map p).symm

theorem CityHash.mapped :
    Mapped seeds.finish (fun _ => True) (CityHash.mk .unseeded) (CityHash.mk seeds) :=
  ⟨fun _ => seeds.map_finish _, rfl, fun _ => rfl, fun _ => rfl, fun _ => rfl, fun _ => rfl⟩

theorem FarmHash.Na.mapped :
    Mapped seeds.finish (fun _ => True) (Na.mk .unseeded) (Na.mk seeds) :=
  ⟨fun _ => seeds.map_finish _, rfl, fun _ => rfl, fun _ => rfl, fun _ => rfl, fun _ => rfl⟩

theorem FarmHash.Uo.mapped :
    Mapped seeds.finish (· ≤ 64) (Uo.mk .unseeded) (Uo.mk seeds) := by
  refine ⟨?_, rfl, fun _ => rfl, fun _ => rfl, fun _ => rfl, fun _ => rfl⟩
  intro len hlen
  change Uo.body seeds len = seeds.finish <$> Uo.body .unseeded len
  rw [Uo.body, if_pos hlen, Uo.body, if_pos hlen, ← seeds.map_finish]

end

/-- However their seeds are bound, the City function and Farm's `na` answer two calls alike just when
they do so without seeds, and so does Farm's `uo` for calls that digest at most 64 bytes each; two
digests of one call that differ in the first of two seeds are not the same. -/
theorem seeds_keepCollisions :
    KeepsCollisions CityHash.mk (fun _ => True) ∧
    KeepsCollisions FarmHash.Na.mk (fun _ => True) ∧
    KeepsCollisions FarmHash.Uo.mk (fun c => c.byteLength ≤ 64) :=
  ⟨.of_mapped CityHash.mapped, .of_mapped FarmHash.Na.mapped, .of_mapped FarmHash.Uo.mapped⟩

/-- Some 64 bytes and 63 of them stay apart under a seed; and the 64 bytes tell two first seeds apart. -/
theorem seeds_keepCollisions_upTo64 :
    HashFunction.ofBytes (FarmHash.Uo.mk (.one 7)) (.replicate 64 1) ≠
        HashFunction.ofBytes (FarmHash.Uo.mk (.one 7)) (.replicate 63 1) ∧
      HashFunction.ofBytes (FarmHash.Uo.mk (.two 1 7)) (.replicate 64 1) ≠
        HashFunction.ofBytes (FarmHash.Uo.mk (.two 2 7)) (.replicate 64 1) ∧
      HashFunction.ofBytes (CityHash.mk (.two 1 7)) (.replicate 65 1) ≠
        HashFunction.ofBytes (CityHash.mk (.two 2 7)) (.replicate 65 1) := by
  obtain ⟨hcity, -, huo⟩ := seeds_keepCollisions
  have hlonger : (Call.bytes (.replicate 64 1)).byteLength ≤ 64 := by decide
  have hshorter : (Call.bytes (.replicate 63 1)).byteLength ≤ 64 := by decide
  have hdiffer : HashFunction.ofBytes FarmHash.Uo.unseeded (.replicate 64 1) ≠
      HashFunction.ofBytes FarmHash.Uo.unseeded (.replicate 63 1) := by decide +kernel
  exact ⟨(huo.ofBytes_ne_iff hlonger (.one 7) hshorter).2 hdiffer,
    huo.ofBytes_two_ne hlonger 7 (by decide), hcity.ofBytes_two_ne trivial 7 (by decide)⟩

end Fingerprint
