import Fingerprint.Proofs.Heeds.Few
import Fingerprint.Proofs.Heeds.Halves
import Fingerprint.Proofs.Heeds.Long
import Fingerprint.Proofs.Heeds.Short

/-!
# Which bytes wyhash heeds

Two seeds erase all there is to one to three bytes, one seed erases what follows the first 16 of 17 to
24 bytes, and one length erases everything, whatever the seed. Nothing else is erased: every other byte
of nine or more makes a difference to the digest, and every other byte of up to eight to the mixed word,
which the last product folds with the length.
-/

namespace Fingerprint.WyHash
open Plan HashFunction
set_option autoImplicit false

variable {seed : UInt64} {n i : Nat}

theorem ofBytes_eq_run_body {a : Array UInt8} (h : a.size = n) :
    HashFunction.ofBytes (ofSeed seed) a =
      (body seed (UInt64.ofNat n)).run (wordsOf fun i => a.getD i 0) := by
  rw [← h]
  exact ofBytes_eq_run (eachAlgorithm_readsRange.wyHash (ofSeed seed)) a

/-! ## Bytes that are heeded -/

theorem heeds_of_nine_le (h : 9 ≤ n) (hn : n < 2 ^ 64) (hkey : n ≠ p4.toNat) (hi : i < n)
    (herased : ¬ (seed = p3 ∧ 17 ≤ n ∧ n ≤ 24 ∧ 16 ≤ i)) : Heeds (ofSeed seed) n i := by
  have hlen : (UInt64.ofNat n).toNat = n := UInt64.toNat_ofNat_of_lt' hn
  have hkey : UInt64.ofNat n ≠ p4 := fun heq => hkey (heq ▸ hlen.symm)
  obtain ⟨g, hg⟩ : ∃ g, (body seed (UInt64.ofNat n)).run (wordsOf g) ≠
      (body seed (UInt64.ofNat n)).run (wordsOf (flip g i 0)) := by
    by_cases hlong : 32 < n
    · exact exists_flip_of_long seed hlong hn hkey hi
    by_cases h16 : n ≤ 16
    · exact exists_flip_of9to16 (by omega) (by omega) (by omega)
    by_cases h24 : n ≤ 24
    · by_cases hfirst : i < 16
      · exact exists_flip_of17to24 (by omega) (by omega) hfirst
      · have hseed : seed ≠ p3 := fun heq => herased ⟨heq, by omega, h24, by omega⟩
        exact exists_flip_of17to24_last (by omega) (by omega) (by omega) (by omega) hseed
    · exact exists_flip_of25to32 (by omega) (by omega) (by omega)
  exact heeds_of_flip (eachAlgorithm_readsRange.wyHash (ofSeed seed)) hn hg

theorem run_unseeded_ne : ∀ n ≤ 8, ∀ i < n,
    (body 0 (UInt64.ofNat n)).run (wordsOf zeros) ≠
      (body 0 (UInt64.ofNat n)).run (wordsOf (flip zeros i 0)) := by
  decide +kernel

theorem run_keyed_ne (h : seed = p1 ∨ seed = ~~~p1) : ∀ n ≤ 8, 4 ≤ n → ∀ i < n,
    (body seed (UInt64.ofNat n)).run (wordsOf fun _ => 2) ≠
      (body seed (UInt64.ofNat n)).run (wordsOf (flip (fun _ => 2) i 0)) := by
  rcases h with rfl | rfl <;> decide +kernel

/-! ## Bytes that are erased -/

theorem not_heedsByte_of_eq {β : Type} {image : Array UInt8 → β} {d : β}
    (h : ∀ a : Array UInt8, a.size = n → image a = d) : ¬ HeedsByte image n i := by
  rintro ⟨a, b, ha, hb, -, hne⟩
  exact hne ((h a ha).trans (h b hb).symm)

/-- What the mixed word does not tell apart, the digest does not. -/
theorem heedsByte_of_heeds (hpos : 0 < n) (hn : n ≤ 8) (h : Heeds (ofSeed seed) n i) :
    HeedsByte (mixedOf seed) n i := by
  obtain ⟨a, b, ha, hb, hsame, hne⟩ := h
  refine ⟨a, b, ha, hb, hsame, fun heq => hne ?_⟩
  rw [ofBytes_eq_finish (by omega) (by omega), ofBytes_eq_finish (by omega) (by omega), heq, ha, hb]

theorem mix_key (key1 key2 a : UInt64) : mix key1 key2 key2 a 0 = 0 := by
  rw [mix, UInt64.zero_xor, UInt64.xor_self, foldProduct_zero_right]

theorem toNat_few_lt (read : Width → UInt64 → UInt64) (p n : UInt64) :
    ((few p n).run read).toNat < 2 ^ 24 := by
  have hfirst := (read .one p).toUInt8.toNat_lt
  have hmiddle := (read .one (p + (n >>> 1))).toUInt8.toNat_lt
  have hlast := (read .one (p + n - 1)).toUInt8.toNat_lt
  simp only [few, run_bind, run_pure, run_u8, run_add, run_sub, toNat_ofBytes]
  omega

/-- Two seeds leave nothing of up to three bytes. -/
theorem mix_few (hseed : seed = p1 ∨ seed = ~~~p1) :
    ∃ x, ∀ k : UInt64, k.toNat < 2 ^ 24 → mix p0 p1 seed k 0 = x := by
  rcases hseed with rfl | rfl
  · exact ⟨0, fun k _ => mix_key p0 p1 k⟩
  · refine ⟨~~~0, fun k hk => ?_⟩
    have hfactor : k ^^^ ~~~p1 ^^^ p0 ≠ 0 := by
      intro hzero
      rw [UInt64.xor_assoc, UInt64.xor_eq_zero_iff] at hzero
      rw [hzero] at hk
      exact absurd hk (by decide)
    exact foldProduct_ones hfactor

theorem not_heedsByte_few (hn : n < 4) (hseed : seed = p1 ∨ seed = ~~~p1) :
    ¬ HeedsByte (mixedOf seed) n i := by
  obtain ⟨x, hx⟩ := mix_few hseed
  have hlen : (UInt64.ofNat n).toNat = n :=
    UInt64.toNat_ofNat_of_lt' (Nat.lt_trans hn (by decide))
  have hfew : UInt64.ofNat n < 4 := by
    rw [UInt64.lt_iff_toNat_lt, hlen]
    exact hn
  apply not_heedsByte_of_eq
  intro a ha
  rw [mixedOf, ha, mixed, if_pos hfew, run_bind, run_pure, hx _ (toNat_few_lt _ 0 _)]

theorem not_heeds_few (hn : n < 4) (hi : i < n) (hseed : seed = p1 ∨ seed = ~~~p1) :
    ¬ Heeds (ofSeed seed) n i := fun h =>
  not_heedsByte_few hn hseed (heedsByte_of_heeds (Nat.zero_lt_of_lt hi) (by omega) h)

/-- One seed erases the last word of 17 to 24 bytes. -/
theorem not_heeds_last (hn : 17 ≤ n) (hn' : n ≤ 24) (hi : 16 ≤ i) : ¬ Heeds (ofSeed p3) n i := by
  have hfits : n < 2 ^ 64 := by omega
  have hlen : (UInt64.ofNat n).toNat = n := UInt64.toNat_ofNat_of_lt' hfits
  have hfirst : (0 : UInt64).toNat = 0 := rfl
  have hsecond : (8 : UInt64).toNat = 8 := rfl
  rintro ⟨a, b, ha, hb, hsame, hne⟩
  have hbytes : ∀ j < 16, a.getD j 0 = b.getD j 0 := by
    intro j hj
    rw [Array.getD_eq_getD_getElem?, Array.getD_eq_getD_getElem?, hsame j (by omega)]
  have hwords : ∀ p : UInt64, p.toNat ≤ 8 →
      cross (fun i => a.getD i 0) p = cross (fun i => b.getD i 0) p := by
    intro p hp
    rw [cross, cross, wordsOf_congr fun j _ hj => hbytes j (by rw [Width.bytes_eight] at hj; omega)]
  apply hne
  rw [ofBytes_eq_run_body ha, ofBytes_eq_run_body hb, run_of17to24 (by omega) (by omega),
    run_of17to24 (by omega) (by omega), mix_key, mix_key, hwords 0 (by omega),
    hwords 8 (by omega)]

/-- The length is folded with what it is the key of. -/
theorem not_heeds_at_key : ¬ Heeds (ofSeed seed) p4.toNat i := by
  apply not_heedsByte_of_eq (d := 0)
  intro a ha
  have hlong : ¬ UInt64.ofNat p4.toNat ≤ 32 := by decide
  rw [ofBytes_eq_run_body ha, body, if_neg hlong, run_long _ seed (by decide) p4.toNat_lt,
    UInt64.ofNat_toNat, finish, UInt64.xor_self, foldProduct_zero_right]

/-! ## All lengths -/

/-- The bytes that a factor of zero, or of all ones, erases. -/
def Erased (seed : UInt64) (n i : Nat) : Prop :=
  (n < 4 ∧ (seed = p1 ∨ seed = ~~~p1)) ∨ (seed = p3 ∧ 17 ≤ n ∧ n ≤ 24 ∧ 16 ≤ i) ∨ n = p4.toNat

instance (seed : UInt64) (n i : Nat) : Decidable (Erased seed n i) := by
  unfold Erased
  infer_instance

theorem not_heeds_of_erased (hi : i < n) (h : Erased seed n i) : ¬ Heeds (ofSeed seed) n i := by
  rcases h with ⟨hn, hseed⟩ | ⟨rfl, hn, hn', hlast⟩ | rfl
  · exact not_heeds_few hn hi hseed
  · exact not_heeds_last hn hn' hlast
  · exact not_heeds_at_key

theorem heeds_of_not_erased (hi : i < n) (hn : n < 2 ^ 64)
    (h : 9 ≤ n ∨ seed = 0 ∨ seed = p1 ∨ seed = ~~~p1) (herased : ¬ Erased seed n i) :
    Heeds (ofSeed seed) n i := by
  simp only [Erased, not_or] at herased
  obtain ⟨hfew, hlast, hkey⟩ := herased
  by_cases h9 : 9 ≤ n
  · exact heeds_of_nine_le h9 hn hkey hi hlast
  have hturned {g : Nat → UInt8} : _ → Heeds (ofSeed seed) n i :=
    heeds_of_flip (g := g) (eachAlgorithm_readsRange.wyHash (ofSeed seed)) hn
  rcases h.resolve_left h9 with rfl | hkeyed
  · exact hturned (run_unseeded_ne n (by omega) i hi)
  · have hmore : ¬ n < 4 := fun hn => hfew ⟨hn, hkeyed⟩
    exact hturned (run_keyed_ne hkeyed n (by omega) (by omega) i hi)

theorem heedsByte_mixedOf_iff (hi : i < n) (hn : n ≤ 8) :
    HeedsByte (mixedOf seed) n i ↔ ¬ Erased seed n i := by
  have hkey : n ≠ p4.toNat := fun h => absurd (h ▸ hn) (by decide)
  have herased : Erased seed n i ↔ n < 4 ∧ (seed = p1 ∨ seed = ~~~p1) :=
    ⟨fun h => h.resolve_right fun h => h.elim (fun h => by omega) hkey, .inl⟩
  rw [herased]
  constructor
  · exact fun h hfew => not_heedsByte_few hfew.1 hfew.2 h
  · intro h
    by_cases h4 : n < 4
    · exact heedsByte_few h4 hi (fun heq => h ⟨h4, .inl heq⟩) fun heq => h ⟨h4, .inr heq⟩
    by_cases hfront : i < n - 4
    · exact heedsByte_front (by omega) hn hfront
    by_cases hfour : n = 4
    · subst hfour
      exact heedsByte_four hi
    · exact heedsByte_back (by omega) hn (by omega) hi

end Fingerprint.WyHash
