import Fingerprint.Proofs.Injective.Folds
import Fingerprint.Proofs.Injective.Rotations
import Fingerprint.Proofs.Injective.Words
import Fingerprint.Proofs.Runs.MurmurBlocks

/-!
# MurmurHash keeps a change that stays within one block

Every step on the two lanes can be undone: the finish for the length, a block for its words, and so can
what is done with the rest. So two digests that are equal come of equal states all the way back to where
the arrays differ, and there of equal words.
-/

namespace Fingerprint
open HashFunction Plan
set_option autoImplicit false

namespace MurmurHash

/-! ## The steps undone -/

theorem avalanche_injective : Function.Injective avalanche := by
  intro x y h
  have h := xorShift_injective (by decide) (by decide) h
  have h := mul_injective_of_odd (by decide) h
  have h := xorShift_injective (by decide) (by decide) h
  have h := mul_injective_of_odd (by decide) h
  exact xorShift_injective (by decide) (by decide) h

theorem scramble1_injective : Function.Injective scramble1 := by
  intro x y h
  have h := mul_injective_of_odd (by decide) h
  exact mul_injective_of_odd (by decide) (rotateLeft_injective 31 h)

theorem scramble2_injective : Function.Injective scramble2 := by
  intro x y h
  have h := mul_injective_of_odd (by decide) h
  exact mul_injective_of_odd (by decide) (rotateLeft_injective 33 h)

theorem finish_inj {len len' : UInt64} {s s' : State} (h : finish len s = finish len' s') :
    s.h1 ^^^ len = s'.h1 ^^^ len' ∧ s.h2 ^^^ len = s'.h2 ^^^ len' := by
  have hlow := congrArg Digest128.low h
  have hhigh := congrArg Digest128.high h
  dsimp only [finish] at hlow hhigh
  -- The lanes were added to each other twice; the sum last made is known, and gives the other back.
  rw [hlow, UInt64.add_left_inj] at hhigh
  rw [hhigh, UInt64.add_left_inj] at hlow
  have hfirst := avalanche_injective hlow
  have hsecond := avalanche_injective hhigh
  rw [hfirst, UInt64.add_left_inj] at hsecond
  rw [hsecond, UInt64.add_left_inj] at hfirst
  exact ⟨hfirst, hsecond⟩

theorem finish_injective (len : UInt64) : Function.Injective (finish len) := by
  rintro ⟨h1, h2⟩ ⟨h1', h2'⟩ h
  obtain ⟨hfirst, hsecond⟩ := finish_inj h
  have hfirst : h1 = h1' := (UInt64.xor_left_inj _).1 hfirst
  have hsecond : h2 = h2' := (UInt64.xor_left_inj _).1 hsecond
  rw [hfirst, hsecond]

theorem block_inj {k1 k2 k1' k2' : UInt64} {s s' : State} (h : block k1 k2 s = block k1' k2' s') :
    s.h2 ^^^ scramble2 k2 = s'.h2 ^^^ scramble2 k2' ∧
      rotateLeft (s.h1 ^^^ scramble1 k1) 27 + s.h2 =
        rotateLeft (s'.h1 ^^^ scramble1 k1') 27 + s'.h2 := by
  have hfirst := congrArg State.h1 h
  have hsecond := congrArg State.h2 h
  dsimp only [block] at hfirst hsecond
  rw [hfirst, UInt64.add_left_inj] at hsecond
  have hsecond := (UInt64.add_left_inj _).1 (mul_injective_of_odd (by decide) hsecond)
  have hfirst := mul_injective_of_odd (by decide) ((UInt64.add_left_inj _).1 hfirst)
  exact ⟨rotateLeft_injective 31 hsecond, hfirst⟩

theorem block_injective (k1 k2 : UInt64) : Function.Injective (block k1 k2) := by
  rintro ⟨h1, h2⟩ ⟨h1', h2'⟩ h
  obtain ⟨hsecond, hfirst⟩ := block_inj h
  have hsecond : h2 = h2' := (UInt64.xor_left_inj _).1 hsecond
  subst hsecond
  have hfirst := rotateLeft_injective 27 ((UInt64.add_left_inj _).1 hfirst)
  have hfirst : h1 = h1' := (UInt64.xor_left_inj _).1 hfirst
  rw [hfirst]

theorem block_words_inj {k1 k2 k1' k2' : UInt64} {s : State}
    (h : block k1 k2 s = block k1' k2' s) : k1 = k1' ∧ k2 = k2' := by
  obtain ⟨hsecond, hfirst⟩ := block_inj h
  have hfirst := rotateLeft_injective 27 ((UInt64.add_left_inj _).1 hfirst)
  exact ⟨scramble1_injective ((UInt64.xor_right_inj _).1 hfirst),
    scramble2_injective ((UInt64.xor_right_inj _).1 hsecond)⟩

theorem takeRest_injective (k1 k2 : UInt64) : Function.Injective (takeRest k1 k2) := by
  rintro ⟨h1, h2⟩ ⟨h1', h2'⟩ h
  obtain ⟨hfirst, hsecond⟩ := State.mk.inj h
  have hfirst : h1 = h1' := (UInt64.xor_left_inj _).1 hfirst
  have hsecond : h2 = h2' := (UInt64.xor_left_inj _).1 hsecond
  rw [hfirst, hsecond]

theorem takeRest_words_inj {k1 k2 k1' k2' : UInt64} {s : State}
    (h : takeRest k1 k2 s = takeRest k1' k2' s) : k1 = k1' ∧ k2 = k2' := by
  obtain ⟨hfirst, hsecond⟩ := State.mk.inj h
  exact ⟨scramble1_injective ((UInt64.xor_right_inj _).1 hfirst),
    scramble2_injective ((UInt64.xor_right_inj _).1 hsecond)⟩

/-! ## Sixteen bytes at a time -/

section
variable {a b : Array UInt8} {i : Nat}

theorem absorb_injective (a : Array UInt8) (i : Nat) : Function.Injective (absorb a i) := by
  rw [absorb]
  split
  · exact block_injective _ _
  · exact takeRest_injective _ _

theorem absorb_words_inj (hsize : b.size = a.size) {s : State} (h : absorb a i s = absorb b i s) :
    firstWordAt a i = firstWordAt b i ∧ secondWordAt a i = secondWordAt b i := by
  rw [absorb, absorb, hsize] at h
  split at h
  · exact block_words_inj h
  · exact takeRest_words_inj h

theorem absorb_congr (hblocks : a.size / 16 = b.size / 16) (hi : i ≤ a.size / 16)
    (hsize : a.size < 2 ^ 64) (h : ∀ j, j / 16 = i → a.getD j 0 = b.getD j 0) :
    absorb a i = absorb b i := by
  obtain ⟨hplace, hplace'⟩ := toNat_place hi hsize
  have hfirst : firstWordAt a i = firstWordAt b i := by
    apply tableWord_congr
    intro j hj hj'
    rw [Width.bytes_eight] at hj'
    exact h j (by omega)
  have hsecond : secondWordAt a i = secondWordAt b i := by
    apply tableWord_congr
    intro j hj hj'
    rw [Width.bytes_eight] at hj'
    exact h j (by omega)
  rw [absorb, absorb, hblocks, hfirst, hsecond]

/-- The bytes that two words were read from. -/
theorem getD_eq_of_words_eq (hsize : a.size < 2 ^ 64) (hi : i ≤ a.size / 16)
    (hfirst : firstWordAt a i = firstWordAt b i) (hsecond : secondWordAt a i = secondWordAt b i)
    {j : Nat} (hj : j / 16 = i) : a.getD j 0 = b.getD j 0 := by
  obtain ⟨hplace, hplace'⟩ := toNat_place hi hsize
  by_cases hhalf : j < 16 * i + 8
  · obtain ⟨m, rfl⟩ : ∃ m, j = 16 * i + m := ⟨j - 16 * i, by omega⟩
    have hbyte := getD_eq_of_tableWord_eq hfirst (i := m) (by rw [Width.bytes_eight]; omega)
    rwa [hplace] at hbyte
  · obtain ⟨m, rfl⟩ : ∃ m, j = 16 * i + 8 + m := ⟨j - (16 * i + 8), by omega⟩
    have hbyte := getD_eq_of_tableWord_eq hsecond (i := m) (by rw [Width.bytes_eight]; omega)
    rwa [hplace'] at hbyte

end

/-! ## Digests -/

section
variable (f : MurmurHash) {a b : Array UInt8} {k : Nat}

theorem eq_of_ofBytes_eq (hsize : a.size < 2 ^ 64) (hsizes : b.size = a.size)
    (hsame : ∀ i, i / 16 ≠ k → a.getD i 0 = b.getD i 0) (h : ofBytes f a = ofBytes f b) :
    a = b := by
  rw [ofBytes_eq_finish f hsize, ofBytes_eq_finish f (hsizes ▸ hsize), hsizes] at h
  have hstates := finish_injective _ h
  apply eq_of_getD_eq hsizes.symm
  intro i hi
  by_cases hik : i / 16 ≠ k
  · exact hsame i hik
  rw [not_ne_iff] at hik
  have hk : k ∈ List.range (a.size / 16 + 1) := List.mem_range.2 (by omega)
  rw [absorbed, absorbed, hsizes] at hstates
  obtain ⟨t, ht⟩ := exists_step_eq_of_foldl_eq List.nodup_range hk
    (fun j hj hjk => absorb_congr (by rw [hsizes]) (Nat.le_of_lt_succ (List.mem_range.1 hj)) hsize
      fun m hm => hsame m (hm ▸ hjk))
    (fun j _ => absorb_injective a j) hstates
  obtain ⟨hfirst, hsecond⟩ := absorb_words_inj hsizes ht
  exact getD_eq_of_words_eq hsize (by omega) hfirst hsecond hik

theorem size_eq_of_ofBytes_append_zeros (hsize : a.size + k < 2 ^ 64)
    (hblocks : (a.size + k) / 16 = a.size / 16)
    (h : ofBytes f (a ++ Array.replicate k 0) = ofBytes f a) : k = 0 := by
  have hmore : (a ++ Array.replicate k 0).size = a.size + k := by simp
  have hstates : absorbed f.seed (a ++ Array.replicate k 0) = absorbed f.seed a := by
    rw [absorbed, absorbed, hmore, hblocks]
    apply List.foldl_ext
    intro s i hi
    have hi := List.mem_range.1 hi
    rw [absorb_congr (hmore ▸ hblocks) (by omega) (hmore ▸ hsize)
      fun j _ => getD_append_zeros a k j]
  rw [ofBytes_eq_finish f (hmore ▸ hsize), ofBytes_eq_finish f (by omega), hstates, hmore] at h
  have hlens := congrArg UInt64.toNat ((UInt64.xor_right_inj _).1 (finish_inj h).1)
  rw [UInt64.toNat_ofNat', UInt64.toNat_ofNat', Nat.mod_eq_of_lt hsize,
    Nat.mod_eq_of_lt (by omega)] at hlens
  omega

/-- Two arrays of one size that differ, and do so within one block of sixteen bytes or within what is
left after the blocks, have different digests. To append zeros that complete no block changes the
digest too. -/
theorem blockChanges_kept :
    (∀ (a b : Array UInt8) (k : Nat), a.size < 2 ^ 64 → b.size = a.size →
      (∀ i, i / 16 ≠ k → a[i]? = b[i]?) → a ≠ b → ofBytes f a ≠ ofBytes f b) ∧
    ∀ (a : Array UInt8) (k : Nat), 1 ≤ k → a.size + k < 2 ^ 64 →
      (a.size + k) / 16 = a.size / 16 →
        ofBytes f (a ++ Array.replicate k 0) ≠ ofBytes f a := by
  constructor
  · intro a b k hsize hsizes hsame hne h
    have hbytes : ∀ i, i / 16 ≠ k → a.getD i 0 = b.getD i 0 := by
      intro i hi
      rw [Array.getD_eq_getD_getElem?, Array.getD_eq_getD_getElem?, hsame i hi]
    exact hne (eq_of_ofBytes_eq f hsize hsizes hbytes h)
  · intro a k hk hsize hblocks h
    have hnone := size_eq_of_ofBytes_append_zeros f hsize hblocks h
    omega

/-- A byte changed in the rest of twenty, and three zeros after two bytes. -/
theorem blockChanges_kept_twenty_two :
    let changed := (Array.replicate 20 1).setIfInBounds 17 5
    ofBytes (ofSeed 7) (Array.replicate 20 1) ≠ ofBytes (ofSeed 7) changed ∧
      ofBytes (ofSeed 7) (#[1, 2] ++ Array.replicate 3 0) ≠ ofBytes (ofSeed 7) #[1, 2] := by
  obtain ⟨hblock, hzeros⟩ := blockChanges_kept (ofSeed 7)
  have hsame : ∀ i, i / 16 ≠ 1 →
      (Array.replicate 20 (1 : UInt8))[i]? =
        ((Array.replicate 20 1).setIfInBounds 17 5)[i]? := by
    intro i hi
    rw [Array.getElem?_setIfInBounds_ne (by omega)]
  exact ⟨hblock _ _ 1 (by decide) (by decide) hsame (by decide),
    hzeros _ 3 (by decide) (by decide) (by decide)⟩

end

end MurmurHash

end Fingerprint
