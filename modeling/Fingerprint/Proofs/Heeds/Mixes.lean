import Fingerprint.Proofs.Products
import Fingerprint.Proofs.Runs.WyHash
import Mathlib.Logic.Function.Basic

/-!
# What mixed words can come to

To mix two words gives any word, if the two are chosen for it. And it can be made to give zero until
one bit of either word is turned, or until what it starts from goes from zero to one, and then any
word. The same holds of words mixed two by two, as all pairs but one can be made to give zero.
-/

namespace Fingerprint.WyHash
set_option autoImplicit false

/-! ## Two words -/

section
variable (key1 key2 s : UInt64)

theorem mix_comm (a b : UInt64) : mix key1 key2 s a b = mix key2 key1 s b a :=
  foldProduct_comm _ _

theorem mix_zero (b : UInt64) : mix key1 key2 s (s ^^^ key1) b = 0 := by
  rw [mix, UInt64.xor_assoc, UInt64.xor_self, foldProduct_zero_left]

theorem xor_twice (x a b : UInt64) : x ^^^ (a ^^^ b) ^^^ a ^^^ b = x := by
  rw [UInt64.xor_assoc, UInt64.xor_assoc, UInt64.xor_self, UInt64.xor_zero]

theorem mix_bit {m : Nat} (hm : m < 64) (b : UInt64) :
    mix key1 key2 s (s ^^^ key1 ^^^ bit m) b = rotateLeft (b ^^^ s ^^^ key2) (UInt64.ofNat m) := by
  have hfactor : s ^^^ key1 ^^^ bit m ^^^ s ^^^ key1 = bit m := by
    calc
      _ = bit m ^^^ (s ^^^ s ^^^ (key1 ^^^ key1)) := by ac_rfl
      _ = bit m := by simp
  rw [mix, hfactor, foldProduct_bit hm]

/-- A bit of the first word, turned, turns zero into any word. -/
theorem exists_mix_turned {m : Nat} (hm : m < 64) (x : UInt64) :
    ∃ a b, mix key1 key2 s a b = 0 ∧ mix key1 key2 s (a ^^^ bit m) b = x := by
  refine ⟨s ^^^ key1, rotateLeft x (0 - UInt64.ofNat m) ^^^ (s ^^^ key2), mix_zero _ _ _ _, ?_⟩
  have hround : (0 - UInt64.ofNat m + UInt64.ofNat m : UInt64) = 0 := UInt64.sub_add_cancel _ _
  rw [mix_bit _ _ _ hm, xor_twice, rotateLeft_rotateLeft, hround]
  exact rotateLeft_whole x rfl

theorem exists_mix (x : UInt64) : ∃ a b, mix key1 key2 s a b = x := by
  obtain ⟨a, b, -, h⟩ := exists_mix_turned key1 key2 s (by decide : 0 < 64) x
  exact ⟨_, b, h⟩

theorem exists_mix_zero_zero (s' : UInt64) :
    ∃ a b, mix key1 key2 s a b = 0 ∧ mix key1 key2 s' a b = 0 :=
  ⟨s ^^^ key1, s' ^^^ key2, mix_zero _ _ _ _, by rw [mix_comm, mix_zero]⟩

theorem exists_mix_zero_one (x : UInt64) :
    ∃ a b, mix key1 key2 0 a b = 0 ∧ mix key1 key2 1 a b = x := by
  refine ⟨0 ^^^ key1, x ^^^ (1 ^^^ key2), mix_zero _ _ _ _, ?_⟩
  have hfirst : 0 ^^^ key1 ^^^ 1 ^^^ key1 = 1 := by
    rw [UInt64.zero_xor, UInt64.xor_comm key1, UInt64.xor_assoc, UInt64.xor_self, UInt64.xor_zero]
  rw [mix, hfirst, xor_twice, foldProduct_one_left]

end

/-! ## Rows of words -/

/-- The first `n` of some words, and then others. -/
def splice (n : Nat) (words words' : Nat → UInt64) : Nat → UInt64 := fun k =>
  if k < n then words k else words' (k - n)

def pair (a b : UInt64) : Nat → UInt64 := fun k => if k = 0 then a else b

/-- Turns bit `m` of word `j`. -/
def flipWord (words : Nat → UInt64) (j m : Nat) : Nat → UInt64 :=
  Function.update words j (words j ^^^ bit m)

section
variable {words words' : Nat → UInt64} {n j k m : Nat}

theorem splice_of_lt (h : k < n) : splice n words words' k = words k := if_pos h

theorem splice_add : splice n words words' (n + k) = words' k := by
  rw [splice, if_neg (by omega), Nat.add_sub_cancel_left]

theorem flipWord_self : flipWord words j m j = words j ^^^ bit m := Function.update_self _ _ _

theorem flipWord_of_ne (h : k ≠ j) : flipWord words j m k = words k :=
  Function.update_of_ne h _ _

theorem flipWord_splice_of_lt (h : j < n) :
    flipWord (splice n words words') j m = splice n (flipWord words j m) words' := by
  funext k
  by_cases hk : k = j
  · rw [hk, flipWord_self, splice_of_lt h, splice_of_lt h, flipWord_self]
  · simp only [flipWord_of_ne hk, splice]

theorem flipWord_splice_add :
    flipWord (splice n words words') (n + j) m = splice n words (flipWord words' j m) := by
  funext k
  by_cases hk : k = n + j
  · rw [hk, flipWord_self, splice_add, splice_add, flipWord_self]
  · rw [flipWord_of_ne hk, splice, splice]
    split
    · rfl
    · rw [flipWord_of_ne (by omega)]

theorem exists_mix_pair_turned (key1 key2 s : UInt64) (hj : j < 2) (hm : m < 64) (x : UInt64) :
    ∃ a b, mix key1 key2 s a b = 0 ∧
      mix key1 key2 s (flipWord (pair a b) j m 0) (flipWord (pair a b) j m 1) = x := by
  obtain rfl | rfl : j = 0 ∨ j = 1 := by omega
  · exact exists_mix_turned key1 key2 s hm x
  · obtain ⟨b, a, hclosed, hopen⟩ := exists_mix_turned key2 key1 s hm x
    refine ⟨a, b, ?_, ?_⟩
    · rw [mix_comm, hclosed]
    · rw [mix_comm]
      exact hopen

end

/-! ## Words mixed two by two -/

section
variable {keys : List (UInt64 × UInt64)} {s : UInt64} {words words' : Nat → UInt64}

theorem mixes_congr (h : ∀ k < 2 * keys.length, words k = words' k) :
    mixes keys s words = mixes keys s words' := by
  induction keys generalizing words words' with
  | nil => rfl
  | cons key keys ih =>
    rw [List.length_cons] at h
    rw [mixes, mixes, h 0 (by omega), h 1 (by omega), ih fun k hk => h (2 + k) (by omega)]

theorem mixes_splice_pair (key : UInt64 × UInt64) (a b : UInt64) :
    mixes (key :: keys) s (splice 2 (pair a b) words) =
      mix key.1 key.2 s a b ^^^ mixes keys s words := by
  simp only [mixes, splice_add]
  rfl

theorem exists_mixes_zero_zero (keys : List (UInt64 × UInt64)) (s s' : UInt64) :
    ∃ words, mixes keys s words = 0 ∧ mixes keys s' words = 0 := by
  induction keys with
  | nil => exact ⟨fun _ => 0, rfl, rfl⟩
  | cons key keys ih =>
    obtain ⟨words, hs, hs'⟩ := ih
    obtain ⟨a, b, ha, hb⟩ := exists_mix_zero_zero key.1 key.2 s s'
    refine ⟨splice 2 (pair a b) words, ?_, ?_⟩
    · rw [mixes_splice_pair, ha, hs, UInt64.xor_zero]
    · rw [mixes_splice_pair, hb, hs', UInt64.xor_zero]

theorem exists_mixes (h : keys ≠ []) (s x : UInt64) : ∃ words, mixes keys s words = x := by
  obtain ⟨key, keys, rfl⟩ := List.exists_cons_of_ne_nil h
  obtain ⟨words, hwords, -⟩ := exists_mixes_zero_zero keys s s
  obtain ⟨a, b, hx⟩ := exists_mix key.1 key.2 s x
  exact ⟨splice 2 (pair a b) words, by rw [mixes_splice_pair, hx, hwords, UInt64.xor_zero]⟩

theorem exists_mixes_zero_one (h : keys ≠ []) (x : UInt64) :
    ∃ words, mixes keys 0 words = 0 ∧ mixes keys 1 words = x := by
  obtain ⟨key, keys, rfl⟩ := List.exists_cons_of_ne_nil h
  obtain ⟨words, hzero, hone⟩ := exists_mixes_zero_zero keys 0 1
  obtain ⟨a, b, ha, hb⟩ := exists_mix_zero_one key.1 key.2 x
  refine ⟨splice 2 (pair a b) words, ?_, ?_⟩
  · rw [mixes_splice_pair, ha, hzero, UInt64.xor_zero]
  · rw [mixes_splice_pair, hb, hone, UInt64.xor_zero]

/-- A bit of any of the words, turned, turns zero into any word. -/
theorem exists_mixes_turned {j m : Nat} (hj : j < 2 * keys.length) (hm : m < 64) (s x : UInt64) :
    ∃ words, mixes keys s words = 0 ∧ mixes keys s (flipWord words j m) = x := by
  induction keys generalizing j with
  | nil => exact absurd hj (Nat.not_lt_zero j)
  | cons key keys ih =>
    rw [List.length_cons] at hj
    by_cases hfirst : j < 2
    · obtain ⟨words, hwords, -⟩ := exists_mixes_zero_zero keys s s
      obtain ⟨a, b, hclosed, hopen⟩ := exists_mix_pair_turned key.1 key.2 s hfirst hm x
      refine ⟨splice 2 (pair a b) words, ?_, ?_⟩
      · rw [mixes_splice_pair, hclosed, hwords, UInt64.xor_zero]
      · rw [flipWord_splice_of_lt hfirst, mixes, splice_of_lt (by decide), splice_of_lt (by decide),
          hopen]
        simp only [splice_add, hwords, UInt64.xor_zero]
    · obtain ⟨i, rfl⟩ : ∃ i, j = 2 + i := ⟨j - 2, by omega⟩
      obtain ⟨words, hclosed, hopen⟩ := ih (j := i) (by omega)
      obtain ⟨a, b, hzero, -⟩ := exists_mix_zero_zero key.1 key.2 s s
      refine ⟨splice 2 (pair a b) words, ?_, ?_⟩
      · rw [mixes_splice_pair, hzero, hclosed, UInt64.xor_zero]
      · rw [flipWord_splice_add, mixes_splice_pair, hzero, hopen, UInt64.zero_xor]

end

end Fingerprint.WyHash
