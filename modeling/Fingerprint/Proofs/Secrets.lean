import Fingerprint.XXH3.Narrow
import Fingerprint.Proofs.Injective.Images
import Fingerprint.Proofs.Runs.Courses
import Mathlib.Data.List.GetD

/-!
# Seeds and derived secrets

The secret of a seed is the default secret with the seed worked into its words: added to the even ones
and subtracted from the odd ones. A keyed mix of 16 bytes does the same to the two words it takes. So
where a mix takes its words in step with the secret, it makes no difference whether the seed is given
beside the default secret or has gone into a secret of its own.
-/

namespace Fingerprint
open Plan
set_option autoImplicit false

/-! ## Rows of bytes -/

namespace Bytes

theorem getD_slice {f : Nat → UInt8} {start count i : Nat} (hi : i < count) :
    (slice f start count).getD i 0 = f (start + i) := by
  induction count generalizing start i with
  | zero => omega
  | succ count ih =>
    cases i with
    | zero => rfl
    | succ i =>
      rw [slice, List.getD_cons_succ, ih (Nat.lt_of_succ_lt_succ hi), Nat.add_right_comm,
        Nat.add_assoc]

/-- A slice is known by its bytes. -/
theorem slice_eq_of_getD {f : Nat → UInt8} {start count : Nat} {row : List UInt8}
    (hlen : row.length = count) (h : ∀ i, i < count → f (start + i) = row.getD i 0) :
    slice f start count = row := by
  induction row generalizing start count with
  | nil =>
    subst hlen
    rfl
  | cons b row ih =>
    subst hlen
    have hfirst : f start = b := h 0 (Nat.succ_pos _)
    have hrest : slice f (start + 1) row.length = row := by
      apply ih rfl
      intro i hi
      rw [Nat.add_assoc, Nat.add_comm 1]
      exact h (i + 1) (Nat.succ_lt_succ hi)
    rw [List.length_cons, slice, hfirst, hrest]

end Bytes

namespace XXH3.Secret

/-! ## The words of a secret -/

theorem getD_toArray (s : Secret) {i : Nat} (hi : i < 192) : s.toArray.getD i 0 = s[i] := by
  rw [Array.getD, dif_pos (by simpa using hi)]
  rfl

theorem digits_word (s : Secret) {o : Nat} (ho : o < 2 ^ 64) :
    Bytes.digits 8 (s.word o).toNat = Bytes.slice (fun i => s.toArray.getD i 0) o 8 := by
  have hplace : (UInt64.ofNat o).toNat = o := UInt64.toNat_ofNat_of_lt' ho
  rw [word, toNat_tableWord, hplace]
  have hdigits := Bytes.digits_value (Bytes.slice (fun i => s.toArray.getD i 0) o 8)
  rwa [Bytes.length_slice] at hdigits

/-- Byte `b` of a word, least significant first. -/
def byteOf (x : UInt64) (b : Nat) : UInt8 := (Bytes.digits 8 x.toNat).getD b 0

/-- A word of a secret is known by its bytes. -/
theorem word_eq_of_bytes {s : Secret} {o : Nat} {x : UInt64} (ho : o < 2 ^ 64)
    (h : ∀ b, b < 8 → s.toArray.getD (o + b) 0 = byteOf x b) : s.word o = x := by
  have hplace : (UInt64.ofNat o).toNat = o := UInt64.toNat_ofNat_of_lt' ho
  have hslice : Bytes.slice (fun i => s.toArray.getD i 0) o 8 = Bytes.digits 8 x.toNat :=
    Bytes.slice_eq_of_getD (Bytes.length_digits 8 x.toNat) h
  apply UInt64.toNat.inj
  rw [word, toNat_tableWord, hplace, Width.bytes_eight, hslice, Bytes.value_digits]
  exact Nat.mod_eq_of_lt x.toNat_lt

/-! ## Byte by byte -/

/-- Byte `j` of two words in a row. -/
def byteOfPair (low high : UInt64) (j : Nat) : UInt8 :=
  (Bytes.digits 8 low.toNat ++ Bytes.digits 8 high.toNat).getD j 0

def lowWord (seed : UInt64) (k : Nat) : UInt64 := default.word (16 * k) + seed

def highWord (seed : UInt64) (k : Nat) : UInt64 := default.word (16 * k + 8) - seed

/-- Writes byte `b` of both words of pair `k`. -/
def writeByte (low high : UInt64) (k : Nat) (s : Secret) (b : Nat) : Secret :=
  (s.setIfInBounds (16 * k + b) (byteOf low b)).setIfInBounds (16 * k + 8 + b) (byteOf high b)

/-- Writes pair `k`, the seed added to its first word and subtracted from its second. -/
def writePair (seed : UInt64) (s : Secret) (k : Nat) : Secret :=
  (List.range 8).foldl (writeByte (lowWord seed k) (highWord seed k) k) s

/-- The secret of a seed, written byte by byte into a table of zeros. -/
def written (seed : UInt64) : Secret :=
  (List.range 12).foldl (writePair seed) (Vector.replicate 192 0)

/-- Byte `i` of the secret of a seed. -/
def keyedByte (seed : UInt64) (i : Nat) : UInt8 :=
  byteOfPair (lowWord seed (i / 16)) (highWord seed (i / 16)) (i % 16)

section
variable (low high : UInt64) {b i : Nat}

theorem byteOfPair_low (hb : b < 8) : byteOfPair low high b = byteOf low b :=
  List.getD_append _ _ _ _ (by rwa [Bytes.length_digits])

theorem byteOfPair_high : byteOfPair low high (8 + b) = byteOf high b := by
  rw [byteOfPair, List.getD_append_right _ _ _ _ (by rw [Bytes.length_digits]; omega),
    Bytes.length_digits, Nat.add_sub_cancel_left]
  rfl

theorem getElem_writeByte (k : Nat) (s : Secret) (b : Nat) (hi : i < 192) :
    (writeByte low high k s b)[i] =
      if 16 * k + 8 + b = i then byteOf high b
      else if 16 * k + b = i then byteOf low b else s[i] := by
  rw [writeByte, Vector.getElem_setIfInBounds, Vector.getElem_setIfInBounds]

/-- After some bytes of a pair have been written, these stand in both words, and nothing else has
changed. -/
theorem getElem_writeBytes (k : Nat) (s : Secret) (hi : i < 192) {n : Nat} (hn : n ≤ 8) :
    ((List.range n).foldl (writeByte low high k) s)[i] =
      if i / 16 = k ∧ i % 8 < n then byteOfPair low high (i % 16) else s[i] := by
  -- the same byte of both words is written at once, so what is there is told by `i % 8`
  induction n with
  | zero =>
    rw [if_neg (by omega)]
    rfl
  | succ n ih =>
    rw [List.range_succ, List.foldl_append, List.foldl_cons, List.foldl_nil, getElem_writeByte]
    by_cases hhigh : 16 * k + 8 + n = i
    · have hplace : i % 16 = 8 + n := by omega
      rw [if_pos hhigh, if_pos (by omega), hplace, byteOfPair_high]
    · rw [if_neg hhigh]
      by_cases hlow : 16 * k + n = i
      · have hplace : i % 16 = n := by omega
        rw [if_pos hlow, if_pos (by omega), hplace, byteOfPair_low _ _ (by omega)]
      · have hsame : i / 16 = k ∧ i % 8 < n + 1 ↔ i / 16 = k ∧ i % 8 < n := by omega
        rw [if_neg hlow, ih (by omega), if_congr hsame rfl rfl]

end

section
variable (seed : UInt64) {i : Nat}

theorem getElem_writePair (s : Secret) (k : Nat) (hi : i < 192) :
    (writePair seed s k)[i] = if i / 16 = k then keyedByte seed i else s[i] := by
  have hall : i / 16 = k ∧ i % 8 < 8 ↔ i / 16 = k := by omega
  rw [writePair, getElem_writeBytes _ _ _ _ hi (Nat.le_refl 8), if_congr hall rfl rfl]
  split
  · rename_i hk
    rw [keyedByte, hk]
  · rfl

/-- After some pairs have been written, their bytes stand in the table, and zeros beyond. -/
theorem getElem_writePairs (hi : i < 192) (n : Nat) :
    ((List.range n).foldl (writePair seed) (Vector.replicate 192 0))[i] =
      if i / 16 < n then keyedByte seed i else 0 := by
  induction n with
  | zero =>
    rw [if_neg (Nat.not_lt_zero _)]
    exact Vector.getElem_replicate hi
  | succ n ih =>
    rw [List.range_succ, List.foldl_append, List.foldl_cons, List.foldl_nil, getElem_writePair, ih]
    by_cases hn : i / 16 = n
    · rw [if_pos hn, if_pos (by omega)]
    · have hsame : i / 16 < n ↔ i / 16 < n + 1 := by omega
      rw [if_neg hn, if_congr hsame rfl rfl]

theorem getElem_written (hi : i < 192) : (written seed)[i] = keyedByte seed i := by
  rw [written, getElem_writePairs seed hi, if_pos (by omega)]

/-- The seed zero leaves every byte as it is. -/
theorem keyedByte_zero (hi : i < 192) : keyedByte 0 i = default[i] := by
  have hplace : 16 * (i / 16) + i % 16 = i := Nat.div_add_mod i 16
  have hpair := Bytes.slice_append (fun i => default.toArray.getD i 0) (16 * (i / 16)) 8 8
  rw [keyedByte, lowWord, highWord, UInt64.add_zero, UInt64.sub_zero, byteOfPair,
    digits_word default (by omega), digits_word default (by omega), ← hpair,
    Bytes.getD_slice (Nat.mod_lt i (by decide)), hplace, getD_toArray default hi]

theorem derive_of_ne_zero {seed : UInt64} (h : seed ≠ 0) (hi : i < 192) :
    (derive seed)[i] = keyedByte seed i := by
  simp only [derive, if_neg h, Vector.getElem_ofFn, keyedByte, byteOfPair, lowWord, highWord,
    Nat.mul_comm 16]

/-- The secret of a seed is the one written byte by byte. For the seed zero the default secret is taken
as it is, which comes to the same. -/
theorem derive_eq_written : derive seed = written seed := by
  apply Vector.ext
  intro i hi
  rw [getElem_written seed hi]
  by_cases hseed : seed = 0
  · rw [hseed, keyedByte_zero hi]
    rfl
  · exact derive_of_ne_zero hseed hi

theorem getD_derive (hi : i < 192) : (derive seed).toArray.getD i 0 = keyedByte seed i := by
  rw [derive_eq_written, getD_toArray _ hi, getElem_written]

theorem word_derive_low {k : Nat} (hk : k < 12) :
    (derive seed).word (16 * k) = default.word (16 * k) + seed := by
  apply word_eq_of_bytes (by omega)
  intro b hb
  have hdiv : (16 * k + b) / 16 = k := by omega
  have hmod : (16 * k + b) % 16 = b := by omega
  rw [getD_derive seed (by omega), keyedByte, hdiv, hmod, byteOfPair_low _ _ hb]
  rfl

theorem word_derive_high {k : Nat} (hk : k < 12) :
    (derive seed).word (16 * k + 8) = default.word (16 * k + 8) - seed := by
  apply word_eq_of_bytes (by omega)
  intro b hb
  have hdiv : (16 * k + 8 + b) / 16 = k := by omega
  have hmod : (16 * k + 8 + b) % 16 = 8 + b := by omega
  rw [getD_derive seed (by omega), keyedByte, hdiv, hmod, byteOfPair_high]
  rfl

end

end XXH3.Secret

namespace XXH3
open HashFunction

variable {σ : Type} {len p o : UInt64}

/-! ## Keyed mixes -/

theorem key_sameCourse (secret : Secret) (h : o.toNat + 8 ≤ 192) :
    SameCourse (key secret o) (pure (secret.word o.toNat)) where
  run_eq _ := by rw [Secret.word, UInt64.ofNat_toNat]; rfl
  attempt_eq _ := by
    rw [Secret.word, UInt64.ofNat_toNat]
    exact if_pos (by simpa using h)

/-- A mix of 16 bytes whose two words of the secret are given. -/
def mixWith (keyLow keyHigh seed p : UInt64) : Plan UInt64 := do
  let low ← u64 p
  let high ← u64 (← add p 8)
  return mixPair keyLow keyHigh seed low high

theorem mix16_sameCourse (secret : Secret) (seed : UInt64) (h : o.toNat + 16 ≤ 192) :
    SameCourse (mix16 secret seed p o)
      (mixWith (secret.word o.toNat) (secret.word (o.toNat + 8)) seed p) := by
  have h8 : (8 : UInt64).toNat = 8 := rfl
  have hsum : o.toNat + (8 : UInt64).toNat < 2 ^ 64 := by omega
  have hnext : (o + 8).toNat = o.toNat + 8 := toNat_add_of_lt hsum
  have hlast : SameCourse (key secret (o + 8)) (pure (secret.word (o.toNat + 8))) := by
    rw [← hnext]
    exact key_sameCourse secret (by omega)
  refine (SameCourse.refl (u64 p)).bind fun low => ?_
  refine (SameCourse.refl (add p 8)).bind fun place => ?_
  refine (SameCourse.refl (u64 place)).bind fun high => ?_
  refine ((key_sameCourse secret (by omega)).known _).trans ?_
  refine ((SameCourse.add hsum).known _).trans ?_
  exact hlast.known _

/-- A mix adds the seed where the derived secret has it added already, and likewise subtracts it. -/
theorem mixPair_keyed (keyLow keyHigh seed low high : UInt64) :
    mixPair keyLow keyHigh seed low high = mixPair (keyLow + seed) (keyHigh - seed) 0 low high := by
  rw [mixPair, mixPair, UInt64.add_zero, UInt64.sub_zero]

theorem mixWith_keyed (keyLow keyHigh seed p : UInt64) :
    mixWith keyLow keyHigh seed p = mixWith (keyLow + seed) (keyHigh - seed) 0 p := by
  simp only [mixWith, mixPair_keyed keyLow keyHigh seed]

section
variable (seed : UInt64)

/-- In step with the secret, a mix with the seed and the default secret is one with the secret of the
seed and no seed. -/
theorem mix16_derive (p : UInt64) (hstep : o.toNat % 16 = 0) (h : o.toNat + 16 ≤ 192) :
    SameCourse (mix16 .default seed p o) (mix16 (.derive seed) 0 p o) := by
  obtain ⟨k, hk⟩ : ∃ k, o.toNat = 16 * k := ⟨o.toNat / 16, by omega⟩
  have hfits : k < 12 := by omega
  apply (mix16_sameCourse .default seed h).trans
  apply SameCourse.trans _ (mix16_sameCourse (.derive seed) 0 h).symm
  rw [hk, Secret.word_derive_low seed hfits, Secret.word_derive_high seed hfits, mixWith_keyed]
  exact .refl _

/-! ## 17 to 128 bytes -/

section
variable {step step' : UInt64 → UInt64 → UInt64 → σ → Plan σ} {least : UInt64}

theorem stepAt_sameCourse (len front back : UInt64)
    (h : ∀ p q s, SameCourse (step p q least s) (step' p q least s)) (s : σ) :
    SameCourse (stepAt len step least front back s) (stepAt len step' least front back s) := by
  unfold stepAt
  split
  · exact (SameCourse.refl (sub len back)).bind fun q => h front q s
  · exact .refl _

/-- The walk takes the secret 32 bytes at a time. -/
theorem fromBothEnds_sameCourse
    (h : ∀ p q o s, o.toNat % 16 = 0 → o.toNat + 32 ≤ 192 →
      SameCourse (step p q o s) (step' p q o s)) (s : σ) :
    SameCourse (fromBothEnds len step s) (fromBothEnds len step' s) := by
  have h96 := stepAt_sameCourse len 48 64 fun p q s => h p q 96 s (by decide) (by decide)
  have h64 := stepAt_sameCourse len 32 48 fun p q s => h p q 64 s (by decide) (by decide)
  have h32 := stepAt_sameCourse len 16 32 fun p q s => h p q 32 s (by decide) (by decide)
  refine (h96 s).bind fun s => ?_
  refine (h64 s).bind fun s => ?_
  refine (h32 s).bind fun s => ?_
  exact (SameCourse.refl (sub len 16)).bind fun q => h 0 q 0 s (by decide) (by decide)

end

namespace Narrow

theorem addMix_derive (p sum : UInt64) (hstep : o.toNat % 16 = 0) (h : o.toNat + 16 ≤ 192) :
    SameCourse (addMix .default seed p o sum) (addMix (.derive seed) 0 p o sum) :=
  (mix16_derive seed p hstep h).bind fun _ => .refl _

theorem addBoth_derive (p q sum : UInt64) (hstep : o.toNat % 16 = 0) (h : o.toNat + 32 ≤ 192) :
    SameCourse (addBoth .default seed p q o sum) (addBoth (.derive seed) 0 p q o sum) := by
  have h16 : (16 : UInt64).toNat = 16 := rfl
  have hsum : o.toNat + (16 : UInt64).toNat < 2 ^ 64 := by omega
  have hnext : (o + 16).toNat = o.toNat + 16 := toNat_add_of_lt hsum
  refine (addMix_derive seed p sum hstep (by omega)).bind fun sum => ?_
  refine ((SameCourse.add hsum).known _).trans ?_
  refine (addMix_derive seed q sum (by omega) (by omega)).trans ?_
  exact ((SameCourse.add hsum).known fun o => addMix (.derive seed) 0 q o sum).symm

theorem of17to128_derive (len : UInt64) :
    SameCourse (of17to128 .default seed len) (of17to128 (.derive seed) 0 len) :=
  (fromBothEnds_sameCourse (fun p q _ sum => addBoth_derive seed p q sum) _).bind fun _ => .refl _

theorem body_eq_of17to128 (hlow : 17 ≤ len) (hhigh : len ≤ 128) :
    body seed len = of17to128 .default seed len := by
  have h16 : ¬ len ≤ 16 := UInt64.not_le.2 (UInt64.lt_of_lt_of_le (by decide) hlow)
  rw [body, if_neg h16, if_pos hhigh]

theorem digest_eq_of17to128 {ι : Type} (r : Reader ι) (x : ι) (offset : UInt64)
    (hlow : 17 ≤ len) (hhigh : len ≤ 128) :
    digest (ofSeed seed) r x offset len =
      Plan.over (of17to128 (.derive seed) 0) r x offset len := by
  have hbody := body_eq_of17to128 seed hlow hhigh
  change (body seed len).run _ = _
  rw [hbody]
  exact (of17to128_derive seed len).run_eq _

end Narrow

/-- Seed and derived secret are interchangeable. The secret of every seed, written byte by byte, has the
words of the default secret with the seed added and subtracted in turn; so in step with the secret, a
mix of 16 bytes comes to the same with the seed and the default secret as with no seed and the secret of
the seed; and so do ranges of 17 to 128 bytes, whatever reader they are read by. -/
theorem derive_interchangeable :
    (.derive seed = Secret.written seed ∧ Secret.written 0 = .default) ∧
    (∀ k, k < 12 →
      (Secret.derive seed).word (16 * k) = Secret.default.word (16 * k) + seed ∧
      (Secret.derive seed).word (16 * k + 8) = Secret.default.word (16 * k + 8) - seed) ∧
    (∀ p o : UInt64, o.toNat % 16 = 0 → o.toNat + 16 ≤ 192 →
      SameCourse (mix16 .default seed p o) (mix16 (.derive seed) 0 p o)) ∧
    (∀ len, SameCourse (Narrow.of17to128 .default seed len)
      (Narrow.of17to128 (.derive seed) 0 len)) ∧
    ∀ {ι : Type} (r : Reader ι) (x : ι) (offset len : UInt64), 17 ≤ len → len ≤ 128 →
      digest (Narrow.ofSeed seed) r x offset len =
        Plan.over (Narrow.of17to128 (.derive seed) 0) r x offset len := by
  have hzero : Secret.written 0 = .default := (Secret.derive_eq_written 0).symm
  refine ⟨⟨Secret.derive_eq_written seed, hzero⟩, ?_, ?_, Narrow.of17to128_derive seed, ?_⟩
  · intro k hk
    exact ⟨Secret.word_derive_low seed hk, Secret.word_derive_high seed hk⟩
  · intro p o hstep h
    exact mix16_derive seed p hstep h
  · intro ι r x offset len hlow hhigh
    exact Narrow.digest_eq_of17to128 seed r x offset hlow hhigh

theorem derive_interchangeable_fortyFive :
    (Secret.derive 7).word 176 = Secret.default.word 176 + 7 ∧
      SameCourse (mix16 .default 7 29 16) (mix16 (.derive 7) 0 29 16) ∧
      ofBytes (Narrow.ofSeed 7) (Array.replicate 45 1) =
        Plan.overBytes (Narrow.of17to128 (.derive 7) 0) (Array.replicate 45 1) := by
  obtain ⟨_, hwords, hmixes, _, hdigests⟩ := derive_interchangeable 7
  have hdigest := hdigests Reader.memory (Array.replicate 45 (1 : UInt8)) 0 45 (by decide) (by decide)
  exact ⟨(hwords 11 (by decide)).1, hmixes 29 16 (by decide) (by decide), hdigest⟩

end

end XXH3

end Fingerprint
