import Fingerprint.Function.Wide
import Fingerprint.MurmurHash

/-!
# Digests written into arrays

A checked form writes all of a digest or nothing: where the array is long enough it leaves the digest
of the form by value in the first two places and every later place as it was, and where it is not, it
refuses and leaves the whole array as it was. The unchecked form writes as much as fits.
-/

namespace Fingerprint
open HashFunction
set_option autoImplicit false

/-! ## Writing words over places -/

namespace Digest128

@[simp] theorem size_overwrite (words : List UInt64) (i : Nat) (out : Array UInt64) :
    (overwrite words i out).size = out.size := by
  induction words generalizing i out with
  | nil => rfl
  | cons word rest ih =>
    rw [overwrite]
    split
    · rw [ih, Array.size_set]
    · rfl

/-- Places before the first word stay as they are. -/
theorem getElem?_overwrite_of_lt (words : List UInt64) {i j : Nat} (out : Array UInt64)
    (h : j < i) : (overwrite words i out)[j]? = out[j]? := by
  induction words generalizing i out with
  | nil => rfl
  | cons word rest ih =>
    rw [overwrite]
    split
    · rw [ih _ (by omega), Array.getElem?_set_ne _ (by omega)]
    · rfl

/-- A place that is there holds its word, if there is one for it, and else what it held. -/
theorem getElem?_overwrite (words : List UInt64) (i k : Nat) (out : Array UInt64)
    (h : i + k < out.size) : (overwrite words i out)[i + k]? = words[k]?.or out[i + k]? := by
  induction words generalizing i k out with
  | nil => rfl
  | cons word rest ih =>
    rw [overwrite, dif_pos (by omega)]
    cases k with
    | zero =>
      rw [getElem?_overwrite_of_lt _ _ (by omega)]
      simp
    | succ k =>
      have hnext := ih (i + 1) k (out.set i word) (by rw [Array.size_set]; omega)
      have hindex : i + (k + 1) = i + 1 + k := by omega
      rw [hindex, hnext, List.getElem?_cons_succ, Array.getElem?_set_ne _ (by omega)]

section
variable (d : Digest128) (out : Array UInt64)

@[simp] theorem size_writeTo : (d.writeTo out).size = out.size := size_overwrite _ _ _

theorem getElem?_writeTo {i : Nat} (h : i < out.size) :
    (d.writeTo out)[i]? = d.words[i]?.or out[i]? := by
  have hplace := getElem?_overwrite d.words 0 i out (by omega)
  rwa [Nat.zero_add] at hplace

theorem getElem?_writeTo_word {i : Nat} (h : i < min out.size 2) :
    (d.writeTo out)[i]? = d.words[i]? := by
  have hword : i < d.words.length := Nat.lt_of_lt_of_le h (Nat.min_le_right _ _)
  rw [getElem?_writeTo d out (by omega), List.getElem?_eq_getElem hword, Option.some_or]

theorem getElem?_writeTo_rest {i : Nat} (h : min out.size 2 ≤ i) :
    (d.writeTo out)[i]? = out[i]? := by
  by_cases hi : i < out.size
  · have hwords : d.words.length ≤ i := by
      rw [length_words]
      change 2 ≤ i
      omega
    rw [getElem?_writeTo d out hi, List.getElem?_eq_none hwords, Option.none_or]
  · rw [Array.getElem?_eq_none (by rw [size_writeTo]; omega), Array.getElem?_eq_none (by omega)]

end

end Digest128

/-! ## Calls -/

/-- The call leaves the digest in the first two places and the rest as it was, or refuses and leaves
everything as it was. -/
structure WritesAllOrNothing (d : Digest128) (call : Writing) : Prop where
  accepts : ∀ out : Array UInt64, (call.on out).1 = .ok () ↔ 2 ≤ out.size
  writes : ∀ out : Array UInt64, 2 ≤ out.size →
    (call.on out).2[0]? = some d.low ∧ (call.on out).2[1]? = some d.high
  keeps : ∀ out : Array UInt64, 2 ≤ out.size →
    (call.on out).2.size = out.size ∧ ∀ i, 2 ≤ i → (call.on out).2[i]? = out[i]?
  refuses : ∀ out : Array UInt64, out.size < 2 →
    call.on out = (.error (.resultTooShort 2 out.size), out)

/-- The array `after` is `out` with as many words of the digest over its front as fit. -/
structure WritesWhatFits (d : Digest128) (out after : Array UInt64) : Prop where
  size : after.size = out.size
  writes : ∀ i, i < min out.size 2 → after[i]? = d.words[i]?
  keeps : ∀ i, min out.size 2 ≤ i → after[i]? = out[i]?

theorem Digest128.writeTo_writesWhatFits (d : Digest128) (out : Array UInt64) :
    WritesWhatFits d out (d.writeTo out) where
  size := d.size_writeTo out
  writes _ h := d.getElem?_writeTo_word out h
  keeps _ h := d.getElem?_writeTo_rest out h

namespace HashFunction

section
variable {φ ι : Type} [HashFunction φ Digest128] (f : φ) (r : Reader ι) (x : ι)
  (offset len : UInt64)

theorem checkedInto_on (out : Array UInt64) :
    (checkedInto f r x offset len).on out =
      if 2 ≤ out.size then (.ok (), digestInto f r x offset len out)
      else (.error (.resultTooShort 2 out.size), out) := by
  change Writing.on (do
    MonadExcept.ofExcept (checkResult 2 out.size)
    modify (digestInto f r x offset len)) out = _
  rw [checkResult]
  split <;> rfl

theorem checkedInto_writesAllOrNothing :
    WritesAllOrNothing (digest f r x offset len) (checkedInto f r x offset len) := by
  have hfits := (digest f r x offset len).writeTo_writesWhatFits
  constructor
  · intro out
    rw [checkedInto_on]
    split <;> simp [*]
  · intro out h
    rw [checkedInto_on, if_pos h]
    exact ⟨(hfits out).writes 0 (by omega), (hfits out).writes 1 (by omega)⟩
  · intro out h
    rw [checkedInto_on, if_pos h]
    exact ⟨(hfits out).size, fun i hi => (hfits out).keeps i (by omega)⟩
  · intro out h
    rw [checkedInto_on, if_neg (Nat.not_le_of_lt h)]

/-- Whichever view of a text the settings choose, both ways to call take it. -/
theorem ofTextInto_writesAllOrNothing (settings : Settings) (t : Text) :
    WritesAllOrNothing (ofText f settings t) (ofTextInto f settings t) := by
  unfold ofText ofView ofTextInto
  cases t.view settings.strategy with
  | latin1 bytes => exact checkedInto_writesAllOrNothing f _ bytes 0 _
  | utf16 units => exact checkedInto_writesAllOrNothing f _ units 0 _
  | sequence text => exact checkedInto_writesAllOrNothing f _ text 0 _

end

/-- What the forms of a wide function with an array for their result do to it, told by the form by
value on the same input. -/
structure WritingForms {φ : Type} [HashFunction φ Digest128] (f : φ) : Prop where
  bytes : ∀ bytes, WritesAllOrNothing (ofBytes f bytes) (ofBytesInto f bytes)
  array : ∀ {α : Type} [Scalar α] (values : Array α),
    WritesAllOrNothing (ofArray f values) (ofArrayInto f values)
  sequence : ∀ {ι : Type} [UnitSequence ι] (x : ι),
    WritesAllOrNothing (ofSequence f x) (ofSequenceInto f x)
  buffer : ∀ b, WritesAllOrNothing (ofBuffer f b) (ofBufferInto f b)
  memory : ∀ m len, WritesAllOrNothing (ofMemory f m len) (ofMemoryInto f m len)
  text : ∀ settings t, WritesAllOrNothing (ofText f settings t) (ofTextInto f settings t)
  unchecked : ∀ {ι : Type} (r : Reader ι) (x : ι) (offset len : UInt64) (out : Array UInt64),
    WritesWhatFits (digest f r x offset len) out (digestInto f r x offset len out)
  bytesWords : ∀ bytes, ofBytesWords f bytes = #[(ofBytes f bytes).low, (ofBytes f bytes).high]
  arrayWords : ∀ {α : Type} [Scalar α] (values : Array α),
    ofArrayWords f values = #[(ofArray f values).low, (ofArray f values).high]
  stringWords : ∀ s, ofStringWords f s = #[(ofString f s).low, (ofString f s).high]

theorem writingForms {φ : Type} [HashFunction φ Digest128] (f : φ) : WritingForms f where
  bytes _ := checkedInto_writesAllOrNothing ..
  array _ := checkedInto_writesAllOrNothing ..
  sequence _ := checkedInto_writesAllOrNothing ..
  buffer _ := checkedInto_writesAllOrNothing ..
  memory _ _ := checkedInto_writesAllOrNothing ..
  text := ofTextInto_writesAllOrNothing f
  unchecked _ _ _ _ out := (digest f ..).writeTo_writesWhatFits out
  bytesWords _ := rfl
  arrayWords _ := rfl
  stringWords _ := rfl

/-- An array with one place more than needed, and one with a place too few. -/
theorem ofBytesInto_three_and_one :
    ((ofBytesInto (MurmurHash.ofSeed 7) #[5]).on #[1, 2, 3]).2[2]? = some 3 ∧
      (ofBytesInto (MurmurHash.ofSeed 7) #[5]).on #[1] = (.error (.resultTooShort 2 1), #[1]) :=
  ⟨((writingForms (MurmurHash.ofSeed 7)).bytes #[5]).keeps #[1, 2, 3] (by decide) |>.2 2 (by decide),
    ((writingForms (MurmurHash.ofSeed 7)).bytes #[5]).refuses #[1] (by decide)⟩

end HashFunction

end Fingerprint
