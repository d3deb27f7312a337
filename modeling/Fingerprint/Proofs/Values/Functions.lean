import Fingerprint.Proofs.Forms
import Fingerprint.Proofs.Values.Shortcuts

/-!
# Single values are digested as their bytes

A function whose shortcuts are its body over single words digests the empty input and every unsigned
integer as their byte images. To wrap the function, to strip its shortcuts, or to take the first
words of its digests preserves that.
-/

namespace Fingerprint
open HashFunction Plan
set_option autoImplicit false

/-- The empty input and every unsigned integer have the digests of their byte images. -/
structure DigestsImages {φ δ : Type} [HashFunction φ δ] (f : φ) : Prop extends ReadsRange f where
  void : HashFunction.void f = ofBytes f #[]
  ofUnsigned : ∀ v, HashFunction.ofUnsigned f v = ofBytes f v.bytes.toArray

namespace HashFunction

theorem ofBytes_empty {φ δ : Type} [HashFunction φ δ] {f : φ} (hf : ReadsRange f) :
    ofBytes f #[] = (body f 0).eval := by
  -- No read fits into an empty range, so the two ways of answering reads never come to differ.
  apply run_congr (hf.staysInside 0)
  intro w p hin
  have hpos : 0 < w.bytes := by cases w <;> decide
  have hin : p.toNat + w.bytes ≤ 0 := hin
  omega

end HashFunction

namespace DigestsImages

theorem of_shortcuts {φ δ : Type} [HashFunction φ δ] {f : φ} (hs : Shortcuts f)
    (hf : ReadsRange f) : DigestsImages f where
  toReadsRange := hf
  void := by rw [hs.void, ofBytes_empty hf]
  ofUnsigned v := by
    cases v with
    | u8 v => rw [ofBytes_image hf]; exact hs.ofU8 v
    | u16 v => rw [ofBytes_image hf]; exact hs.ofU16 v
    | u32 v => rw [ofBytes_image hf]; exact hs.ofU32 v
    | u64 v => rw [ofBytes_image hf]; exact hs.ofU64 v
    | u128 v => rfl

theorem inherited : Inherited fun f => DigestsImages f where
  delegates h hf := by
    refine ⟨inherited_readsRange.delegates h hf.toReadsRange, ?_, ?_⟩
    · rw [h.void, hf.void, h.ofBytes_eq]
    · intro v
      rw [h.ofUnsigned_eq, hf.ofUnsigned, h.ofBytes_eq]
  essential hf := by
    refine ⟨inherited_readsRange.essential hf.toReadsRange, hf.void, ?_⟩
    -- Without shortcuts, integers are digested as their bytes by definition.
    intro v
    cases v <;> rfl
  firstWord hf := by
    refine ⟨inherited_readsRange.firstWord hf.toReadsRange, ?_, ?_⟩
    · rw [FirstWord.ofBytes_eq, ← hf.void]
      rfl
    · intro v
      rw [FirstWord.ofUnsigned_eq, hf.ofUnsigned, FirstWord.ofBytes_eq]

end DigestsImages

/-- Every function of every type digests the empty input and integers as their bytes. -/
theorem everywhere_digestsImages : Everywhere fun f => DigestsImages f :=
  DigestsImages.inherited.everywhere {
    cityHash := fun f => .of_shortcuts f.shortcuts (eachAlgorithm_readsRange.cityHash f)
    farmHashNa := fun f => .of_shortcuts f.shortcuts (eachAlgorithm_readsRange.farmHashNa f)
    farmHashUo := fun f => .of_shortcuts f.shortcuts (eachAlgorithm_readsRange.farmHashUo f)
    murmurHash := fun f => .of_shortcuts f.shortcuts (eachAlgorithm_readsRange.murmurHash f)
    xxHash := fun f => .of_shortcuts f.shortcuts (eachAlgorithm_readsRange.xxHash f)
    xxh3 := fun f => .of_shortcuts f.shortcuts (eachAlgorithm_readsRange.xxh3 f)
    xxh3Wide := fun f => .of_shortcuts f.shortcuts (eachAlgorithm_readsRange.xxh3Wide f)
    metroHash := fun f => .of_shortcuts f.shortcuts (eachAlgorithm_readsRange.metroHash f)
    wyHash := fun f => .of_shortcuts f.shortcuts (eachAlgorithm_readsRange.wyHash f) }

theorem Scalar.image_singleton {α : Type} [Scalar α] (a : α) :
    Scalar.image #[a] = (Scalar.bytes a).toArray := by
  rw [Scalar.image, List.flatMap_singleton]

namespace HashFunction

/-- The digest of the empty input is that of no bytes. The digest of a value, of whichever type, is
that of an array of it alone and that of its bytes. -/
theorem ofScalar_eq_ofBytes :
    Everywhere fun f => HashFunction.void f = ofBytes f #[] ∧
      ∀ {α : Type} [Scalar α] (a : α),
        ofScalar f a = ofArray f #[a] ∧ ofScalar f a = ofBytes f (Scalar.bytes a).toArray := by
  apply everywhere_digestsImages.imp
  intro φ δ _ f hf
  refine ⟨hf.void, ?_⟩
  intro α _ a
  have hbytes : ofScalar f a = ofBytes f (Scalar.bytes a).toArray := hf.ofUnsigned _
  have harray := ofArray_eq_ofBytes hf.toReadsRange #[a]
  rw [Scalar.image_singleton] at harray
  exact ⟨hbytes.trans harray.symm, hbytes⟩

end HashFunction

end Fingerprint
