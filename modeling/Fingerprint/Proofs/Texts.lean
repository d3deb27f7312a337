import Fingerprint.Proofs.Forms

/-!
# The digest of a text is that of its units

A text stored as bytes is read widened, or unit by unit; one stored as units is read as memory, or
unit by unit. Each of these views has the image of the units, and the settings of the process choose
among them and do nothing else.
-/

namespace Fingerprint.HashFunction
set_option autoImplicit false

section
variable {φ δ : Type} [HashFunction φ δ] {f : φ} (hf : ReadsRange f)
include hf

theorem ofSequence_text (t : Text) : ofSequence f t = ofBytes f (Scalar.image t.units) := by
  rw [ofSequence_eq_ofBytes hf, UnitSequence.units_text]

/-- Whichever view a strategy takes, it is of the image of the units. -/
theorem ofView_eq_ofBytes (strategy : Strategy) (t : Text) :
    ofView f (t.view strategy) = ofBytes f (Scalar.image t.units) := by
  cases strategy with
  | direct =>
    cases t with
    | latin1 bytes =>
      have hall := digest_all_of_readsRange hf (Reader.lawful_latin1 .native bytes)
      rwa [Units.size_image, Array.size_map] at hall
    | utf16 units => exact ofUnits_eq_ofBytes hf units
  | generic => exact ofSequence_text hf t

end

/-- Whatever the variable of the process holds, and whichever strategy reads it, the digest of a text
is that of its units in the native order. So texts with the same units have the same digest, even if
they are stored in different forms and read by processes that are set up differently. -/
theorem ofText_eq_ofUnits :
    Everywhere fun f => ∀ (t : Text) (setting : Option ByteArray),
      ofText f (Settings.ofVariable setting) t = ofUnits f t.units ∧
      (∀ strategy, ofView f (t.view strategy) = ofUnits f t.units) ∧
      ofSequence f t = ofUnits f t.units ∧
      ∀ (t' : Text) (setting' : Option ByteArray), t'.units = t.units →
        ofText f (Settings.ofVariable setting') t' = ofText f (Settings.ofVariable setting) t := by
  apply everywhere_readsRange.imp
  intro φ δ _ f hf t setting
  have hview (strategy : Strategy) (t : Text) : ofView f (t.view strategy) = ofUnits f t.units := by
    rw [ofView_eq_ofBytes hf, ofUnits_eq_ofBytes hf]
  refine ⟨hview _ t, fun strategy => hview strategy t, ?_, ?_⟩
  · rw [ofSequence_text hf, ofUnits_eq_ofBytes hf]
  · intro t' setting' hunits
    rw [ofText, hview, hunits, ofText, hview]

/-- Two texts of the same units, stored in different forms, and read in different ways. -/
theorem ofText_latin1_eq_utf16 :
    Everywhere fun f =>
      Text.latin1 #[0x5A, 0xE9] ≠ Text.utf16 #[0x5A, 0xE9] ∧
      ofText f (Settings.ofVariable none) (.latin1 #[0x5A, 0xE9]) =
        ofText f (Settings.ofVariable (some "generic".toUTF8)) (.utf16 #[0x5A, 0xE9]) := by
  apply ofText_eq_ofUnits.imp
  intro φ δ _ f hf
  refine ⟨nofun, ?_⟩
  exact (hf (.utf16 #[0x5A, 0xE9]) _).2.2.2 (.latin1 #[0x5A, 0xE9]) none (by simp [Text.units])

end Fingerprint.HashFunction
