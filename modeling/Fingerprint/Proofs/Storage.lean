import Fingerprint.Proofs.Forms

/-!
# How texts are stored

A text built from units is stored as bytes exactly if every unit fits one, and gives its units back
either way. Bytes and strings are stored as their units are, so a text has one form, and two texts are
equal if their units are. The units of a string tell it from every other: no unit of a pair is a
character by itself, so the first units of a string say where its first character ends.
-/

namespace Fingerprint
set_option autoImplicit false

/-! ## Characters as units -/

section
variable {c : Char}

/-- A character below U+10000 is one unit, and that is no unit of a pair. -/
theorem utf16OfChar_of_lt (h : c.toNat < 0x10000) :
    ∃ unit : UInt16, utf16OfChar c = [unit] ∧ unit.toNat = c.toNat ∧
      (unit.toNat < 0xD800 ∨ 0xE000 ≤ unit.toNat) := by
  have hval : c.val.toNat = c.toNat := Char.toNat_val
  have hunit : c.val.toUInt16.toNat = c.toNat := by
    rw [UInt32.toNat_toUInt16, hval, Nat.mod_eq_of_lt h]
  have hscalar : c.toNat < 0xD800 ∨ 0xE000 ≤ c.toNat := c.valid.imp id fun hhigh => hhigh.1
  refine ⟨c.val.toUInt16, ?_, hunit, hunit ▸ hscalar⟩
  exact if_pos (UInt32.lt_iff_toNat_lt.2 (hval ▸ h))

/-- Ten bits behind the mark of a place in a pair. -/
theorem toNat_marked {bits mark : UInt32} (hbits : bits.toNat < 0x400) (hmark : mark.toNat ≤ 0xDC00) :
    (bits + mark).toUInt16.toNat = mark.toNat + bits.toNat := by
  rw [UInt32.toNat_toUInt16, UInt32.toNat_add]
  omega

/-- A character from U+10000 on is a pair: of what it has above U+10000, the high and the low ten
bits, each behind the mark of its place. -/
theorem utf16OfChar_of_ge (h : 0x10000 ≤ c.toNat) :
    ∃ lead trail : UInt16, utf16OfChar c = [lead, trail] ∧
      lead.toNat = 0xD800 + (c.toNat - 0x10000) / 0x400 ∧
      trail.toNat = 0xDC00 + (c.toNat - 0x10000) % 0x400 ∧ lead.toNat < 0xDC00 := by
  have hval : c.val.toNat = c.toNat := Char.toNat_val
  have hlast : c.toNat < 0x110000 := c.valid.elim (fun hlow => hlow.trans (by decide)) And.right
  have hge : (0x10000 : UInt32) ≤ c.val := UInt32.le_iff_toNat_le.2 (hval ▸ h)
  have hrest : (c.val - 0x10000).toNat = c.toNat - 0x10000 := by
    rw [UInt32.toNat_sub_of_le _ _ hge, hval]
    rfl
  have hhigh : ((c.val - 0x10000) >>> 10).toNat = (c.toNat - 0x10000) / 0x400 := by
    rw [UInt32.toNat_shiftRight, hrest, Nat.shiftRight_eq_div_pow]
    rfl
  have hlow : ((c.val - 0x10000) &&& 0x3FF).toNat = (c.toNat - 0x10000) % 0x400 := by
    rw [UInt32.toNat_and, hrest]
    exact Nat.and_two_pow_sub_one_eq_mod _ 10
  have hlead : (((c.val - 0x10000) >>> 10) + 0xD800).toUInt16.toNat =
      0xD800 + (c.toNat - 0x10000) / 0x400 := by
    rw [toNat_marked (by omega) (by decide), hhigh]
    rfl
  have htrail : (((c.val - 0x10000) &&& 0x3FF) + 0xDC00).toUInt16.toNat =
      0xDC00 + (c.toNat - 0x10000) % 0x400 := by
    rw [toNat_marked (by omega) (by decide), hlow]
    rfl
  exact ⟨_, _, if_neg (UInt32.not_lt.2 hge), hlead, htrail, by omega⟩

end

theorem utf16OfChar_ne_nil (c : Char) : utf16OfChar c ≠ [] := by
  intro hnil
  rcases Nat.lt_or_ge c.toNat 0x10000 with hc | hc
  · obtain ⟨unit, hunits, -⟩ := utf16OfChar_of_lt hc
    rw [hnil] at hunits
    cases hunits
  · obtain ⟨lead, trail, hunits, -⟩ := utf16OfChar_of_ge hc
    rw [hnil] at hunits
    cases hunits

/-- The units of a character end where they must: none are the front of those of another. -/
theorem utf16OfChar_append_inj {c d : Char} {l m : List UInt16}
    (h : utf16OfChar c ++ l = utf16OfChar d ++ m) : c = d ∧ l = m := by
  -- a unit by itself and the lead of a pair lie apart, so only characters of one kind can agree
  rcases Nat.lt_or_ge c.toNat 0x10000 with hc | hc <;>
    rcases Nat.lt_or_ge d.toNat 0x10000 with hd | hd
  · obtain ⟨u, hu, hcu, -⟩ := utf16OfChar_of_lt hc
    obtain ⟨v, hv, hdv, -⟩ := utf16OfChar_of_lt hd
    rw [hu, hv] at h
    obtain ⟨rfl, hrest⟩ := List.cons.inj h
    exact ⟨Char.toNat_inj.1 (hcu.symm.trans hdv), hrest⟩
  · obtain ⟨u, hu, -, hsingle⟩ := utf16OfChar_of_lt hc
    obtain ⟨lead, trail, hv, hlead, -, hbound⟩ := utf16OfChar_of_ge hd
    rw [hu, hv] at h
    obtain ⟨rfl, -⟩ := List.cons.inj h
    omega
  · obtain ⟨lead, trail, hu, hlead, -, hbound⟩ := utf16OfChar_of_ge hc
    obtain ⟨v, hv, -, hsingle⟩ := utf16OfChar_of_lt hd
    rw [hu, hv] at h
    obtain ⟨rfl, -⟩ := List.cons.inj h
    omega
  · obtain ⟨lead, trail, hu, hlead, htrail, -⟩ := utf16OfChar_of_ge hc
    obtain ⟨lead', trail', hv, hlead', htrail', -⟩ := utf16OfChar_of_ge hd
    rw [hu, hv] at h
    obtain ⟨rfl, hpair⟩ := List.cons.inj h
    obtain ⟨rfl, hrest⟩ := List.cons.inj hpair
    exact ⟨Char.toNat_inj.1 (by omega), hrest⟩

theorem flatMap_utf16OfChar_injective :
    Function.Injective fun s : List Char => s.flatMap utf16OfChar := by
  intro s t h
  induction s generalizing t with
  | nil =>
    cases t with
    | nil => rfl
    | cons d t => exact absurd (List.append_eq_nil_iff.1 h.symm).1 (utf16OfChar_ne_nil d)
  | cons c s ih =>
    cases t with
    | nil => exact absurd (List.append_eq_nil_iff.1 h).1 (utf16OfChar_ne_nil c)
    | cons d t =>
      obtain ⟨rfl, hrest⟩ := utf16OfChar_append_inj h
      rw [ih hrest]

theorem utf16Units_injective : Function.Injective utf16Units := by
  intro s t h
  exact String.toList_injective (flatMap_utf16OfChar_injective (List.toArray_inj h))

/-! ## Texts -/

namespace Text

/-- What a text is built from. -/
inductive Origin where
  | units (units : Array UInt16)
  | latin1 (bytes : Array UInt8)
  | string (s : String)

namespace Origin

def text : Origin → Text
  | units u => ofUnits u
  | latin1 b => ofLatin1 b
  | string s => ofString s

/-- The units that the text is to have. -/
def given : Origin → Array UInt16
  | units u => u
  | latin1 b => b.map UInt8.toUInt16
  | string s => utf16Units s

end Origin

theorem units_ofUnits (u : Array UInt16) : (ofUnits u).units = u := by
  rw [ofUnits]
  split
  · rename_i hfit
    have hback : ∀ x ∈ u, x.toUInt8.toUInt16 = x := by
      intro x hx
      have hlt : x < 0x100 := of_decide_eq_true (Array.all_eq_true_iff_forall_mem.1 hfit x hx)
      rw [UInt16.toUInt16_toUInt8, UInt16.mod_eq_of_lt hlt]
    rw [units, Array.map_map]
    exact (Array.map_congr_left hback).trans (Array.map_id' u)
  · rfl

theorem isLatin1_ofUnits (u : Array UInt16) :
    (ofUnits u).isLatin1 = true ↔ ∀ x ∈ u, x < 0x100 := by
  have hall : u.all (· < 0x100) = true ↔ ∀ x ∈ u, x < 0x100 := by
    simp only [Array.all_eq_true_iff_forall_mem, decide_eq_true_eq]
  rw [ofUnits, ← hall]
  split <;> rename_i hfit
  · exact iff_of_true rfl hfit
  · exact iff_of_false Bool.false_ne_true hfit

/-- Bytes, widened, are units that all fit. -/
theorem ofLatin1_eq_ofUnits (b : Array UInt8) : ofLatin1 b = ofUnits (b.map UInt8.toUInt16) := by
  have hfit : (b.map UInt8.toUInt16).all (· < 0x100) = true := by
    rw [Array.all_eq_true_iff_forall_mem]
    intro x hx
    obtain ⟨y, -, rfl⟩ := Array.mem_map.1 hx
    exact decide_eq_true (UInt16.lt_iff_toNat_lt.2 y.toNat_lt)
  have hback : (b.map UInt8.toUInt16).map UInt16.toUInt8 = b := by
    rw [Array.map_map]
    exact (Array.map_congr_left fun y _ => UInt8.toUInt8_toUInt16 y).trans (Array.map_id' b)
  rw [ofUnits, if_pos hfit, hback]
  rfl

/-- A text is stored as its units are, whatever it is built from. -/
theorem Origin.text_eq_ofUnits (o : Origin) : o.text = ofUnits o.given := by
  cases o with
  | units u => rfl
  | latin1 b => exact ofLatin1_eq_ofUnits b
  | string s => rfl

theorem Origin.units_text (o : Origin) : o.text.units = o.given := by
  rw [o.text_eq_ofUnits, units_ofUnits]

theorem Origin.text_eq_iff (a b : Origin) : a.text = b.text ↔ a.text.units = b.text.units := by
  refine ⟨congrArg Text.units, fun h => ?_⟩
  rw [units_text, units_text] at h
  rw [a.text_eq_ofUnits, b.text_eq_ofUnits, h]

/-- A text gives back the units that it is built from, at once and one by one, and is stored as bytes
exactly if each of them fits one; bytes are stored as they are when widened. Two texts, each built
from units, bytes or a string, are equal exactly if their units are, and two strings make equal texts
only if they are equal. -/
theorem storage_canonical :
    (∀ u : Array UInt16, (ofUnits u).units = u ∧ UnitSequence.units (ofUnits u) = u ∧
      ((ofUnits u).isLatin1 = true ↔ ∀ x ∈ u, x < 0x100)) ∧
    (∀ b : Array UInt8, ofLatin1 b = ofUnits (b.map UInt8.toUInt16)) ∧
    (∀ o : Origin, o.text.units = o.given) ∧
    (∀ a b : Origin, a.text = b.text ↔ a.text.units = b.text.units) ∧
    ∀ s t : String, ofString s = ofString t ↔ s = t := by
  refine ⟨?_, ofLatin1_eq_ofUnits, Origin.units_text, Origin.text_eq_iff, ?_⟩
  · intro u
    refine ⟨units_ofUnits u, ?_, isLatin1_ofUnits u⟩
    rw [UnitSequence.units_text, units_ofUnits]
  · intro s t
    refine ⟨fun h => ?_, congrArg ofString⟩
    have hunits := (Origin.text_eq_iff (.string s) (.string t)).1 h
    rw [Origin.units_text, Origin.units_text] at hunits
    exact utf16Units_injective hunits

end Text

end Fingerprint
