import Fingerprint.Proofs.Publication
import Fingerprint.Text.Settings
import Mathlib.Data.List.DropRight
import Mathlib.Data.List.Forall2

/-!
# Which settings are meant

A setting means a preference exactly if it is one of four keywords, in letters of either case, between
blank ends: keywords hold no blanks, so the ends are found again however many there are. Whatever else
the variable of a process holds counts as nothing, and a process keeps to what it found at first.
-/

namespace Fingerprint
set_option autoImplicit false

/-! ## Blank ends -/

def Blank (s : List Char) : Prop := ∀ c ∈ s, isBlank c = true

instance (s : List Char) : Decidable (Blank s) :=
  decidable_of_iff (s.all isBlank = true) List.all_eq_true

theorem Blank.reverse {s : List Char} (h : Blank s) : Blank s.reverse :=
  fun c hc => h c (List.mem_reverse.1 hc)

/-- Where the front goes on, blanks before it do not count; nor do blanks after it. -/
theorem trimBlank_append {front back : List Char} (s : List Char) (hfront : Blank front)
    (hback : Blank back) : trimBlank (front ++ s ++ back) = trimBlank s := by
  rw [trimBlank, List.append_assoc, List.dropWhile_append_of_pos hfront, List.dropWhile_append]
  split
  · rename_i hnone
    have hnil : s.dropWhile isBlank = [] := List.isEmpty_iff.1 hnone
    rw [List.dropWhile_eq_nil_iff.2 hback, trimBlank, hnil]
  · rw [List.reverse_append, List.dropWhile_append_of_pos hback.reverse, trimBlank]

theorem exists_blank_ends (s : List Char) :
    ∃ front back, Blank front ∧ Blank back ∧ s = front ++ trimBlank s ++ back := by
  let rest := s.dropWhile isBlank
  refine ⟨s.takeWhile isBlank, (rest.reverse.takeWhile isBlank).reverse, ?_, ?_, ?_⟩
  · exact fun c hc => List.mem_takeWhile_imp hc
  · exact fun c hc => List.mem_takeWhile_imp (List.mem_reverse.1 hc)
  · have hrest : trimBlank s ++ (rest.reverse.takeWhile isBlank).reverse = rest := by
      rw [trimBlank, ← List.reverse_append, List.takeWhile_append_dropWhile, List.reverse_reverse]
    rw [List.append_assoc, hrest, List.takeWhile_append_dropWhile]

theorem trimBlank_of_no_blank {s : List Char} (h : ∀ c ∈ s, isBlank c = false) :
    trimBlank s = s := by
  have hkeep : ∀ t : List Char, (∀ c ∈ t, isBlank c = false) → t.dropWhile isBlank = t := by
    intro t ht
    rw [List.dropWhile_eq_self_iff]
    intro hpos
    rw [ht _ (List.getElem_mem hpos)]
    exact Bool.false_ne_true
  rw [trimBlank, hkeep s h, hkeep s.reverse fun c hc => h c (List.mem_reverse.1 hc),
    List.reverse_reverse]

/-- What stands between characters that are no blanks is not trimmed. -/
theorem mem_trimBlank_of_inner {a b : List Char} (c : Char) (ha : ¬ Blank a) (hb : ¬ Blank b) :
    c ∈ trimBlank (a ++ c :: b) := by
  have hkeep : ∀ t u : List Char, ¬ Blank t →
      (t ++ u).dropWhile isBlank = t.dropWhile isBlank ++ u := by
    intro t u ht
    rw [List.dropWhile_append, if_neg]
    exact fun hnone => ht (List.dropWhile_eq_nil_iff.1 (List.isEmpty_iff.1 hnone))
  have hreverse : ¬ Blank b.reverse := fun h => hb (List.reverse_reverse b ▸ h.reverse)
  have hrow : (a.dropWhile isBlank ++ c :: b).reverse =
      b.reverse ++ c :: (a.dropWhile isBlank).reverse := by simp
  rw [trimBlank, hkeep a _ ha, hrow, hkeep _ _ hreverse, List.mem_reverse]
  exact List.mem_append_right _ List.mem_cons_self

/-! ## Letters of either case -/

/-- The same character, or the same letter of the Latin alphabet in the other case. -/
def SameLetter (c d : Char) : Prop :=
  c = d ∨ c.isAlpha = true ∧ d.isAlpha = true ∧ (c.toNat + 32 = d.toNat ∨ d.toNat + 32 = c.toNat)

section
variable {c d : Char}

theorem isAlpha_iff : c.isAlpha = true ↔
    65 ≤ c.toNat ∧ c.toNat ≤ 90 ∨ 97 ≤ c.toNat ∧ c.toNat ≤ 122 := by
  change (decide (65 ≤ c.val ∧ c.val ≤ 90) || decide (97 ≤ c.val) && decide (c.val ≤ 122)) = true ↔ _
  simp [UInt32.le_iff_toNat_le]

theorem toNat_toLower (c : Char) : c.toLower.toNat =
    if 65 ≤ c.toNat ∧ c.toNat ≤ 90 then c.toNat + 32 else c.toNat := by
  by_cases hupper : 65 ≤ c.toNat ∧ c.toNat ≤ 90
  · have hlower : c.toLower.toNat = (c.val + 32).toNat :=
      congrArg Char.toNat (dif_pos hupper : c.toLower = _)
    rw [if_pos hupper, hlower, UInt32.toNat_add, Char.toNat_val]
    change (c.toNat + 32) % 2 ^ 32 = c.toNat + 32
    omega
  · have hsame : c.toLower = c := dif_neg hupper
    rw [if_neg hupper, hsame]

theorem sameLetter_iff : SameLetter c d ↔ c.toLower = d.toLower := by
  rw [SameLetter, isAlpha_iff, isAlpha_iff, ← Char.toNat_inj, ← Char.toNat_inj, toNat_toLower,
    toNat_toLower]
  split <;> split <;> omega

theorem isBlank_iff : isBlank c = true ↔ ∃ run ∈ blankRuns, run.1 ≤ c.toNat ∧ c.toNat ≤ run.2 := by
  simp [isBlank]

/-- No run of blanks reaches into the letters, nor into what is between those of either case. -/
theorem isBlank_of_letter (hlow : 65 ≤ c.toNat) (hhigh : c.toNat ≤ 122) : isBlank c = false := by
  have hruns : ∀ run ∈ blankRuns, run.2 < 65 ∨ 122 < run.1 := by decide
  rw [Bool.eq_false_iff, Ne, isBlank_iff]
  rintro ⟨run, hrun, hfirst, hlast⟩
  have happart := hruns run hrun
  omega

theorem isBlank_of_isAlpha (h : c.isAlpha = true) : isBlank c = false := by
  have hcode := isAlpha_iff.1 h
  exact isBlank_of_letter (by omega) (by omega)

theorem isAlpha_toLower : c.toLower.isAlpha = true ↔ c.isAlpha = true := by
  rw [isAlpha_iff, isAlpha_iff, toNat_toLower]
  split <;> omega

theorem isBlank_toLower (c : Char) : isBlank c.toLower = isBlank c := by
  have hcode := toNat_toLower c
  split at hcode
  · rw [isBlank_of_letter (c := c) (by omega) (by omega), isBlank_of_letter (by omega) (by omega)]
  · rw [Char.toNat_inj.1 hcode]

end

theorem forall₂_sameLetter_iff {s t : List Char} :
    List.Forall₂ SameLetter s t ↔ s.map Char.toLower = t.map Char.toLower := by
  have hrel : SameLetter = fun c d => c.toLower = d.toLower := by
    funext c d
    exact propext sameLetter_iff
  rw [hrel, ← List.forall₂_eq_eq_eq, List.forall₂_map_left_iff, List.forall₂_map_right_iff]

theorem trimBlank_map_toLower (s : List Char) :
    trimBlank (s.map Char.toLower) = (trimBlank s).map Char.toLower := by
  have hdrop : ∀ t : List Char,
      (t.map Char.toLower).dropWhile isBlank = (t.dropWhile isBlank).map Char.toLower := by
    intro t
    rw [List.dropWhile_map]
    congr 2
    exact funext isBlank_toLower
  rw [trimBlank, hdrop, ← List.map_reverse, hdrop, ← List.map_reverse, trimBlank]

/-! ## Preferences -/

namespace Preference

/-- The words for a preference. -/
def words : Preference → List String
  | auto => ["auto", "direct"]
  | generic => ["generic", "chars"]

/-- The setting is a word for the preference, in letters of either case, between blank ends. -/
def SpelledBy (p : Preference) (setting : String) : Prop :=
  ∃ (front word back : List Char) (keyword : String),
    setting.toList = front ++ word ++ back ∧ Blank front ∧ Blank back ∧
      keyword ∈ p.words ∧ List.Forall₂ SameLetter word keyword.toList

theorem mem_keywords_iff {keyword : String} {p : Preference} :
    (keyword, p) ∈ keywords ↔ keyword ∈ p.words := by
  cases p <;> simp [keywords, words]

theorem lookup_keyword {e : String × Preference} (he : e ∈ keywords) :
    keywords.lookup e.1 = some e.2 := by
  revert e
  decide

theorem toLower_keyword {e : String × Preference} (he : e ∈ keywords) :
    e.1.toList.map Char.toLower = e.1.toList := by
  revert e
  decide

theorem isAlpha_keyword {e : String × Preference} (he : e ∈ keywords) :
    ∀ c ∈ e.1.toList, c.isAlpha = true := by
  have hall : keywords.all (fun e => e.1.toList.all Char.isAlpha) = true := by decide
  exact List.all_eq_true.1 (List.all_eq_true.1 hall e he)

/-- A keyword in letters of either case is what it is in lower case, and has letters only. -/
theorem keyword_of_sameLetters {e : String × Preference} (he : e ∈ keywords) {word : List Char}
    (h : List.Forall₂ SameLetter word e.1.toList) :
    String.ofList (word.map Char.toLower) = e.1 ∧ ∀ c ∈ word, c.isAlpha = true := by
  have hlower : word.map Char.toLower = e.1.toList := by
    rw [forall₂_sameLetter_iff.1 h, toLower_keyword he]
  constructor
  · rw [hlower, String.ofList_toList]
  · intro c hc
    have hmem : c.toLower ∈ e.1.toList := hlower ▸ List.mem_map_of_mem hc
    exact isAlpha_toLower.1 (isAlpha_keyword he _ hmem)

theorem ofString?_eq_some_iff {setting : String} {p : Preference} :
    ofString? setting = some p ↔ p.SpelledBy setting := by
  rw [ofString?]
  constructor
  · intro h
    obtain ⟨front, back, hfront, hback, hrow⟩ := exists_blank_ends setting.toList
    obtain ⟨before, after, hsplit, -⟩ := List.lookup_eq_some_iff.1 h
    have hmem := hsplit ▸ List.mem_append_right before List.mem_cons_self
    refine ⟨front, _, back, _, hrow, hfront, hback, mem_keywords_iff.1 hmem, ?_⟩
    rw [forall₂_sameLetter_iff, toLower_keyword hmem, String.toList_ofList]
  · rintro ⟨front, word, back, keyword, hrow, hfront, hback, hkeyword, hsame⟩
    have hmem := mem_keywords_iff.2 hkeyword
    obtain ⟨hword, hletters⟩ := keyword_of_sameLetters hmem hsame
    have hblank : ∀ c ∈ word, isBlank c = false := fun c hc => isBlank_of_isAlpha (hletters c hc)
    -- letters are no blanks, so trimming ends at the word, whatever was around it
    rw [hrow, trimBlank_append word hfront hback, trimBlank_of_no_blank hblank, hword]
    exact lookup_keyword hmem

theorem ofString?_name (p : Preference) : ofString? p.name = some p := by cases p <;> decide

theorem ofString?_between_blanks {front back : String} (setting : String)
    (hfront : Blank front.toList) (hback : Blank back.toList) :
    ofString? (front ++ setting ++ back) = ofString? setting := by
  rw [ofString?, String.toList_append, String.toList_append, trimBlank_append _ hfront hback,
    ofString?]

theorem ofString?_of_sameLetters {s t : String} (h : List.Forall₂ SameLetter s.toList t.toList) :
    ofString? s = ofString? t := by
  rw [ofString?, ← trimBlank_map_toLower, forall₂_sameLetter_iff.1 h, trimBlank_map_toLower,
    ofString?]

/-- What has a meaning has nothing but letters in it, blank ends apart. -/
theorem SpelledBy.isAlpha {p : Preference} {setting : String} (h : p.SpelledBy setting) :
    ∀ c ∈ setting.toList, isBlank c = true ∨ c.isAlpha = true := by
  obtain ⟨front, word, back, keyword, hrow, hfront, hback, hmem, hsame⟩ := h
  have hletters := (keyword_of_sameLetters (mem_keywords_iff.2 hmem) hsame).2
  intro c hc
  rw [hrow, List.mem_append, List.mem_append] at hc
  rcases hc with (hc | hc) | hc
  · exact .inl (hfront c hc)
  · exact .inr (hletters c hc)
  · exact .inl (hback c hc)

/-- Blanks between other characters are not trimmed, and no keyword has any. -/
theorem ofString?_of_inner_blank {a b : List Char} {c : Char} (hc : isBlank c = true)
    (ha : ¬ Blank a) (hb : ¬ Blank b) : ofString? (String.ofList (a ++ c :: b)) = none := by
  rw [Option.eq_none_iff_forall_ne_some]
  intro p hp
  obtain ⟨front, word, back, keyword, hrow, hfront, hback, hmem, hsame⟩ :=
    ofString?_eq_some_iff.1 hp
  have hletters := (keyword_of_sameLetters (mem_keywords_iff.2 hmem) hsame).2
  have hblank : ∀ d ∈ word, isBlank d = false := fun d hd => isBlank_of_isAlpha (hletters d hd)
  have hinner := mem_trimBlank_of_inner c ha hb
  rw [String.toList_ofList] at hrow
  rw [hrow, trimBlank_append word hfront hback, trimBlank_of_no_blank hblank] at hinner
  rw [hblank c hinner] at hc
  cases hc

end Preference

/-! ## Settings of a process -/

namespace Settings

theorem ofVariable_toUTF8 (setting : String) :
    ofVariable (some setting.toUTF8) =
      ofPreference ((Preference.ofString? setting).getD .auto) := by
  have hread : String.fromUTF8? setting.toUTF8 = some setting := by
    rw [String.fromUTF8?, String.toUTF8_eq_toByteArray, dif_pos setting.isValidUTF8]
    rfl
  rw [ofVariable, Option.bind_eq_bind, Option.bind_some, hread]
  rfl

/-- Bytes that are not those of a string count as nothing. -/
theorem ofVariable_of_unread {content : Option ByteArray}
    (h : ∀ setting : String, content ≠ some setting.toUTF8) :
    ofVariable content = ofPreference .auto := by
  cases content with
  | none => rfl
  | some bytes =>
    have hunread : String.fromUTF8? bytes = none := by
      rw [String.fromUTF8?, dif_neg]
      exact fun hvalid => h (.fromUTF8 bytes hvalid) rfl
    rw [ofVariable, Option.bind_eq_bind, Option.bind_some, hunread]
    rfl

theorem ofVariable_of_spelled {setting : String} {p : Preference} (h : p.SpelledBy setting) :
    ofVariable (some setting.toUTF8) = ofPreference p := by
  rw [ofVariable_toUTF8, Preference.ofString?_eq_some_iff.2 h, Option.getD_some]

theorem ofVariable_of_unspelled {content : Option ByteArray}
    (h : ∀ (setting : String) (p : Preference), content = some setting.toUTF8 →
      ¬ p.SpelledBy setting) : ofVariable content = ofPreference .auto := by
  by_cases hread : ∃ setting : String, content = some setting.toUTF8
  · obtain ⟨setting, rfl⟩ := hread
    have hnone : Preference.ofString? setting = none := by
      rw [Option.eq_none_iff_forall_ne_some]
      exact fun p hp => h setting p rfl (Preference.ofString?_eq_some_iff.1 hp)
    rw [ofVariable_toUTF8, hnone, Option.getD_none]
  · exact ofVariable_of_unread fun setting hs => hread ⟨setting, hs⟩

/-- What a process is answered when it asks for its settings time after time, given what its variable
holds each time: the settings are resolved into a cell that is written once. -/
def answers (contents : List (Option ByteArray)) : List (WriteOnce.Answer Settings) :=
  (WriteOnce.run (contents.map fun content => .init (ofVariable content) []) .empty).1

/-- Once there are settings they are the answer each time. -/
theorem run_ready (settings : Settings) (contents : List (Option ByteArray)) :
    (WriteOnce.run (contents.map fun content => .init (ofVariable content) [])
      (.ready settings)).1 = contents.map fun _ => .init settings none := by
  induction contents with
  | nil => rfl
  | cons first rest ih =>
    rw [List.map_cons, List.map_cons, WriteOnce.run, WriteOnce.step_init_ready]
    exact congrArg (List.cons _) ih

theorem answers_cons (first : Option ByteArray) (rest : List (Option ByteArray)) :
    answers (first :: rest) =
      .init (ofVariable first) (some []) :: rest.map fun _ => .init (ofVariable first) none := by
  rw [answers, List.map_cons, WriteOnce.run, WriteOnce.step_init_empty]
  exact congrArg (List.cons _) (run_ready (ofVariable first) rest)

/-- A setting means a preference exactly if it is one of the words for it, in letters of either case,
between blank ends. So blanks around it and the case of its letters do not count, the name of a
preference means it, and nothing does that has characters other than letters, or blanks, inside. The
settings of a process are those of the preference that is meant, or of `auto` where its variable means
none or is not set, and stay what they were when the process first asked for them. -/
theorem settings_exact :
    (∀ (setting : String) (p : Preference),
      Preference.ofString? setting = some p ↔ p.SpelledBy setting) ∧
    (∀ front setting back : String, Blank front.toList → Blank back.toList →
      Preference.ofString? (front ++ setting ++ back) = Preference.ofString? setting) ∧
    (∀ s t : String, List.Forall₂ SameLetter s.toList t.toList →
      Preference.ofString? s = Preference.ofString? t) ∧
    (∀ p : Preference, Preference.ofString? p.name = some p) ∧
    (∀ (setting : String) (p : Preference), Preference.ofString? setting = some p →
      ∀ c ∈ setting.toList, isBlank c = true ∨ c.isAlpha = true) ∧
    (∀ (a b : List Char) (c : Char), isBlank c = true → ¬ Blank a → ¬ Blank b →
      Preference.ofString? (String.ofList (a ++ c :: b)) = none) ∧
    (∀ (setting : String) (p : Preference), p.SpelledBy setting →
      ofVariable (some setting.toUTF8) = ofPreference p) ∧
    (∀ content : Option ByteArray,
      (∀ (setting : String) (p : Preference), content = some setting.toUTF8 →
        ¬ p.SpelledBy setting) → ofVariable content = ofPreference .auto) ∧
    ∀ (first : Option ByteArray) (rest : List (Option ByteArray)),
      ∀ answer ∈ answers (first :: rest), ∃ inner, answer = .init (ofVariable first) inner := by
  refine ⟨fun _ _ => Preference.ofString?_eq_some_iff, fun _ setting _ hfront hback =>
    Preference.ofString?_between_blanks setting hfront hback, fun _ _ =>
    Preference.ofString?_of_sameLetters, Preference.ofString?_name, ?_, fun _ _ _ =>
    Preference.ofString?_of_inner_blank, fun _ _ => ofVariable_of_spelled, fun _ =>
    ofVariable_of_unspelled, ?_⟩
  · intro setting p h
    exact (Preference.ofString?_eq_some_iff.1 h).isAlpha
  · intro first rest answer hanswer
    rw [answers_cons, List.mem_cons, List.mem_map] at hanswer
    rcases hanswer with rfl | ⟨_, -, rfl⟩
    · exact ⟨_, rfl⟩
    · exact ⟨_, rfl⟩

/-- A keyword between blanks of several bytes; the Kelvin sign in place of a letter; a blank inside; and
bytes that are no string. -/
theorem settings_of_chars :
    Preference.ofString? "\u2003cHaRS\u00A0" = some .generic ∧
      ofVariable (some "\u2003cHaRS\u00A0".toUTF8) = ofPreference .generic ∧
      Preference.ofString? "chars\u212A" = none ∧ Preference.ofString? "au to" = none ∧
      ofVariable (some ⟨#[0xFF]⟩) = ofPreference .auto := by
  obtain ⟨hiff, -, -, -, hletters, hinner, hset, hunset, -⟩ := settings_exact
  have hspelled : Preference.generic.SpelledBy "\u2003cHaRS\u00A0" :=
    ⟨['\u2003'], ['c', 'H', 'a', 'R', 'S'], ['\u00A0'], "chars", by decide, by decide, by decide,
      by decide, forall₂_sameLetter_iff.2 (by decide)⟩
  refine ⟨(hiff _ _).2 hspelled, hset _ _ hspelled, ?_, ?_, ?_⟩
  · rw [Option.eq_none_iff_forall_ne_some]
    intro p hp
    exact absurd (hletters _ p hp '\u212A' (by decide)) (by decide)
  · exact hinner ['a', 'u'] ['t', 'o'] ' ' (by decide) (by decide) (by decide)
  · apply hunset
    intro setting p h
    have hvalid : (ByteArray.mk #[0xFF]).IsValidUTF8 := by
      rw [Option.some.inj h]
      exact setting.isValidUTF8
    exact absurd hvalid (by decide)

end Settings

end Fingerprint
