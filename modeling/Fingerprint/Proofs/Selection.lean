import Fingerprint.Function.Held
import Fingerprint.Proofs.Routes

/-!
# Selection by name

A function is selected by one of nine names, letter by letter, and answers to the name that it was
selected by. Two selected functions are the same if their names are and the seeds bound into them: all
else that they hold is worked out of those. The City and Farm functions tell no seed from the seed
zero, the others do not.
-/

namespace Fingerprint
set_option autoImplicit false

namespace Algorithm

theorem name_injective : Function.Injective name := by
  intro a b h
  have hb := ofName?_name b
  rw [← h, ofName?_name] at hb
  exact Option.some.inj hb

theorem mem_allNames_iff {n : String} : n ∈ allNames ↔ ∃ a : Algorithm, a.name = n := by
  rw [allNames, List.mem_map]
  exact exists_congr fun a => and_iff_right a.mem_all

/-- Whether no seed is the seed zero. -/
def unseededIsZero : Algorithm → Bool
  | cityHash => false
  | farmHashNa => false
  | farmHashUo => false
  | murmurHash => true
  | xxHash => true
  | xxh3 => true
  | xxh3Wide => true
  | metroHash => true
  | wyHash => true

theorem unseededIsZero_iff (a : Algorithm) :
    a.unseededIsZero = true ↔
      a.name ∈ ["murmur_3", "xx", "xx3", "xx128", "metro", "wy_3"] := by
  cases a <;> decide

end Algorithm

namespace Selected

/-! ## Names -/

/-- The names, as they are listed. -/
def listed : List String :=
  ["city_1_1", "farm_na", "farm_uo", "murmur_3", "xx", "xx3", "xx128", "metro", "wy_3"]

/-- The selection, name by name. -/
def byName (name : String) (seed : Option UInt64) : Option Selected :=
  match name with
  | "city_1_1" => some (cityHash (seed.elim Catalogue.cityHash Catalogue.cityHashOfSeed))
  | "farm_na" => some (farmHashNa (seed.elim Catalogue.farmHashNa Catalogue.farmHashNaOfSeed))
  | "farm_uo" => some (farmHashUo (seed.elim Catalogue.farmHashUo Catalogue.farmHashUoOfSeed))
  | "murmur_3" => some (murmurHash (seed.elim Catalogue.murmurHash Catalogue.murmurHashOfSeed))
  | "xx" => some (xxHash (seed.elim Catalogue.xxHash Catalogue.xxHashOfSeed))
  | "xx3" => some (xxh3 (seed.elim Catalogue.xxh3 Catalogue.xxh3OfSeed))
  | "xx128" => some (xxh3Wide (seed.elim Catalogue.xxh3Wide Catalogue.xxh3WideOfSeed))
  | "metro" => some (metroHash (seed.elim Catalogue.metroHash Catalogue.metroHashOfSeed))
  | "wy_3" => some (wyHash (seed.elim Catalogue.wyHash Catalogue.wyHashOfSeed))
  | _ => none

theorem allNames_eq_listed : Algorithm.allNames = listed := rfl

theorem byName_name (a : Algorithm) (seed : Option UInt64) :
    byName a.name seed = some (make a seed) := by
  cases a <;> cases seed <;> rfl

theorem byName_of_not_mem {n : String} (h : n ∉ listed) (seed : Option UInt64) :
    byName n seed = none := by
  unfold byName
  split <;> first | rfl | simp [listed] at h

theorem name_make (a : Algorithm) (seed : Option UInt64) :
    HashFunction.name (make a seed) = a.name := by
  cases a <;> cases seed <;> rfl

theorem ofName?_eq_some_iff {n : String} {seed : Option UInt64} {f : Selected} :
    ofName? n seed = some f ↔ ∃ a : Algorithm, a.name = n ∧ make a seed = f := by
  simp only [ofName?, Option.map_eq_some_iff, Algorithm.ofName?_eq_some_iff]

theorem isSome_ofName?_iff (n : String) (seed : Option UInt64) :
    (ofName? n seed).isSome = true ↔ n ∈ Algorithm.allNames := by
  rw [Option.isSome_iff_exists, Algorithm.mem_allNames_iff]
  constructor
  · rintro ⟨f, hf⟩
    obtain ⟨a, ha, -⟩ := ofName?_eq_some_iff.1 hf
    exact ⟨a, ha⟩
  · rintro ⟨a, rfl⟩
    exact ⟨_, ofName?_name a seed⟩

theorem ofName?_eq_byName (n : String) (seed : Option UInt64) : ofName? n seed = byName n seed := by
  by_cases h : n ∈ Algorithm.allNames
  · obtain ⟨a, rfl⟩ := Algorithm.mem_allNames_iff.1 h
    rw [ofName?_name, byName_name]
  · have hnone : ofName? n seed = none :=
      Option.not_isSome_iff_eq_none.1 (mt (isSome_ofName?_iff n seed).1 h)
    rw [hnone, byName_of_not_mem (allNames_eq_listed ▸ h)]

theorem parse_eq_ok_iff {n : String} {f : Selected} : parse n = .ok f ↔ ofName? n none = some f := by
  rw [parse]
  cases ofName? n none <;> simp

theorem parse_eq_error_iff {n : String} :
    parse n = .error .unknownName ↔ n ∉ Algorithm.allNames := by
  rw [← isSome_ofName?_iff n none, parse]
  cases ofName? n none <;> simp

/-! ## Seeds -/

theorem make_some_injective (a : Algorithm) : Function.Injective fun s => make a (some s) := by
  intro s t h
  cases a <;> cases h <;> rfl

theorem make_none_eq_iff (a : Algorithm) (s : UInt64) :
    make a none = make a (some s) ↔ a.unseededIsZero = true ∧ s = 0 := by
  constructor
  · intro h
    cases a <;> cases h <;> exact ⟨rfl, rfl⟩
  · rintro ⟨hzero, rfl⟩
    cases a <;> first | rfl | cases hzero

/-- With one algorithm, functions are the same if their seeds are, or if their seeds come to the same
where none is zero. -/
theorem make_eq_iff (a : Algorithm) (s t : Option UInt64) :
    make a s = make a t ↔ s = t ∨ a.unseededIsZero = true ∧ s.getD 0 = t.getD 0 := by
  have hzero (s : UInt64) : make a none = make a (some s) ↔
      (none = some s ∨ a.unseededIsZero = true ∧ 0 = s) := by
    rw [make_none_eq_iff, or_iff_right (Option.some_ne_none s).symm, eq_comm (a := s)]
  cases s with
  | none =>
    cases t with
    | none => exact iff_of_true rfl (.inl rfl)
    | some t => exact hzero t
  | some s =>
    cases t with
    | none => exact eq_comm.trans ((hzero s).trans (or_congr eq_comm (and_congr_right' eq_comm)))
    | some t =>
      have hsame : make a (some s) = make a (some t) ↔ s = t := (make_some_injective a).eq_iff
      rw [hsame, Option.some.injEq]
      exact ⟨.inl, fun h => h.elim id And.right⟩

theorem make_eq_make_iff {a b : Algorithm} {s t : Option UInt64} :
    make a s = make b t ↔
      a = b ∧ (s = t ∨ a.unseededIsZero = true ∧ s.getD 0 = t.getD 0) := by
  constructor
  · intro h
    have hname := congrArg HashFunction.name h
    rw [name_make, name_make] at hname
    obtain rfl := Algorithm.name_injective hname
    exact ⟨rfl, (make_eq_iff a s t).1 h⟩
  · rintro ⟨rfl, hseeds⟩
    exact (make_eq_iff a s t).2 hseeds

/-! ## What is held -/

/-- The function that holds the given. -/
def ofHeld : Held → Selected
  | .cityHash seeds _ => cityHash ⟨seeds⟩
  | .farmHashNa seeds _ => farmHashNa ⟨seeds⟩
  | .farmHashUo seeds _ => farmHashUo ⟨seeds⟩
  | .murmurHash seed _ => murmurHash ⟨⟨seed⟩⟩
  | .xxHash seed _ => xxHash ⟨seed⟩
  | .xxh3 seed _ => xxh3 ⟨seed⟩
  | .xxh3Wide seed _ => xxh3Wide ⟨⟨seed⟩⟩
  | .metroHash seed _ => metroHash ⟨seed⟩
  | .wyHash seed => wyHash ⟨seed⟩

theorem ofHeld_held (f : Selected) : ofHeld f.held = f := by cases f <;> rfl

/-- What is worked out of the seeds tells no functions apart, and makes no two the same. -/
theorem same_iff {f g : Selected} : f.same g = true ↔ f = g := by
  have hinj : Function.Injective held := Function.LeftInverse.injective ofHeld_held
  rw [same, beq_iff_eq, hinj.eq_iff]

/-- The selection is the one written out name by name, and the names under which there are functions
are the listed ones, whatever the seed. A function has the name that it is selected by, and its name as
it is shown is read as the unseeded function of that name. Two selected functions are the same, by all
that they hold, exactly if they have one name and one seed, where for six of the names no seed counts
as zero. -/
theorem selection_exact :
    Algorithm.allNames = listed ∧
    (∀ (n : String) (seed : Option UInt64), ofName? n seed = byName n seed) ∧
    (∀ (n : String) (seed : Option UInt64), (ofName? n seed).isSome = true ↔ n ∈ listed) ∧
    (∀ n : String, parse n = .error .unknownName ↔ n ∉ listed) ∧
    (∀ (n : String) (f : Selected), parse n = .ok f ↔ ofName? n none = some f) ∧
    (∀ (n : String) (seed : Option UInt64) (f : Selected), ofName? n seed = some f →
      HashFunction.name f = n ∧ ∃ g, ofName? n none = some g ∧ parse f.display = .ok g) ∧
    ∀ (n m : String) (s t : Option UInt64) (f g : Selected), ofName? n s = some f →
      ofName? m t = some g →
        (f.same g = true ↔ f = g) ∧
        (f = g ↔ n = m ∧ (s = t ∨
          n ∈ ["murmur_3", "xx", "xx3", "xx128", "metro", "wy_3"] ∧ s.getD 0 = t.getD 0)) := by
  refine ⟨allNames_eq_listed, ofName?_eq_byName, isSome_ofName?_iff, fun _ => parse_eq_error_iff,
    fun _ _ => parse_eq_ok_iff, ?_, ?_⟩
  · intro n seed f hf
    obtain ⟨a, rfl, rfl⟩ := ofName?_eq_some_iff.1 hf
    refine ⟨name_make a seed, _, ofName?_name a none, ?_⟩
    rw [display, name_make, parse_name]
  · intro n m s t f g hf hg
    obtain ⟨a, rfl, rfl⟩ := ofName?_eq_some_iff.1 hf
    obtain ⟨b, rfl, rfl⟩ := ofName?_eq_some_iff.1 hg
    refine ⟨same_iff, ?_⟩
    rw [make_eq_make_iff, Algorithm.name_injective.eq_iff, Algorithm.unseededIsZero_iff]

/-- No seed is the seed zero by one name, and is not by another. -/
theorem selected_zero_seeds :
    (make .xxh3 none).same (make .xxh3 (some 0)) = true ∧
      (make .farmHashNa none).same (make .farmHashNa (some 0)) = false := by
  obtain ⟨-, -, -, -, -, -, hsame⟩ := selection_exact
  have hxxh3 := hsame "xx3" "xx3" none (some 0) _ _ rfl rfl
  have hfarm := hsame "farm_na" "farm_na" none (some 0) _ _ rfl rfl
  refine ⟨hxxh3.1.2 (hxxh3.2.2 ⟨rfl, .inr ⟨by decide, rfl⟩⟩), ?_⟩
  rw [Bool.eq_false_iff]
  intro h
  rcases hfarm.2.1 (hfarm.1.1 h) with ⟨-, h | h⟩
  · cases h
  · exact absurd h.1 (by decide)

end Selected

end Fingerprint
