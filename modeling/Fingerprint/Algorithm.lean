/-!
# The names of the functions
-/

namespace Fingerprint
set_option autoImplicit false

/-- The nine hash functions. -/
inductive Algorithm where
  | cityHash
  | farmHashNa
  | farmHashUo
  | murmurHash
  | xxHash
  | xxh3
  | xxh3Wide
  | metroHash
  | wyHash
deriving DecidableEq

namespace Algorithm

/-- The stable name, under which a function is chosen. -/
def name : Algorithm → String
  | cityHash => "city_1_1"
  | farmHashNa => "farm_na"
  | farmHashUo => "farm_uo"
  | murmurHash => "murmur_3"
  | xxHash => "xx"
  | xxh3 => "xx3"
  | xxh3Wide => "xx128"
  | metroHash => "metro"
  | wyHash => "wy_3"

/-- All functions, in the order they are listed in. -/
def all : List Algorithm :=
  [cityHash, farmHashNa, farmHashUo, murmurHash, xxHash, xxh3, xxh3Wide, metroHash, wyHash]

def allNames : List String := all.map name

def ofName? (n : String) : Option Algorithm := all.find? (·.name == n)

theorem mem_all (a : Algorithm) : a ∈ all := by cases a <;> simp [all]

theorem ofName?_name (a : Algorithm) : ofName? a.name = some a := by cases a <;> decide

theorem name_eq_of_ofName? {n : String} {a : Algorithm} (h : ofName? n = some a) : a.name = n := by
  unfold ofName? at h
  simpa using List.find?_some h

theorem ofName?_eq_some_iff {n : String} {a : Algorithm} : ofName? n = some a ↔ a.name = n :=
  ⟨name_eq_of_ofName?, fun h => h ▸ ofName?_name a⟩

end Algorithm

end Fingerprint
