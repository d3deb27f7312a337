import Fingerprint.Function.Catalogue

/-!
# Functions chosen by name

`Selected` holds any of the 64-bit functions, the wide ones through their first word, and is a hash
function itself.
-/

namespace Fingerprint
set_option autoImplicit false

inductive Selected where
  | cityHash (f : CityHash)
  | farmHashNa (f : FarmHash.Na)
  | farmHashUo (f : FarmHash.Uo)
  | murmurHash (f : FirstWord MurmurHash)
  | xxHash (f : XXHash)
  | xxh3 (f : XXH3.Narrow)
  | xxh3Wide (f : FirstWord XXH3.Wide)
  | metroHash (f : MetroHash)
  | wyHash (f : WyHash)
deriving DecidableEq

namespace Selected

def make : Algorithm → Option UInt64 → Selected
  | .cityHash, none => cityHash Catalogue.cityHash
  | .cityHash, some s => cityHash (Catalogue.cityHashOfSeed s)
  | .farmHashNa, none => farmHashNa Catalogue.farmHashNa
  | .farmHashNa, some s => farmHashNa (Catalogue.farmHashNaOfSeed s)
  | .farmHashUo, none => farmHashUo Catalogue.farmHashUo
  | .farmHashUo, some s => farmHashUo (Catalogue.farmHashUoOfSeed s)
  | .murmurHash, none => murmurHash Catalogue.murmurHash
  | .murmurHash, some s => murmurHash (Catalogue.murmurHashOfSeed s)
  | .xxHash, none => xxHash Catalogue.xxHash
  | .xxHash, some s => xxHash (Catalogue.xxHashOfSeed s)
  | .xxh3, none => xxh3 Catalogue.xxh3
  | .xxh3, some s => xxh3 (Catalogue.xxh3OfSeed s)
  | .xxh3Wide, none => xxh3Wide Catalogue.xxh3Wide
  | .xxh3Wide, some s => xxh3Wide (Catalogue.xxh3WideOfSeed s)
  | .metroHash, none => metroHash Catalogue.metroHash
  | .metroHash, some s => metroHash (Catalogue.metroHashOfSeed s)
  | .wyHash, none => wyHash Catalogue.wyHash
  | .wyHash, some s => wyHash (Catalogue.wyHashOfSeed s)

def ofName? (name : String) (seed : Option UInt64) : Option Selected :=
  (Algorithm.ofName? name).map fun a => make a seed

def parse (name : String) : Except Refusal Selected :=
  match ofName? name none with
  | some f => .ok f
  | none => .error .unknownName

/-- Uses whichever function is selected. -/
def elim {β : Sort _} (s : Selected) (use : {φ : Type} → [HashFunction φ UInt64] → φ → β) : β :=
  match s with
  | cityHash f => use f
  | farmHashNa f => use f
  | farmHashUo f => use f
  | murmurHash f => use f
  | xxHash f => use f
  | xxh3 f => use f
  | xxh3Wide f => use f
  | metroHash f => use f
  | wyHash f => use f

instance : HashFunction Selected UInt64 where
  name s := s.elim fun f => HashFunction.name f
  body s := s.elim fun f => HashFunction.body f
  void s := s.elim fun f => HashFunction.void f
  ofU8 s := s.elim fun f => HashFunction.ofU8 f
  ofU16 s := s.elim fun f => HashFunction.ofU16 f
  ofU32 s := s.elim fun f => HashFunction.ofU32 f
  ofU64 s := s.elim fun f => HashFunction.ofU64 f

def display (s : Selected) : String := HashFunction.name s

end Selected

end Fingerprint
