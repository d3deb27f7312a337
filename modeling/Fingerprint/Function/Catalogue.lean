import Fingerprint.CityHash
import Fingerprint.FarmHash
import Fingerprint.Function.Wide
import Fingerprint.MetroHash
import Fingerprint.MurmurHash
import Fingerprint.WyHash
import Fingerprint.XXH3.Narrow
import Fingerprint.XXH3.Wide

/-!
# A catalogue of functions

One entry per algorithm and way of seeding it. `Catalogue` holds functions with digests of 64 bits,
the wide ones among them through their first word; `Catalogue.Wide` holds those with digests of 128
bits. The unseeded ones are there ready made as well.
-/

namespace Fingerprint.Catalogue
set_option autoImplicit false

def cityHash : CityHash := .unseeded
def cityHashOfSeed (seed : UInt64) : CityHash := .ofSeed seed
def cityHashOfSeeds (seed0 seed1 : UInt64) : CityHash := .ofSeeds seed0 seed1

def farmHashNa : FarmHash.Na := .unseeded
def farmHashNaOfSeed (seed : UInt64) : FarmHash.Na := .ofSeed seed
def farmHashNaOfSeeds (seed0 seed1 : UInt64) : FarmHash.Na := .ofSeeds seed0 seed1

def farmHashUo : FarmHash.Uo := .unseeded
def farmHashUoOfSeed (seed : UInt64) : FarmHash.Uo := .ofSeed seed
def farmHashUoOfSeeds (seed0 seed1 : UInt64) : FarmHash.Uo := .ofSeeds seed0 seed1

def murmurHash : FirstWord MurmurHash := ⟨.unseeded⟩
def murmurHashOfSeed (seed : UInt64) : FirstWord MurmurHash := ⟨.ofSeed seed⟩

def xxHash : XXHash := .unseeded
def xxHashOfSeed (seed : UInt64) : XXHash := .ofSeed seed

def xxh3 : XXH3.Narrow := .unseeded
def xxh3OfSeed (seed : UInt64) : XXH3.Narrow := .ofSeed seed

def xxh3Wide : FirstWord XXH3.Wide := ⟨.unseeded⟩
def xxh3WideOfSeed (seed : UInt64) : FirstWord XXH3.Wide := ⟨.ofSeed seed⟩

def metroHash : MetroHash := .unseeded
def metroHashOfSeed (seed : UInt64) : MetroHash := .ofSeed seed

def wyHash : WyHash := .unseeded
def wyHashOfSeed (seed : UInt64) : WyHash := .ofSeed seed

namespace Wide

def murmurHash : MurmurHash := .unseeded
def murmurHashOfSeed (seed : UInt64) : MurmurHash := .ofSeed seed

def xxh3 : XXH3.Wide := .unseeded
def xxh3OfSeed (seed : UInt64) : XXH3.Wide := .ofSeed seed

end Wide

/-! ## Ready-made functions -/

namespace Ready

def cityHash : CityHash := .unseeded
def farmHashNa : FarmHash.Na := .unseeded
def farmHashUo : FarmHash.Uo := .unseeded
def murmurHash : FirstWord MurmurHash := ⟨.unseeded⟩
def xxHash : XXHash := .unseeded
def xxh3 : XXH3.Narrow := .unseeded
def xxh3Wide : FirstWord XXH3.Wide := ⟨.unseeded⟩
def metroHash : MetroHash := .unseeded
def wyHash : WyHash := .unseeded

end Ready

namespace Wide.Ready

def murmurHash : MurmurHash := .unseeded
def xxh3 : XXH3.Wide := .unseeded

end Wide.Ready

end Fingerprint.Catalogue
