import Fingerprint.Proofs.Values.Functions

/-!
# Every way to a function gives the same function

A function is made by its constructor, taken from the catalogue, as the default of its type, or by
its name; it may stand in a selection, behind a reference, or without its shortcuts. Whichever way is
taken, the function answers every call alike, and the first words of a wide function are those of its
answers.
-/

namespace Fingerprint
set_option autoImplicit false

/-- A function that some way leads to. -/
structure Route (δ : Type) where
  {type : Type}
  [isFunction : HashFunction type δ]
  function : type

attribute [instance] Route.isFunction

namespace Route

section
variable {φ δ : Type} [HashFunction φ δ]

/-- The ways to a function without seeds: from the catalogue, ready made, as the default of its type,
and by its constructor. -/
def unseeded [Inhabited φ] (entry ready constructor : φ) : List (Route δ) :=
  [⟨entry⟩, ⟨ready⟩, ⟨(default : φ)⟩, ⟨constructor⟩]

/-- The ways to a function with seeds: from the catalogue, and by its constructor. -/
def seeded (entry constructor : φ) : List (Route δ) := [⟨entry⟩, ⟨constructor⟩]

theorem unseeded_alike [Inhabited φ] {entry ready constructor : φ} (hentry : entry = constructor)
    (hready : ready = constructor) (hdefault : default = constructor) :
    ∀ r ∈ unseeded entry ready constructor, Alike r.function constructor := by
  subst hentry hready
  simp only [unseeded, hdefault, List.forall_mem_cons]
  exact ⟨.refl _, .refl _, .refl _, .refl _, nofun⟩

theorem seeded_alike {entry constructor : φ} (hentry : entry = constructor) :
    ∀ r ∈ seeded entry constructor, Alike r.function constructor := by
  subst hentry
  simp only [seeded, List.forall_mem_cons]
  exact ⟨.refl _, .refl _, nofun⟩

end

/-- The ways to the function of an algorithm with the given seeds, other than by its name: in a
selection, and those above. There is none if the algorithm does not take as many seeds. -/
def all : Algorithm → Seeds → List (Route UInt64)
  | .cityHash, .unseeded =>
    ⟨Selected.cityHash .unseeded⟩ :: unseeded Catalogue.cityHash Catalogue.Ready.cityHash .unseeded
  | .cityHash, .one s =>
    ⟨Selected.cityHash (.ofSeed s)⟩ :: seeded (Catalogue.cityHashOfSeed s) (.ofSeed s)
  | .cityHash, .two s t =>
    ⟨Selected.cityHash (.ofSeeds s t)⟩ :: seeded (Catalogue.cityHashOfSeeds s t) (.ofSeeds s t)
  | .farmHashNa, .unseeded =>
    ⟨Selected.farmHashNa .unseeded⟩ ::
      unseeded Catalogue.farmHashNa Catalogue.Ready.farmHashNa .unseeded
  | .farmHashNa, .one s =>
    ⟨Selected.farmHashNa (.ofSeed s)⟩ :: seeded (Catalogue.farmHashNaOfSeed s) (.ofSeed s)
  | .farmHashNa, .two s t =>
    ⟨Selected.farmHashNa (.ofSeeds s t)⟩ :: seeded (Catalogue.farmHashNaOfSeeds s t) (.ofSeeds s t)
  | .farmHashUo, .unseeded =>
    ⟨Selected.farmHashUo .unseeded⟩ ::
      unseeded Catalogue.farmHashUo Catalogue.Ready.farmHashUo .unseeded
  | .farmHashUo, .one s =>
    ⟨Selected.farmHashUo (.ofSeed s)⟩ :: seeded (Catalogue.farmHashUoOfSeed s) (.ofSeed s)
  | .farmHashUo, .two s t =>
    ⟨Selected.farmHashUo (.ofSeeds s t)⟩ :: seeded (Catalogue.farmHashUoOfSeeds s t) (.ofSeeds s t)
  | .murmurHash, .unseeded =>
    ⟨Selected.murmurHash ⟨.unseeded⟩⟩ ::
      unseeded Catalogue.murmurHash Catalogue.Ready.murmurHash ⟨.unseeded⟩
  | .murmurHash, .one s =>
    ⟨Selected.murmurHash ⟨.ofSeed s⟩⟩ :: seeded (Catalogue.murmurHashOfSeed s) ⟨.ofSeed s⟩
  | .xxHash, .unseeded =>
    ⟨Selected.xxHash .unseeded⟩ :: unseeded Catalogue.xxHash Catalogue.Ready.xxHash .unseeded
  | .xxHash, .one s =>
    ⟨Selected.xxHash (.ofSeed s)⟩ :: seeded (Catalogue.xxHashOfSeed s) (.ofSeed s)
  | .xxh3, .unseeded =>
    ⟨Selected.xxh3 .unseeded⟩ :: unseeded Catalogue.xxh3 Catalogue.Ready.xxh3 .unseeded
  | .xxh3, .one s => ⟨Selected.xxh3 (.ofSeed s)⟩ :: seeded (Catalogue.xxh3OfSeed s) (.ofSeed s)
  | .xxh3Wide, .unseeded =>
    ⟨Selected.xxh3Wide ⟨.unseeded⟩⟩ ::
      unseeded Catalogue.xxh3Wide Catalogue.Ready.xxh3Wide ⟨.unseeded⟩
  | .xxh3Wide, .one s =>
    ⟨Selected.xxh3Wide ⟨.ofSeed s⟩⟩ :: seeded (Catalogue.xxh3WideOfSeed s) ⟨.ofSeed s⟩
  | .metroHash, .unseeded =>
    ⟨Selected.metroHash .unseeded⟩ ::
      unseeded Catalogue.metroHash Catalogue.Ready.metroHash .unseeded
  | .metroHash, .one s =>
    ⟨Selected.metroHash (.ofSeed s)⟩ :: seeded (Catalogue.metroHashOfSeed s) (.ofSeed s)
  | .wyHash, .unseeded =>
    ⟨Selected.wyHash .unseeded⟩ :: unseeded Catalogue.wyHash Catalogue.Ready.wyHash .unseeded
  | .wyHash, .one s =>
    ⟨Selected.wyHash (.ofSeed s)⟩ :: seeded (Catalogue.wyHashOfSeed s) (.ofSeed s)
  | .murmurHash, .two .. => []
  | .xxHash, .two .. => []
  | .xxh3, .two .. => []
  | .xxh3Wide, .two .. => []
  | .metroHash, .two .. => []
  | .wyHash, .two .. => []

/-- The ways to the wide function of an algorithm, if it has one. -/
def wide : Algorithm → Seeds → List (Route Digest128)
  | .murmurHash, .unseeded =>
    unseeded Catalogue.Wide.murmurHash Catalogue.Wide.Ready.murmurHash .unseeded
  | .murmurHash, .one s => seeded (Catalogue.Wide.murmurHashOfSeed s) (.ofSeed s)
  | .xxh3Wide, .unseeded => unseeded Catalogue.Wide.xxh3 Catalogue.Wide.Ready.xxh3 .unseeded
  | .xxh3Wide, .one s => seeded (Catalogue.Wide.xxh3OfSeed s) (.ofSeed s)
  | .murmurHash, .two .. => []
  | .xxh3Wide, .two .. => []
  | .cityHash, _ => []
  | .farmHashNa, _ => []
  | .farmHashUo, _ => []
  | .xxHash, _ => []
  | .xxh3, _ => []
  | .metroHash, _ => []
  | .wyHash, _ => []

theorem selected_alike {φ : Type} [HashFunction φ UInt64] {f : φ} {s : Selected}
    (hs : Delegates f s) {l : List (Route UInt64)} (h : ∀ r ∈ l, Alike r.function f) :
    ∀ r ∈ (⟨s⟩ : Route UInt64) :: l, Alike r.function s :=
  List.forall_mem_cons.2 ⟨.refl s, fun r hr => (h r hr).trans hs.alike.symm⟩

theorem all_unseeded_alike (a : Algorithm) :
    ∀ r ∈ all a .unseeded, Alike r.function (Selected.make a none) := by
  cases a with
  | cityHash => exact selected_alike (Selected.delegates (.cityHash _)) (unseeded_alike rfl rfl rfl)
  | farmHashNa =>
    exact selected_alike (Selected.delegates (.farmHashNa _)) (unseeded_alike rfl rfl rfl)
  | farmHashUo =>
    exact selected_alike (Selected.delegates (.farmHashUo _)) (unseeded_alike rfl rfl rfl)
  | murmurHash =>
    exact selected_alike (Selected.delegates (.murmurHash _)) (unseeded_alike rfl rfl rfl)
  | xxHash => exact selected_alike (Selected.delegates (.xxHash _)) (unseeded_alike rfl rfl rfl)
  | xxh3 => exact selected_alike (Selected.delegates (.xxh3 _)) (unseeded_alike rfl rfl rfl)
  | xxh3Wide => exact selected_alike (Selected.delegates (.xxh3Wide _)) (unseeded_alike rfl rfl rfl)
  | metroHash =>
    exact selected_alike (Selected.delegates (.metroHash _)) (unseeded_alike rfl rfl rfl)
  | wyHash => exact selected_alike (Selected.delegates (.wyHash _)) (unseeded_alike rfl rfl rfl)

theorem all_one_alike (a : Algorithm) (seed : UInt64) :
    ∀ r ∈ all a (.one seed), Alike r.function (Selected.make a (some seed)) := by
  cases a with
  | cityHash => exact selected_alike (Selected.delegates (.cityHash _)) (seeded_alike rfl)
  | farmHashNa => exact selected_alike (Selected.delegates (.farmHashNa _)) (seeded_alike rfl)
  | farmHashUo => exact selected_alike (Selected.delegates (.farmHashUo _)) (seeded_alike rfl)
  | murmurHash => exact selected_alike (Selected.delegates (.murmurHash _)) (seeded_alike rfl)
  | xxHash => exact selected_alike (Selected.delegates (.xxHash _)) (seeded_alike rfl)
  | xxh3 => exact selected_alike (Selected.delegates (.xxh3 _)) (seeded_alike rfl)
  | xxh3Wide => exact selected_alike (Selected.delegates (.xxh3Wide _)) (seeded_alike rfl)
  | metroHash => exact selected_alike (Selected.delegates (.metroHash _)) (seeded_alike rfl)
  | wyHash => exact selected_alike (Selected.delegates (.wyHash _)) (seeded_alike rfl)

theorem all_two_alike (a : Algorithm) (seed0 seed1 : UInt64) :
    ∀ r ∈ all a (.two seed0 seed1), ∀ r' ∈ all a (.two seed0 seed1),
      Alike r.function r'.function := by
  have pairwise {l : List (Route UInt64)} {s : Selected} (h : ∀ r ∈ l, Alike r.function s) :
      ∀ r ∈ l, ∀ r' ∈ l, Alike r.function r'.function :=
    fun r hr r' hr' => (h r hr).trans (h r' hr').symm
  cases a with
  | cityHash => exact pairwise (selected_alike (Selected.delegates (.cityHash _)) (seeded_alike rfl))
  | farmHashNa =>
    exact pairwise (selected_alike (Selected.delegates (.farmHashNa _)) (seeded_alike rfl))
  | farmHashUo =>
    exact pairwise (selected_alike (Selected.delegates (.farmHashUo _)) (seeded_alike rfl))
  | murmurHash | xxHash | xxh3 | xxh3Wide | metroHash | wyHash => nofun

/-- The wide function that all ways to it lead to; the ways to the function of 64 bits lead to its
first words. -/
theorem exists_wide {a : Algorithm} {seeds : Seeds} {w : Route Digest128} (hw : w ∈ wide a seeds) :
    ∃ (φ : Type) (_ : HashFunction φ Digest128) (f : φ),
      (∀ w' ∈ wide a seeds, Alike w'.function f) ∧
      ∀ r ∈ all a seeds, Alike r.function (FirstWord.mk f) := by
  -- Two of the algorithms have wide functions, and neither of them takes two seeds.
  cases a with
  | murmurHash =>
    have hselected (f : FirstWord MurmurHash) := (Selected.delegates (.murmurHash f)).alike
    cases seeds with
    | unseeded =>
      refine ⟨_, inferInstance, MurmurHash.unseeded, unseeded_alike rfl rfl rfl, ?_⟩
      exact fun r hr => (all_unseeded_alike _ r hr).trans (hselected _)
    | one seed =>
      refine ⟨_, inferInstance, MurmurHash.ofSeed seed, seeded_alike rfl, ?_⟩
      exact fun r hr => (all_one_alike _ _ r hr).trans (hselected _)
    | two => cases hw
  | xxh3Wide =>
    have hselected (f : FirstWord XXH3.Wide) := (Selected.delegates (.xxh3Wide f)).alike
    cases seeds with
    | unseeded =>
      refine ⟨_, inferInstance, XXH3.Wide.unseeded, unseeded_alike rfl rfl rfl, ?_⟩
      exact fun r hr => (all_unseeded_alike _ r hr).trans (hselected _)
    | one seed =>
      refine ⟨_, inferInstance, XXH3.Wide.ofSeed seed, seeded_alike rfl, ?_⟩
      exact fun r hr => (all_one_alike _ _ r hr).trans (hselected _)
    | two => cases hw
  | cityHash | farmHashNa | farmHashUo | xxHash | xxh3 | metroHash | wyHash => cases hw

end Route

/-! ## Functions by name -/

namespace Selected

theorem ofName?_name (a : Algorithm) (seed : Option UInt64) :
    ofName? a.name seed = some (make a seed) := by
  rw [ofName?, a.ofName?_name, Option.map_some]

theorem parse_name (a : Algorithm) : parse a.name = .ok (make a none) := by
  rw [parse, ofName?_name]

end Selected

/-! ## What a wide function is wrapped in -/

section
variable {φ : Type} [HashFunction φ Digest128] {f : φ}

/-- Without its shortcuts a function digests integers as their bytes, as it does with them. -/
theorem Essential.alike (h : DigestsImages f) : Alike (Essential.mk f) f where
  name := rfl
  answer c := by
    cases c with
    | scalar value =>
      apply congrArg Except.ok
      exact (DigestsImages.inherited.essential h).ofUnsigned _ |>.trans (h.ofUnsigned _).symm
    | _ => rfl

theorem Wrapped.alike {ψ : Type} [HashFunction ψ Digest128] {g : ψ} (hg : Wrapped f g)
    (h : DigestsImages f) : Alike g f := by
  induction hg with
  | itself => exact .refl _
  | reference _ ih => exact (Reference.delegates _).alike.trans (ih h)
  | essential hg ih => exact (Essential.alike (DigestsImages.inherited.wrapped hg h)).trans (ih h)

/-- All that a wide function is wrapped in answers as it does, and the first words of either are those
of its answers. -/
structure WrapsAlike {φ : Type} [HashFunction φ Digest128] (f : φ) : Prop where
  wide : ∀ {ψ : Type} [HashFunction ψ Digest128] {g : ψ}, Wrapped f g → Alike g f
  firstWord : ∀ {ψ : Type} [HashFunction ψ Digest128] {g : ψ}, Wrapped f g → ∀ c : Call,
    c.answer (FirstWord.mk g) = Digest128.low <$> c.answer f ∧
    c.answer (HashFunction.firstWord g) = Digest128.low <$> c.answer f

theorem DigestsImages.wrapsAlike (h : DigestsImages f) : WrapsAlike f where
  wide hg := hg.alike h
  firstWord {_ _ g} hg c := by
    have hfirst {χ : Type} [HashFunction χ Digest128] {k : χ} (hk : Wrapped f k) :
        c.answer (FirstWord.mk k) = Digest128.low <$> c.answer f := by
      rw [FirstWord.answer_eq, (hk.alike h).answer]
    exact ⟨hfirst hg, hfirst hg.reference⟩

end

/-- Every way to the function of an algorithm, by its name or otherwise, without seeds or with those
that it takes, leads to the same function. So does every way to a wide function; the first words of
its answers are what the 64-bit function of its name answers, and what the first words of all that it
is wrapped in answer. -/
theorem routes_alike :
    (∀ a : Algorithm, ∃ s, Selected.ofName? a.name none = some s ∧ Selected.parse a.name = .ok s ∧
      ∀ r ∈ Route.all a .unseeded, Alike r.function s) ∧
    (∀ (a : Algorithm) (seed : UInt64), ∃ s, Selected.ofName? a.name (some seed) = some s ∧
      ∀ r ∈ Route.all a (.one seed), Alike r.function s) ∧
    (∀ (a : Algorithm) (seed0 seed1 : UInt64), ∀ r ∈ Route.all a (.two seed0 seed1),
      ∀ r' ∈ Route.all a (.two seed0 seed1), Alike r.function r'.function) ∧
    (∀ (a : Algorithm) (seeds : Seeds), ∀ w ∈ Route.wide a seeds,
      (∀ w' ∈ Route.wide a seeds, Alike w.function w'.function) ∧
      ∀ r ∈ Route.all a seeds, ∀ c : Call,
        c.answer r.function = Digest128.low <$> c.answer w.function) ∧
    (∀ f : MurmurHash, WrapsAlike f) ∧ ∀ f : XXH3.Wide, WrapsAlike f := by
  refine ⟨?_, ?_, Route.all_two_alike, ?_, ?_, ?_⟩
  · intro a
    exact ⟨_, Selected.ofName?_name a none, Selected.parse_name a, Route.all_unseeded_alike a⟩
  · intro a seed
    exact ⟨_, Selected.ofName?_name a _, Route.all_one_alike a seed⟩
  · intro a seeds w hw
    obtain ⟨φ, _, f, hwide, hall⟩ := Route.exists_wide hw
    refine ⟨fun w' hw' => (hwide w hw).trans (hwide w' hw').symm, ?_⟩
    intro r hr c
    rw [(hall r hr).answer, FirstWord.answer_eq, (hwide w hw).answer]
  · exact fun f => (everywhere_digestsImages.murmurHash f).wrapsAlike
  · exact fun f => (everywhere_digestsImages.xxh3Wide f).wrapsAlike

/-- The 64-bit function of a name and a seed, and the wide one. -/
theorem answer_murmurHashOfSeed :
    (Call.bytes #[1, 2, 3]).answer (Catalogue.murmurHashOfSeed 7) =
      Digest128.low <$> (Call.bytes #[1, 2, 3]).answer (Catalogue.Wide.murmurHashOfSeed 7) := by
  obtain ⟨-, -, -, hwide, -⟩ := routes_alike
  have hfirst := hwide .murmurHash (.one 7) _ List.mem_cons_self
  exact hfirst.2 ⟨Catalogue.murmurHashOfSeed 7⟩ (List.mem_cons_of_mem _ List.mem_cons_self) _

end Fingerprint
