import Fingerprint.Proofs.Delegation

/-!
# Functions of every type

A hash function is met as a value of the type of its algorithm, and as a selected one. A wide one is
met through references as well, stripped of its shortcuts, and through its first word. What is passed
on by each of these holds everywhere if it holds of the functions of each algorithm.
-/

namespace Fingerprint
set_option autoImplicit false

/-- The second function comes of the first by references and by stripping shortcuts, in any order and
to any depth. -/
inductive Wrapped : {φ ψ : Type} → [HashFunction φ Digest128] → [HashFunction ψ Digest128] →
    φ → ψ → Prop
  | itself {φ : Type} [HashFunction φ Digest128] (f : φ) : Wrapped f f
  | reference {φ ψ : Type} [HashFunction φ Digest128] [HashFunction ψ Digest128] {f : φ} {g : ψ} :
    Wrapped f g → Wrapped f (Reference.mk g)
  | essential {φ ψ : Type} [HashFunction φ Digest128] [HashFunction ψ Digest128] {f : φ} {g : ψ} :
    Wrapped f g → Wrapped f (Essential.mk g)

/-- Whatever holds of a wide function, of all that it is wrapped in, and of their first words. -/
structure EveryUse {φ : Type} [HashFunction φ Digest128] (f : φ)
    (P : ∀ {φ δ : Type} [HashFunction φ δ], φ → Prop) : Prop where
  wide : ∀ {ψ : Type} [HashFunction ψ Digest128] {g : ψ}, Wrapped f g → P g
  firstWord : ∀ {ψ : Type} [HashFunction ψ Digest128] {g : ψ}, Wrapped f g → P (FirstWord.mk g)

/-- Whatever holds of the functions of each algorithm, with any seeds. -/
structure EachAlgorithm (P : ∀ {φ δ : Type} [HashFunction φ δ], φ → Prop) : Prop where
  cityHash : ∀ f : CityHash, P f
  farmHashNa : ∀ f : FarmHash.Na, P f
  farmHashUo : ∀ f : FarmHash.Uo, P f
  murmurHash : ∀ f : MurmurHash, P f
  xxHash : ∀ f : XXHash, P f
  xxh3 : ∀ f : XXH3.Narrow, P f
  xxh3Wide : ∀ f : XXH3.Wide, P f
  metroHash : ∀ f : MetroHash, P f
  wyHash : ∀ f : WyHash, P f

/-- Whatever holds of the functions of each algorithm, in every use of the wide ones among them, and
of the selected ones. -/
structure Everywhere (P : ∀ {φ δ : Type} [HashFunction φ δ], φ → Prop) : Prop extends
    EachAlgorithm P where
  everyMurmurHash : ∀ f : MurmurHash, EveryUse f P
  everyXXH3Wide : ∀ f : XXH3.Wide, EveryUse f P
  selected : ∀ f : Selected, P f

section
variable {P Q : ∀ {φ δ : Type} [HashFunction φ δ], φ → Prop}

theorem EveryUse.imp {φ : Type} [HashFunction φ Digest128] {f : φ} (h : EveryUse f P)
    (hpq : ∀ {φ δ : Type} [HashFunction φ δ] (f : φ), P f → Q f) : EveryUse f Q where
  wide hg := hpq _ (h.wide hg)
  firstWord hg := hpq _ (h.firstWord hg)

theorem EachAlgorithm.imp (h : EachAlgorithm P)
    (hpq : ∀ {φ δ : Type} [HashFunction φ δ] (f : φ), P f → Q f) : EachAlgorithm Q where
  cityHash f := hpq f (h.cityHash f)
  farmHashNa f := hpq f (h.farmHashNa f)
  farmHashUo f := hpq f (h.farmHashUo f)
  murmurHash f := hpq f (h.murmurHash f)
  xxHash f := hpq f (h.xxHash f)
  xxh3 f := hpq f (h.xxh3 f)
  xxh3Wide f := hpq f (h.xxh3Wide f)
  metroHash f := hpq f (h.metroHash f)
  wyHash f := hpq f (h.wyHash f)

theorem Everywhere.imp (h : Everywhere P)
    (hpq : ∀ {φ δ : Type} [HashFunction φ δ] (f : φ), P f → Q f) : Everywhere Q where
  toEachAlgorithm := h.toEachAlgorithm.imp hpq
  everyMurmurHash f := (h.everyMurmurHash f).imp hpq
  everyXXH3Wide f := (h.everyXXH3Wide f).imp hpq
  selected f := hpq f (h.selected f)

/-- What passes from a function to those that delegate to it, are it without its shortcuts, or are
its first words. -/
structure Inherited (P : ∀ {φ δ : Type} [HashFunction φ δ], φ → Prop) : Prop where
  delegates : ∀ {φ ψ δ : Type} [HashFunction φ δ] [HashFunction ψ δ] {f : φ} {g : ψ},
    Delegates f g → P f → P g
  essential : ∀ {φ : Type} [HashFunction φ Digest128] {f : φ}, P f → P (Essential.mk f)
  firstWord : ∀ {φ : Type} [HashFunction φ Digest128] {f : φ}, P f → P (FirstWord.mk f)

namespace Inherited
variable (hP : Inherited P)
include hP

theorem wrapped {φ ψ : Type} [HashFunction φ Digest128] [HashFunction ψ Digest128] {f : φ} {g : ψ}
    (hg : Wrapped f g) (hf : P f) : P g := by
  -- The induction is on the layers around `f`, each of which is one step that is inherited.
  induction hg with
  | itself => exact hf
  | reference _ ih => exact hP.delegates (Reference.delegates _) (ih hf)
  | essential _ ih => exact hP.essential (ih hf)

theorem everyUse {φ : Type} [HashFunction φ Digest128] {f : φ} (hf : P f) : EveryUse f P where
  wide hg := hP.wrapped hg hf
  firstWord hg := hP.firstWord (hP.wrapped hg hf)

theorem selected (h : EachAlgorithm P) (f : Selected) : P f := by
  have hf := f.delegates
  cases f with
  | cityHash f => exact hP.delegates hf (h.cityHash f)
  | farmHashNa f => exact hP.delegates hf (h.farmHashNa f)
  | farmHashUo f => exact hP.delegates hf (h.farmHashUo f)
  | murmurHash f => exact hP.delegates hf (hP.firstWord (h.murmurHash f.wide))
  | xxHash f => exact hP.delegates hf (h.xxHash f)
  | xxh3 f => exact hP.delegates hf (h.xxh3 f)
  | xxh3Wide f => exact hP.delegates hf (hP.firstWord (h.xxh3Wide f.wide))
  | metroHash f => exact hP.delegates hf (h.metroHash f)
  | wyHash f => exact hP.delegates hf (h.wyHash f)

theorem everywhere (h : EachAlgorithm P) : Everywhere P where
  toEachAlgorithm := h
  everyMurmurHash f := hP.everyUse (h.murmurHash f)
  everyXXH3Wide f := hP.everyUse (h.xxh3Wide f)
  selected := hP.selected h

end Inherited
end

end Fingerprint
