import Fingerprint.Proofs.Everywhere
import Fingerprint.Proofs.Reads.CityHash
import Fingerprint.Proofs.Reads.FarmHash
import Fingerprint.Proofs.Reads.MetroHash
import Fingerprint.Proofs.Reads.MurmurHash
import Fingerprint.Proofs.Reads.WyHash
import Fingerprint.Proofs.Reads.XXH3.Narrow
import Fingerprint.Proofs.Reads.XXH3.Wide
import Fingerprint.Proofs.Reads.XXHash

/-!
# Every function reads its range, all of it and no more
-/

namespace Fingerprint
open HashFunction Plan
set_option autoImplicit false

/-- Whatever holds of every function: those of 64 bits, the first words of the wide ones among them,
and the wide ones themselves, each with any seeds. -/
def EveryFunction (P : ∀ {φ δ : Type} [HashFunction φ δ], φ → Prop) : Prop :=
  (∀ f : Selected, P f) ∧ (∀ f : MurmurHash, P f) ∧ ∀ f : XXH3.Wide, P f

theorem EveryFunction.imp {P Q : ∀ {φ δ : Type} [HashFunction φ δ], φ → Prop}
    (h : EveryFunction P) (hpq : ∀ {φ δ : Type} [HashFunction φ δ] (f : φ), P f → Q f) :
    EveryFunction Q :=
  ⟨fun f => hpq f (h.1 f), fun f => hpq f (h.2.1 f), fun f => hpq f (h.2.2 f)⟩

/-- No read leaves the range, and every byte of the range is read. -/
structure ReadsRange {φ δ : Type} [HashFunction φ δ] (f : φ) : Prop where
  staysInside : ∀ len, (body f len).StaysInside len
  covers : ∀ len k, k < len.toNat → (body f len).Covers k

variable {α β : Type} {len : UInt64} {k : Nat} {p : Plan α}

theorem Plan.StaysInside.map (h : p.StaysInside len) (g : α → β) : (g <$> p).StaysInside len :=
  always_map g |>.2 h

theorem Plan.Covers.map (h : p.Covers k) (g : α → β) : (g <$> p).Covers k :=
  sometime_map g |>.2 h

theorem ReadsRange.of_body {φ ψ δ : Type} [HashFunction φ δ] [HashFunction ψ δ] {f : φ} {g : ψ}
    (h : ReadsRange f) (hbody : body g = body f) : ReadsRange g := by
  constructor
  · rw [hbody]
    exact h.staysInside
  · rw [hbody]
    exact h.covers

/-- What a function reads is a matter of its body, and to take the first word reads nothing. -/
theorem inherited_readsRange : Inherited fun f => ReadsRange f where
  delegates h hf := hf.of_body h.body
  essential hf := hf.of_body rfl
  firstWord hf := ⟨fun len => (hf.staysInside len).map _, fun len k hk => (hf.covers len k hk).map _⟩

theorem eachAlgorithm_readsRange : EachAlgorithm fun f => ReadsRange f where
  cityHash _ :=
    ⟨fun _ => CityHash.body_staysInside.map _, fun _ _ hk => (CityHash.body_covers hk).map _⟩
  farmHashNa _ :=
    ⟨fun _ => FarmHash.Na.body_staysInside.map _, fun _ _ hk => (FarmHash.Na.body_covers hk).map _⟩
  farmHashUo f :=
    ⟨fun _ => FarmHash.Uo.body_staysInside f.seeds, fun _ _ hk => FarmHash.Uo.body_covers f.seeds hk⟩
  murmurHash f :=
    ⟨fun _ => MurmurHash.body_staysInside f.seed, fun _ _ hk => MurmurHash.body_covers f.seed hk⟩
  xxHash f := ⟨fun _ => XXHash.body_staysInside f.seed, fun _ _ hk => XXHash.body_covers f.seed hk⟩
  xxh3 f :=
    ⟨fun _ => XXH3.Narrow.body_staysInside f.seed, fun _ _ hk => XXH3.Narrow.body_covers f.seed hk⟩
  xxh3Wide f :=
    ⟨fun _ => XXH3.Wide.body_staysInside f.seed, fun _ _ hk => XXH3.Wide.body_covers f.seed hk⟩
  metroHash f :=
    ⟨fun _ => MetroHash.body_staysInside f.seed, fun _ _ hk => MetroHash.body_covers f.seed hk⟩
  wyHash f := ⟨fun _ => WyHash.body_staysInside f.seed, fun _ _ hk => WyHash.body_covers f.seed hk⟩

theorem everywhere_readsRange : Everywhere fun f => ReadsRange f :=
  inherited_readsRange.everywhere eachAlgorithm_readsRange

theorem everyFunction_readsRange : EveryFunction fun f => ReadsRange f :=
  ⟨everywhere_readsRange.selected, everywhere_readsRange.murmurHash, everywhere_readsRange.xxh3Wide⟩

end Fingerprint
