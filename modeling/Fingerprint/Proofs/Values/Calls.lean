import Fingerprint.Function.Call
import Fingerprint.Proofs.Values.Shortcuts

/-!
# An answer is a run of the body

Whether a call is refused does not depend on the function. If it is not, there is one way of answering
reads such that each function answers what its body comes to, for as many bytes as the call has.
-/

namespace Fingerprint.Call
open HashFunction Plan
set_option autoImplicit false

def Refused (c : Call) (refusal : Refusal) : Prop :=
  ∀ {φ δ : Type} [HashFunction φ δ] (f : φ), c.answer f = .error refusal

/-- Every function runs its body, with `read` for the words. -/
def Runs (c : Call) (read : Width → UInt64 → UInt64) : Prop :=
  ∀ {φ δ : Type} [HashFunction φ δ] {f : φ}, Shortcuts f →
    c.answer f = .ok ((body f c.byteLength).run read)

/-- A call that checks a range is refused by the check alone. -/
theorem refused_or_runs_of_checked {c : Call} {ι : Type} {r : Reader ι} {x : ι} {size : Nat}
    {first count offset : UInt64}
    (h : ∀ {φ δ : Type} [HashFunction φ δ] (f : φ), c.answer f = do
      checkRange size first count
      return HashFunction.digest f r x offset c.byteLength) :
    (∃ refusal, c.Refused refusal) ∨ ∃ read, c.Runs read := by
  cases hcheck : checkRange size first count with
  | error refusal =>
    refine .inl ⟨refusal, fun f => ?_⟩
    rw [h, hcheck]
    rfl
  | ok =>
    refine .inr ⟨fun w p => r.readLittle x w (offset.toNat + p.toNat), fun _ => ?_⟩
    rw [h, hcheck]
    rfl

theorem runs_scalar {α : Type} [Scalar α] (value : α) : ∃ read, (scalar value).Runs read := by
  have hunsigned : ∀ v : Unsigned, ∃ read, ∀ {φ δ : Type} [HashFunction φ δ] {f : φ},
      Shortcuts f → HashFunction.ofUnsigned f v = (body f (UInt64.ofNat v.width)).run read := by
    intro v
    cases v with
    | u8 v => exact ⟨_, fun h => h.ofU8 v⟩
    | u16 v => exact ⟨_, fun h => h.ofU16 v⟩
    | u32 v => exact ⟨_, fun h => h.ofU32 v⟩
    | u64 v => exact ⟨_, fun h => h.ofU64 v⟩
    | u128 v => exact ⟨_, fun _ => rfl⟩
  obtain ⟨read, hread⟩ := hunsigned (Scalar.toUnsigned value)
  exact ⟨read, fun h => congrArg Except.ok (hread h)⟩

theorem runs_text (settings : Settings) (t : Text) : ∃ read, (text settings t).Runs read := by
  have hview : ∀ v : Text.View, ∃ read, ∀ {φ δ : Type} [HashFunction φ δ] (f : φ),
      ofView f v = (body f (UInt64.ofNat v.byteLength)).run read := by
    intro v
    cases v with
    | latin1 | utf16 | sequence => exact ⟨_, fun _ => rfl⟩
  obtain ⟨read, hread⟩ := hview (t.view settings.strategy)
  exact ⟨read, fun {φ δ _ f} _ => congrArg Except.ok (hread f)⟩

theorem refused_or_runs (c : Call) : (∃ refusal, c.Refused refusal) ∨ ∃ read, c.Runs read := by
  cases c with
  | void => exact .inr ⟨_, fun h => congrArg Except.ok h.void⟩
  | scalar value => exact .inr (runs_scalar value)
  | text settings t => exact .inr (runs_text settings t)
  | digest | bytes | memory | string | array | buffer | units | sequence =>
    exact .inr ⟨_, fun _ => rfl⟩
  | bytesRange | arrayRange | bufferRange | unitsRange | sequenceRange =>
    exact refused_or_runs_of_checked fun _ => rfl

end Fingerprint.Call
