import Fingerprint.Function.Call
import Fingerprint.Function.Selected

/-!
# Answers are passed on

If what makes a function is that of another under a map, so is every answer of it, whichever call the
answer is to. So a function that hands all its members over to another answers as that one does, and
the first words of a wide function are the first words of its answers.
-/

namespace Fingerprint
open HashFunction
set_option autoImplicit false

/-- The functions go by one name and give the same answer to every call. -/
structure Alike {φ ψ δ : Type} [HashFunction φ δ] [HashFunction ψ δ] (f : φ) (g : ψ) : Prop where
  name : HashFunction.name f = HashFunction.name g
  answer : ∀ c : Call, c.answer f = c.answer g

namespace Alike

variable {φ ψ χ δ : Type} [HashFunction φ δ] [HashFunction ψ δ] [HashFunction χ δ]
variable {f : φ} {g : ψ} {k : χ}

theorem refl (f : φ) : Alike f f := ⟨rfl, fun _ => rfl⟩

theorem symm (h : Alike f g) : Alike g f := ⟨h.name.symm, fun c => (h.answer c).symm⟩

theorem trans (h : Alike f g) (h' : Alike g k) : Alike f k :=
  ⟨h.name.trans h'.name, fun c => (h.answer c).trans (h'.answer c)⟩

end Alike

/-- What makes the second function is what makes the first, under a map; the bodies agree so for the
lengths that `within` holds of. -/
structure Mapped {φ ψ δ ε : Type} [HashFunction φ δ] [HashFunction ψ ε] (map : δ → ε)
    (within : UInt64 → Prop) (f : φ) (g : ψ) : Prop where
  body : ∀ {len}, within len → HashFunction.body g len = map <$> HashFunction.body f len
  void : HashFunction.void g = map (HashFunction.void f)
  ofU8 : ∀ v, HashFunction.ofU8 g v = map (HashFunction.ofU8 f v)
  ofU16 : ∀ v, HashFunction.ofU16 g v = map (HashFunction.ofU16 f v)
  ofU32 : ∀ v, HashFunction.ofU32 g v = map (HashFunction.ofU32 f v)
  ofU64 : ∀ v, HashFunction.ofU64 g v = map (HashFunction.ofU64 f v)

namespace Mapped

variable {φ ψ δ ε : Type} [HashFunction φ δ] [HashFunction ψ ε] {map : δ → ε}
variable {within : UInt64 → Prop} {f : φ} {g : ψ} (h : Mapped map within f g)
include h

theorem digest_eq {ι : Type} (r : Reader ι) (x : ι) (offset : UInt64) {len : UInt64}
    (hlen : within len) : digest g r x offset len = map (digest f r x offset len) := by
  rw [digest, Plan.over, h.body hlen, Plan.run_map]
  rfl

/-- The same behind the check of a range, told in other units than the digest. -/
theorem checked_eq {ι : Type} (r : Reader ι) (x : ι) (size : Nat) (first count offset : UInt64)
    {len : UInt64} (hlen : within len) :
    (do checkRange size first count; return digest g r x offset len) =
      map <$> (do checkRange size first count; return digest f r x offset len) := by
  rw [h.digest_eq r x offset hlen]
  cases checkRange size first count <;> rfl

theorem ofBytes_eq {bytes : Array UInt8} (hlen : within (UInt64.ofNat bytes.size)) :
    ofBytes g bytes = map (ofBytes f bytes) := h.digest_eq _ _ _ hlen

theorem ofUnsigned_eq {v : Unsigned} (hlen : within (UInt64.ofNat v.width)) :
    HashFunction.ofUnsigned g v = map (HashFunction.ofUnsigned f v) := by
  cases v with
  | u8 v => exact h.ofU8 v
  | u16 v => exact h.ofU16 v
  | u32 v => exact h.ofU32 v
  | u64 v => exact h.ofU64 v
  | u128 v =>
    apply h.ofBytes_eq
    rwa [List.size_toArray, Unsigned.length_bytes]

theorem ofView_eq {v : Text.View} (hlen : within (UInt64.ofNat v.byteLength)) :
    ofView g v = map (ofView f v) := by
  cases v with
  | latin1 | utf16 | sequence => exact h.digest_eq _ _ _ hlen

theorem answer_eq {c : Call} (hlen : within c.byteLength) :
    c.answer g = map <$> c.answer f := by
  cases c with
  | void => exact congrArg Except.ok h.void
  | scalar value => exact congrArg Except.ok (h.ofUnsigned_eq hlen)
  | text settings t => exact congrArg Except.ok (h.ofView_eq hlen)
  | digest | bytes | memory | string | array | buffer | units | sequence =>
    exact congrArg Except.ok (h.digest_eq _ _ _ hlen)
  | bytesRange | arrayRange | bufferRange | unitsRange | sequenceRange =>
    exact h.checked_eq _ _ _ _ _ _ hlen

end Mapped

/-- The second function hands everything that makes a function over to the first. -/
structure Delegates {φ ψ δ : Type} [HashFunction φ δ] [HashFunction ψ δ] (f : φ) (g : ψ) : Prop where
  name : HashFunction.name g = HashFunction.name f
  body : HashFunction.body g = HashFunction.body f
  void : HashFunction.void g = HashFunction.void f
  ofU8 : HashFunction.ofU8 g = HashFunction.ofU8 f
  ofU16 : HashFunction.ofU16 g = HashFunction.ofU16 f
  ofU32 : HashFunction.ofU32 g = HashFunction.ofU32 f
  ofU64 : HashFunction.ofU64 g = HashFunction.ofU64 f

theorem Reference.delegates {φ : Type} [HashFunction φ Digest128] (f : φ) :
    Delegates f (Reference.mk f) where
  name := rfl
  body := rfl
  void := rfl
  ofU8 := rfl
  ofU16 := rfl
  ofU32 := rfl
  ofU64 := rfl

theorem Selected.delegates (s : Selected) : s.elim fun f => Delegates f s := by
  cases s <;> exact ⟨rfl, rfl, rfl, rfl, rfl, rfl, rfl⟩

namespace Delegates

variable {φ ψ δ : Type} [HashFunction φ δ] [HashFunction ψ δ] {f : φ} {g : ψ} (h : Delegates f g)
include h

theorem mapped : Mapped id (fun _ => True) f g where
  body _ := by rw [h.body, id_map]
  void := h.void
  ofU8 := congrFun h.ofU8
  ofU16 := congrFun h.ofU16
  ofU32 := congrFun h.ofU32
  ofU64 := congrFun h.ofU64

theorem ofBytes_eq (bytes : Array UInt8) : ofBytes g bytes = ofBytes f bytes :=
  h.mapped.ofBytes_eq trivial

theorem ofUnsigned_eq (v : Unsigned) : HashFunction.ofUnsigned g v = HashFunction.ofUnsigned f v :=
  h.mapped.ofUnsigned_eq trivial

theorem alike : Alike g f where
  name := h.name
  answer c := by rw [h.mapped.answer_eq trivial, id_map]

end Delegates

/-! ## First words -/

namespace FirstWord

variable {φ : Type} [HashFunction φ Digest128] (f : φ)

theorem mapped : Mapped Digest128.low (fun _ => True) f (FirstWord.mk f) :=
  ⟨fun _ => rfl, rfl, fun _ => rfl, fun _ => rfl, fun _ => rfl, fun _ => rfl⟩

theorem ofBytes_eq (bytes : Array UInt8) :
    ofBytes (FirstWord.mk f) bytes = (ofBytes f bytes).low := (mapped f).ofBytes_eq trivial

theorem ofUnsigned_eq (v : Unsigned) :
    HashFunction.ofUnsigned (FirstWord.mk f) v = (HashFunction.ofUnsigned f v).low :=
  (mapped f).ofUnsigned_eq trivial

theorem answer_eq (c : Call) : c.answer (FirstWord.mk f) = Digest128.low <$> c.answer f :=
  (mapped f).answer_eq trivial

end FirstWord

end Fingerprint
