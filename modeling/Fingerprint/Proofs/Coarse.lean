import Fingerprint.Proofs.Digest

/-!
# Loads of 32 bits and more

A coarse reader cuts a word of one or two bytes from the 32-bit word that ends with it, which begins
before it. Where the bytes in front of it are there, it reads what any other reader does. They are
there if the range has three bytes before it; and few ranges that begin with the input read narrow words
at their front.
-/

namespace Fingerprint
open HashFunction Plan
set_option autoImplicit false

namespace Reader

variable {ι : Type} [Contiguous ι] (x : ι)

/-- The top bytes of a word of four. -/
theorem load_four_shiftRight {start offset k : Nat} {w : Width} (hw : k + w.bytes = 4)
    (hoffset : offset = start + k) :
    load x .four start >>> UInt64.ofNat (8 * k) = load x w offset := by
  subst hoffset
  have hlow := Bytes.value_lt (Bytes.slice (Contiguous.byteAt x) start k)
  rw [Bytes.length_slice] at hlow
  have hshift : (UInt64.ofNat (8 * k)).toNat % 64 = 8 * k := by
    rw [UInt64.toNat_ofNat']
    omega
  have hfour : (load x .four start).toNat =
      Bytes.value (Bytes.slice (Contiguous.byteAt x) start (k + w.bytes)) := by
    rw [hw]
    exact toNat_ofNat_value (by rw [Bytes.length_slice]; decide)
  have hword : (load x w (start + k)).toNat =
      Bytes.value (Bytes.slice (Contiguous.byteAt x) (start + k) w.bytes) :=
    toNat_ofNat_value (by rw [Bytes.length_slice]; exact w.bytes_le_eight)
  apply UInt64.toNat.inj
  rw [UInt64.toNat_shiftRight, hshift, hfour, hword, Bytes.slice_append, Bytes.value_append,
    Bytes.length_slice, Nat.shiftRight_eq_div_pow, Nat.pow_mul, Nat.add_mul_div_left _ _
    (Nat.pow_pos (by decide)), Nat.div_eq_of_lt hlow, Nat.zero_add]

theorem coarse_read_eq_load {w : Width} {offset start : Nat}
    (h : coarseLoad? w offset = some start) : coarse.read x w offset = load x w offset := by
  simp only [coarse, h]
  cases w with
  | one =>
    obtain ⟨hle, hstart⟩ := Option.ite_none_right_eq_some.1 h
    have hstart := Option.some.inj hstart
    exact load_four_shiftRight x (k := 3) rfl (by omega)
  | two =>
    obtain ⟨hle, hstart⟩ := Option.ite_none_right_eq_some.1 h
    have hstart := Option.some.inj hstart
    exact load_four_shiftRight x (k := 2) rfl (by omega)
  | four => exact congrArg (load x .four) (Option.some.inj h).symm
  | eight => exact congrArg (load x .eight) (Option.some.inj h).symm

end Reader

/-! ## Loads -/

/-- A coarse reader answers a read of the range from `offset` on with a load that is there, and that
ends within `size` bytes. -/
def Plan.Step.Loads (size : Nat) (offset : UInt64) : Step → Prop
  | input w p => ∃ start, Reader.coarseLoad? w (offset.toNat + p.toNat) = some start ∧
      start + (Reader.coarseWidth w).bytes ≤ size
  | table _ _ _ => True
  | demand _ => True

section
variable {size : Nat} {offset len : UInt64}

theorem Plan.Step.Inside.loads {s : Step} (hin : s.Inside len) (hback : 3 ≤ offset.toNat ∨ s.Backed)
    (h : offset.toNat + len.toNat ≤ size) : s.Loads size offset := by
  cases s with
  | table | demand => trivial
  | input w p =>
    have hin : p.toNat + w.bytes ≤ len.toNat := hin
    cases w with
    | one =>
      have hback : 3 ≤ offset.toNat ∨ 3 ≤ p.toNat := hback
      refine ⟨offset.toNat + p.toNat - 3, if_pos (by omega), ?_⟩
      rw [Width.bytes_one] at hin
      change _ + 4 ≤ size
      omega
    | two =>
      have hback : 3 ≤ offset.toNat ∨ 3 ≤ p.toNat := hback
      refine ⟨offset.toNat + p.toNat - 2, if_pos (by omega), ?_⟩
      rw [Width.bytes_two] at hin
      change _ + 4 ≤ size
      omega
    | four =>
      rw [Width.bytes_four] at hin
      refine ⟨offset.toNat + p.toNat, rfl, ?_⟩
      change _ + 4 ≤ size
      omega
    | eight =>
      rw [Width.bytes_eight] at hin
      refine ⟨offset.toNat + p.toNat, rfl, ?_⟩
      change _ + 8 ≤ size
      omega

end

/-! ## Digests -/

/-- From how many bytes on a function that goes by `name` backs its narrow reads within the range. -/
def leastBacked (name : String) : Nat := if name = Algorithm.murmurHash.name then 16 else 4

/-- Besides, the narrow reads of a range are backed if it is empty or long enough. -/
structure BacksReads {φ δ : Type} [HashFunction φ δ] (f : φ) : Prop extends ReadsRange f where
  readsBacked : ∀ len : UInt64, len.toNat = 0 ∨ leastBacked (name f) ≤ len.toNat →
    (body f len).ReadsBacked

theorem inherited_backsReads : Inherited fun f => BacksReads f where
  delegates h hf := by
    refine ⟨hf.of_body h.body, ?_⟩
    rw [h.name, h.body]
    exact hf.readsBacked
  essential hf := ⟨hf.of_body rfl, hf.readsBacked⟩
  firstWord hf := ⟨inherited_readsRange.firstWord hf.toReadsRange,
    fun len h => always_map _ |>.2 (hf.readsBacked len h)⟩

theorem eachAlgorithm_backsReads : EachAlgorithm fun f => BacksReads f where
  cityHash f :=
    ⟨eachAlgorithm_readsRange.cityHash f, fun _ h => always_map _ |>.2 (CityHash.body_backed h)⟩
  farmHashNa f :=
    ⟨eachAlgorithm_readsRange.farmHashNa f, fun _ h => always_map _ |>.2 (FarmHash.Na.body_backed h)⟩
  farmHashUo f :=
    ⟨eachAlgorithm_readsRange.farmHashUo f, fun _ h => FarmHash.Uo.body_backed f.seeds h⟩
  murmurHash f := ⟨eachAlgorithm_readsRange.murmurHash f, fun _ h => MurmurHash.body_backed f.seed h⟩
  xxHash f := ⟨eachAlgorithm_readsRange.xxHash f, fun _ h => XXHash.body_backed f.seed h⟩
  xxh3 f := ⟨eachAlgorithm_readsRange.xxh3 f, fun _ h => XXH3.Narrow.body_backed f.seed h⟩
  xxh3Wide f := ⟨eachAlgorithm_readsRange.xxh3Wide f, fun _ h => XXH3.Wide.body_backed f.seed h⟩
  metroHash f := ⟨eachAlgorithm_readsRange.metroHash f, fun _ h => MetroHash.body_backed f.seed h⟩
  wyHash f := ⟨eachAlgorithm_readsRange.wyHash f, fun _ h => WyHash.body_backed f.seed h⟩

theorem everywhere_backsReads : Everywhere fun f => BacksReads f :=
  inherited_backsReads.everywhere eachAlgorithm_backsReads

section
variable {φ δ : Type} [HashFunction φ δ] {f : φ} {bytes : Array UInt8} {offset len : UInt64}

theorem BacksReads.loads (hf : BacksReads f) (h : offset.toNat + len.toNat ≤ bytes.size)
    (hback : 3 ≤ offset.toNat ∨ len.toNat = 0 ∨ leastBacked (name f) ≤ len.toNat) :
    (body f len).Always (Step.Loads bytes.size offset) fun _ => True := by
  have hin := hf.staysInside len
  rcases hback with hoffset | hlen
  · exact hin.weaken fun s hs => hs.loads (.inl hoffset) h
  · have hboth := (hin.both (hf.readsBacked len hlen)).imp fun _ _ => trivial
    exact hboth.weaken fun s hs => hs.1.loads (.inr hs.2) h

/-- Where there is a load for every read, a coarse reader does what any other does. -/
theorem digest_coarse_of_loads (hloads : (body f len).Always (Step.Loads bytes.size offset) fun _ => True) :
    digest f Reader.coarse bytes offset len = digest f Reader.memory bytes offset len := by
  apply run_congr hloads
  rintro w p ⟨start, hstart, -⟩
  exact Reader.coarse_read_eq_load bytes hstart

end

/-- A coarse reader gives each range of an array that begins with its fourth byte or later the digest of
the bytes in it, by loads that all lie in the array. Of ranges that begin earlier it does so for those
that are empty or long enough, since none of these has a narrow word in its first three bytes. -/
theorem digest_coarse_eq_ofBytes {bytes : Array UInt8} {offset len : UInt64}
    (h : offset.toNat + len.toNat ≤ bytes.size) :
    Everywhere fun f =>
      (len.toNat = 0 ∨ leastBacked (name f) ≤ len.toNat → (body f len).ReadsBacked) ∧
      (3 ≤ offset.toNat ∨ len.toNat = 0 ∨ leastBacked (name f) ≤ len.toNat →
        digest f Reader.coarse bytes offset len = ofBytes f (bytesOf bytes offset len) ∧
        (body f len).Always (Step.Loads bytes.size offset) fun _ => True) := by
  apply everywhere_backsReads.imp
  intro φ δ _ f hf
  refine ⟨hf.readsBacked len, fun hback => ?_⟩
  have hloads := hf.loads h hback
  rw [digest_coarse_of_loads hloads]
  exact ⟨digest_eq_of_readsRange hf.toReadsRange (Reader.lawful_bytes bytes) h, hloads⟩

/-- Three bytes from the fourth on, and sixteen from the first on. -/
theorem digest_coarse_three_and_sixteen :
    (Everywhere fun f => digest f Reader.coarse (#[7, 8, 9, 1, 2, 3] : Array UInt8) 3 3 =
      ofBytes f #[1, 2, 3]) ∧
    Everywhere fun f => digest f Reader.coarse (Array.replicate 16 (5 : UInt8)) 0 16 =
      ofBytes f (Array.replicate 16 5) := by
  constructor
  · have hinside : (3 : UInt64).toNat + (3 : UInt64).toNat ≤
        (#[7, 8, 9, 1, 2, 3] : Array UInt8).size := by decide
    apply (digest_coarse_eq_ofBytes hinside).imp
    exact fun f hf => (hf.2 (.inl (by decide))).1
  · have hinside : (0 : UInt64).toNat + (16 : UInt64).toNat ≤
        (Array.replicate 16 (5 : UInt8)).size := by decide
    apply (digest_coarse_eq_ofBytes hinside).imp
    intro φ δ _ f hf
    have hleast : leastBacked (name f) ≤ 16 := by
      unfold leastBacked
      split <;> decide
    exact (hf.2 (.inr (.inr hleast))).1

end Fingerprint
