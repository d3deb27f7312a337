import Fingerprint.Proofs.Injective.Folds
import Fingerprint.Proofs.Injective.Images
import Fingerprint.Proofs.Injective.Rotations
import Fingerprint.Proofs.Injective.Words
import Fingerprint.Proofs.Reads.XXHash
import Fingerprint.Proofs.Runs.XXHash
import Fingerprint.Proofs.Values.Functions
import Mathlib.Data.FinEnum
import Mathlib.Data.List.Pairwise

/-!
# xxHash keeps a change that stays within one piece

What follows the stripes is taken in piece by piece, each by a step that can be undone for the hash so
far, and gives the piece away where that is known. The pieces lie apart, so arrays that differ in one
of them alone are taken in by the same steps but for one.
-/

namespace Fingerprint.XXHash
open HashFunction Plan
set_option autoImplicit false

/-! ## The steps undone -/

theorem avalanche_injective : Function.Injective avalanche := by
  intro x y h
  have h := xorShift_injective (by decide) (by decide) h
  have h := mul_injective_of_odd (by decide) h
  have h := xorShift_injective (by decide) (by decide) h
  have h := mul_injective_of_odd (by decide) h
  exact xorShift_injective (by decide) (by decide) h

theorem round_injective (acc : UInt64) : Function.Injective (round acc) := by
  intro x y h
  have h := rotateLeft_injective 31 (mul_injective_of_odd (by decide) h)
  exact mul_injective_of_odd (by decide) ((UInt64.add_right_inj acc).1 h)

section
variable {h h' word word' : UInt64}

theorem takeU64_inj (heq : takeU64 h word = takeU64 h' word') :
    h ^^^ round 0 word = h' ^^^ round 0 word' :=
  rotateLeft_injective 27 (mul_injective_of_odd (by decide) ((UInt64.add_left_inj _).1 heq))

theorem takeU32_inj {half half' : UInt32} (heq : takeU32 h half = takeU32 h' half') :
    h ^^^ half.toUInt64 * prime1 = h' ^^^ half'.toUInt64 * prime1 :=
  rotateLeft_injective 23 (mul_injective_of_odd (by decide) ((UInt64.add_left_inj _).1 heq))

theorem takeU8_inj {byte byte' : UInt8} (heq : takeU8 h byte = takeU8 h' byte') :
    h ^^^ byte.toUInt64 * prime5 = h' ^^^ byte'.toUInt64 * prime5 :=
  rotateLeft_injective 11 (mul_injective_of_odd (by decide) heq)

theorem takeU64_word_injective (h : UInt64) : Function.Injective (takeU64 h) :=
  fun _ _ heq => round_injective 0 ((UInt64.xor_right_inj h).1 (takeU64_inj heq))

theorem takeU32_half_injective (h : UInt64) : Function.Injective (takeU32 h) := by
  intro half half' heq
  have hproduct := (UInt64.xor_right_inj h).1 (takeU32_inj heq)
  exact UInt32.toUInt64_inj.1 (mul_injective_of_odd (by decide) hproduct)

theorem takeU8_byte_injective (h : UInt64) : Function.Injective (takeU8 h) := by
  intro byte byte' heq
  have hproduct := (UInt64.xor_right_inj h).1 (takeU8_inj heq)
  exact UInt8.toUInt64_inj.1 (mul_injective_of_odd (by decide) hproduct)

end

/-! ## Pieces -/

namespace Piece

/-- The two have no byte in common. -/
def Apart (q q' : Piece) : Prop := ∀ i, q.Has i → ¬ q'.Has i

instance : Std.Symm Apart := ⟨fun _ _ h i hi hi' => h i hi' hi⟩

variable {a b : Array UInt8} {q q' : Piece} {n : Nat}

theorem takeWord_injective (q : Piece) (x : UInt64) : Function.Injective (q.takeWord x) := by
  intro h h' heq
  cases q with
  | word p => exact (UInt64.xor_left_inj _).1 (takeU64_inj heq)
  | half p => exact (UInt64.xor_left_inj _).1 (takeU32_inj heq)
  | byte p => exact (UInt64.xor_left_inj _).1 (takeU8_inj heq)

theorem tableWord_eq_of_takeWord_eq {p : UInt64} {h : UInt64}
    (heq : q.takeWord (tableWord a q.width p) h = q.takeWord (tableWord b q.width p) h) :
    tableWord a q.width p = tableWord b q.width p := by
  cases q with
  | word => exact takeU64_word_injective h heq
  | half => exact tableWord_eq_of_toUInt32_eq (takeU32_half_injective h heq)
  | byte => exact tableWord_eq_of_toUInt8_eq (takeU8_byte_injective h heq)

theorem toNat_start (hn : n < 2 ^ 64) (hq : q.start + q.width.bytes ≤ n) :
    (UInt64.ofNat q.start).toNat = q.start :=
  UInt64.toNat_ofNat_of_lt' (Nat.lt_of_le_of_lt (Nat.le_trans (Nat.le_add_right _ _) hq) hn)

/-- The bytes of a piece that was taken in from a known hash. -/
theorem getD_eq_of_take_eq (hn : n < 2 ^ 64) (hq : q.start + q.width.bytes ≤ n) {h : UInt64}
    (heq : q.take (tableWord a) h = q.take (tableWord b) h) {i : Nat} (hi : q.Has i) :
    a.getD i 0 = b.getD i 0 := by
  obtain ⟨j, rfl⟩ : ∃ j, i = q.start + j := Nat.exists_eq_add_of_le hi.1
  have hbyte := getD_eq_of_tableWord_eq (tableWord_eq_of_takeWord_eq heq)
    (Nat.lt_of_add_lt_add_left hi.2)
  rwa [toNat_start hn hq] at hbyte

theorem take_congr (hn : n < 2 ^ 64) (hq : q.start + q.width.bytes ≤ n)
    (h : ∀ i, q.Has i → a.getD i 0 = b.getD i 0) : q.take (tableWord a) = q.take (tableWord b) := by
  have hword : tableWord a q.width (UInt64.ofNat q.start) =
      tableWord b q.width (UInt64.ofNat q.start) := by
    apply tableWord_congr
    intro i hlow hhigh
    rw [toNat_start hn hq] at hlow hhigh
    exact h i ⟨hlow, hhigh⟩
  rw [take, take, hword]

end Piece

/-! ## What is left lies in pieces -/

section
variable {n : Nat} {q q' : Piece}

theorem mem_pieces (hq : q ∈ pieces n) :
    n / 32 * 32 ≤ q.start ∧ q.start + q.width.bytes ≤ n := by
  simp only [pieces, List.mem_append, List.mem_map, List.mem_range] at hq
  obtain (⟨i, hi, rfl⟩ | hhalf) | ⟨i, hi, rfl⟩ := hq
  · simp
    omega
  · split at hhalf
    · obtain rfl := List.mem_singleton.1 hhalf
      simp
      omega
    · cases hhalf
  · simp
    omega

/-- Each piece ends before the next begins. -/
theorem pieces_pairwise (n : Nat) :
    (pieces n).Pairwise fun q q' => q.start + q.width.bytes ≤ q'.start := by
  simp only [pieces, List.pairwise_append, List.pairwise_map, List.mem_append, List.mem_map,
    List.mem_range]
  refine ⟨⟨?_, ?_, ?_⟩, ?_, ?_⟩
  · refine List.pairwise_lt_range.imp ?_
    intro i j hij
    simp
    omega
  · split <;> simp
  · rintro _ ⟨i, hi, rfl⟩ q hq
    split at hq
    · obtain rfl := List.mem_singleton.1 hq
      simp
      omega
    · cases hq
  · refine List.pairwise_lt_range.imp ?_
    intro i j hij
    simp
    omega
  · rintro q (⟨i, hi, rfl⟩ | hq) _ ⟨j, hj, rfl⟩
    · simp
      omega
    · split at hq
      · obtain rfl := List.mem_singleton.1 hq
        simp
        omega
      · cases hq

theorem apart_of_mem_pieces (hq : q ∈ pieces n) (hq' : q' ∈ pieces n) (hne : q ≠ q') :
    q.Apart q' := by
  have hpairs : (pieces n).Pairwise Piece.Apart := by
    refine (pieces_pairwise n).imp ?_
    rintro q q' hle i ⟨-, hi⟩ ⟨hi', -⟩
    omega
  exact hpairs.forall hq hq' hne

theorem nodup_pieces (n : Nat) : (pieces n).Nodup := by
  refine (pieces_pairwise n).imp ?_
  rintro q _ hle rfl
  have hpos : 0 < q.width.bytes := by cases q <;> simp
  omega

end

/-! ## Digests -/

section
variable {read read' : Width → UInt64 → UInt64} {n : Nat}

/-- The stripes lie before all pieces. -/
theorem striped_congr (seed : UInt64) (hn : n < 2 ^ 64)
    (h : ∀ w p, p.toNat + w.bytes ≤ n / 32 * 32 → read w p = read' w p) :
    striped read seed n = striped read' seed n := by
  have hend : (UInt64.ofNat (n / 32 * 32)).toNat = n / 32 * 32 :=
    UInt64.toNat_ofNat_of_lt' (Nat.lt_of_le_of_lt (Nat.div_mul_le_self n 32) hn)
  have hlanes :
      (List.range (n / 32)).foldl (fun s i => (Lanes.take (UInt64.ofNat (i * 32)) s).run read)
        (Lanes.start seed) =
      (List.range (n / 32)).foldl (fun s i => (Lanes.take (UInt64.ofNat (i * 32)) s).run read')
        (Lanes.start seed) := by
    apply List.foldl_ext
    intro s i hi
    have hi := List.mem_range.1 hi
    have hlt : i * 32 < 2 ^ 64 := by omega
    have hplace : (UInt64.ofNat (i * 32)).toNat = i * 32 := UInt64.toNat_ofNat_of_lt' hlt
    have hinside : (Lanes.take (UInt64.ofNat (i * 32)) s).StaysInside (UInt64.ofNat (n / 32 * 32)) :=
      take_staysInside (by omega) s
    apply run_congr hinside
    intro w p hp
    exact h w p (hend ▸ hp)
  rw [striped, striped, hlanes]

end

section
variable (f : XXHash) {a b : Array UInt8} {q : Piece}

theorem ofBytes_eq_foldl (hsize : a.size < 2 ^ 64) :
    ofBytes f a = avalanche ((pieces a.size).foldl (fun h q => q.take (tableWord a) h)
      (striped (tableWord a) f.seed a.size + UInt64.ofNat a.size)) := by
  rw [ofBytes_eq_run (eachAlgorithm_readsRange.xxHash f)]
  change (body f.seed _).run _ = _
  rw [run_body, toNat_size hsize]

theorem eq_of_ofBytes_eq (hsize : a.size < 2 ^ 64) (hsizes : b.size = a.size)
    (hq : q ∈ pieces a.size) (hsame : ∀ i, ¬ q.Has i → a.getD i 0 = b.getD i 0)
    (h : ofBytes f a = ofBytes f b) : a = b := by
  have hstart := (mem_pieces hq).1
  have hstripes : striped (tableWord a) f.seed a.size = striped (tableWord b) f.seed a.size := by
    apply striped_congr _ hsize
    intro w p hp
    apply tableWord_congr
    intro i _ hi
    exact hsame i fun hhas => absurd hhas.1 (by omega)
  rw [ofBytes_eq_foldl f hsize, ofBytes_eq_foldl f (hsizes ▸ hsize), hsizes, hstripes] at h
  obtain ⟨t, ht⟩ := exists_step_eq_of_foldl_eq (nodup_pieces a.size) hq
    (fun r hr hrq => Piece.take_congr hsize (mem_pieces hr).2
      fun i hi => hsame i (apart_of_mem_pieces hr hq hrq i hi))
    (fun r _ => r.takeWord_injective _) (avalanche_injective h)
  apply eq_of_getD_eq hsizes.symm
  intro i _
  by_cases hi : q.Has i
  · exact Piece.getD_eq_of_take_eq hsize (mem_pieces hq).2 ht hi
  · exact hsame i hi

theorem ofU64_injective : Function.Injective (HashFunction.ofU64 f) :=
  fun _ _ h => takeU64_word_injective _ (avalanche_injective h)

theorem ofU32_injective : Function.Injective (HashFunction.ofU32 f) :=
  fun _ _ h => takeU32_half_injective _ (avalanche_injective h)

/-- Two arrays of one size that differ, and do so within one piece of what is left after the stripes,
have different digests. So each word is the digest of one word, and no two half words have the same
digest. -/
theorem pieceChanges_kept :
    (∀ (a b : Array UInt8) (q : Piece), a.size < 2 ^ 64 → b.size = a.size → q ∈ pieces a.size →
      (∀ i, ¬ q.Has i → a[i]? = b[i]?) → a ≠ b → ofBytes f a ≠ ofBytes f b) ∧
    Function.Bijective (HashFunction.ofU64 f) ∧ Function.Injective (HashFunction.ofU32 f) := by
  refine ⟨?_, Finite.injective_iff_bijective.1 (ofU64_injective f), ofU32_injective f⟩
  intro a b q hsize hsizes hq hsame hne h
  have hbytes : ∀ i, ¬ q.Has i → a.getD i 0 = b.getD i 0 := by
    intro i hi
    rw [Array.getD_eq_getD_getElem?, Array.getD_eq_getD_getElem?, hsame i hi]
  exact hne (eq_of_ofBytes_eq f hsize hsizes hq hbytes h)

/-- After one stripe, two bytes changed in the half word of forty-five. -/
theorem pieceChanges_kept_fortyFive :
    let changed := ((Array.replicate 45 1).setIfInBounds 41 5).setIfInBounds 43 6
    ofBytes (ofSeed 7) (Array.replicate 45 1) ≠ ofBytes (ofSeed 7) changed ∧
      (∃ v : UInt64, HashFunction.ofU64 (ofSeed 7) v = 0) ∧
      HashFunction.ofU32 (ofSeed 7) 8 ≠ HashFunction.ofU32 (ofSeed 7) 9 := by
  obtain ⟨hpiece, hwords, hhalves⟩ := pieceChanges_kept (ofSeed 7)
  have hsame : ∀ i, ¬ (Piece.half 40).Has i →
      (Array.replicate 45 (1 : UInt8))[i]? =
        (((Array.replicate 45 1).setIfInBounds 41 5).setIfInBounds 43 6)[i]? := by
    intro i hi
    simp only [Piece.Has, Piece.start, Piece.width, Width.bytes_four] at hi
    rw [Array.getElem?_setIfInBounds_ne (by omega), Array.getElem?_setIfInBounds_ne (by omega)]
  exact ⟨hpiece _ _ (.half 40) (by decide) (by decide) (by decide) hsame (by decide), hwords.2 0,
    fun h => absurd (hhalves h) (by decide)⟩

end

end Fingerprint.XXHash
