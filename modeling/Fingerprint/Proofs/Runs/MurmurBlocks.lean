import Fingerprint.Proofs.Injective.Images
import Fingerprint.Proofs.Runs.MurmurHash
import Mathlib.Data.List.Basic

/-!
# MurmurHash, sixteen bytes after sixteen

Any sixteen bytes of an array make two words, in which bytes beyond its end count as zero. The digest of
an array takes in two words for each whole block and two for the rest, however many bytes that has;
where it has none, to take in zeros changes nothing.
-/

namespace Fingerprint.MurmurHash
open Bytes HashFunction Plan
set_option autoImplicit false

variable {a : Array UInt8} {p n : UInt64}

/-- The last bytes of an array, read one by one, make the word that starts with them. -/
theorem run_partialWord_eq_tableWord (hn : n.toNat ≤ 8) (hfits : p.toNat + n.toNat < 2 ^ 64)
    (hrest : n.toNat = 8 ∨ a.size ≤ p.toNat + n.toNat) :
    (partialWord p n).run (tableWord a) = tableWord a .eight p := by
  have hbytes : slice (fun i => (tableWord a .one (p + UInt64.ofNat i)).toUInt8) 0 n.toNat =
      slice (fun i => a.getD i 0) p.toNat n.toNat := by
    rw [← Nat.add_zero p.toNat, slice_add]
    apply slice_congr
    intro i _ hi
    have hindex : (UInt64.ofNat i).toNat = i := by
      rw [UInt64.toNat_ofNat', Nat.mod_eq_of_lt (by omega)]
    rw [toUInt8_tableWord, UInt64.toNat_add, hindex, Nat.mod_eq_of_lt (by omega)]
  obtain ⟨m, hm⟩ : ∃ m, 8 = n.toNat + m := ⟨8 - n.toNat, by omega⟩
  have hzeros : value (slice (fun i => a.getD i 0) (p.toNat + n.toNat) m) = 0 := by
    rcases hrest with hwhole | hend
    · obtain rfl : m = 0 := by omega
      rfl
    · exact value_slice_of_zero (fun i hi => getD_beyond (hend.trans hi)) m
  rw [run_partialWord _ _ hn, hbytes, tableWord, Width.bytes_eight]
  change _ = UInt64.ofNat (value (slice _ p.toNat 8))
  rw [hm, slice_append, value_append, hzeros, Nat.mul_zero, Nat.add_zero]

/-! ## The rest -/

/-- Takes in the two words of what is left after the blocks. -/
def takeRest (k1 k2 : UInt64) (s : State) : State :=
  ⟨s.h1 ^^^ scramble1 k1, s.h2 ^^^ scramble2 k2⟩

@[simp] theorem scramble1_zero : scramble1 0 = 0 := by decide

@[simp] theorem scramble2_zero : scramble2 0 = 0 := by decide

section
variable (hp : p.toNat + n.toNat = a.size) (hn : n.toNat < 16) (hfits : p.toNat + 16 ≤ 2 ^ 64)
include hp hn hfits

theorem run_takeFirst (lane : UInt64) : (takeFirst p n lane).run (tableWord a) =
    lane ^^^ scramble1 (tableWord a .eight p) := by
  have hmin := toNat_min_eight n
  by_cases hmore : 0 < n
  · have hword : (partialWord p (min n 8)).run (tableWord a) = tableWord a .eight p :=
      run_partialWord_eq_tableWord (by omega) (by omega) (by omega)
    rw [takeFirst, if_pos hmore, takePartial, run_bind, hword, run_pure]
  · have hnone : ¬ (0 : UInt64).toNat < n.toNat := mt UInt64.lt_iff_toNat_lt.2 hmore
    rw [UInt64.toNat_zero] at hnone
    have hword : tableWord a .eight p = 0 := tableWord_beyond _ (by omega)
    rw [takeFirst, if_neg hmore, run_pure, hword, scramble1_zero, UInt64.xor_zero]

theorem run_takeSecond (lane : UInt64) : (takeSecond p n lane).run (tableWord a) =
    lane ^^^ scramble2 (tableWord a .eight (p + 8)) := by
  have h8 : (8 : UInt64).toNat = 8 := rfl
  have hplace : (p + 8).toNat = p.toNat + 8 := toNat_add_of_lt (by omega)
  by_cases hmore : 8 < n
  · have hless := UInt64.lt_iff_toNat_lt.1 hmore
    have hcount : (n - 8).toNat = n.toNat - 8 :=
      UInt64.toNat_sub_of_le _ _ (UInt64.le_of_lt hmore)
    have hword : (partialWord (p + 8) (n - 8)).run (tableWord a) = tableWord a .eight (p + 8) :=
      run_partialWord_eq_tableWord (by omega) (by omega) (by omega)
    rw [takeSecond, if_pos hmore, run_bind, run_add, run_bind, run_sub, takePartial, run_bind,
      hword, run_pure]
  · have hless := mt UInt64.lt_iff_toNat_lt.2 hmore
    have hword : tableWord a .eight (p + 8) = 0 := tableWord_beyond _ (by omega)
    rw [takeSecond, if_neg hmore, run_pure, hword, scramble2_zero, UInt64.xor_zero]

theorem run_tail (s : State) : (tail p n s).run (tableWord a) =
    takeRest (tableWord a .eight p) (tableWord a .eight (p + 8)) s := by
  rw [tail, run_bind, run_bind, run_pure, run_takeFirst hp hn hfits, run_takeSecond hp hn hfits,
    takeRest]

end

/-! ## Digests -/

/-- The first and the second word of the sixteen bytes from place `16 * i` on. -/
def firstWordAt (a : Array UInt8) (i : Nat) : UInt64 := tableWord a .eight (UInt64.ofNat i * 16)

def secondWordAt (a : Array UInt8) (i : Nat) : UInt64 :=
  tableWord a .eight (UInt64.ofNat i * 16 + 8)

theorem toNat_place {i : Nat} (hi : i ≤ a.size / 16) (hsize : a.size < 2 ^ 64) :
    (UInt64.ofNat i * 16).toNat = 16 * i ∧ (UInt64.ofNat i * 16 + 8).toNat = 16 * i + 8 := by
  have h16 : (16 : UInt64).toNat = 16 := rfl
  have h8 : (8 : UInt64).toNat = 8 := rfl
  have hplace : (UInt64.ofNat i * 16).toNat = 16 * i := by
    rw [UInt64.toNat_mul, UInt64.toNat_ofNat', h16]
    omega
  refine ⟨hplace, ?_⟩
  rw [UInt64.toNat_add, hplace, h8]
  omega

/-- Takes in sixteen bytes of an array: a block, or what is left after the blocks. -/
def absorb (a : Array UInt8) (i : Nat) : State → State :=
  if i < a.size / 16 then block (firstWordAt a i) (secondWordAt a i)
  else takeRest (firstWordAt a i) (secondWordAt a i)

/-- The state that all of an array leaves behind. -/
def absorbed (seed : UInt64) (a : Array UInt8) : State :=
  (List.range (a.size / 16 + 1)).foldl (fun s i => absorb a i s) (start seed)

theorem run_blocks (seed : UInt64) (hsize : a.size < 2 ^ 64) :
    (range 0 (UInt64.ofNat (a.size / 16)) round (start seed)).run (tableWord a) =
      (List.range (a.size / 16)).foldl (fun s i => absorb a i s) (start seed) := by
  rw [run_range_eq_foldl, UInt64.toNat_ofNat_of_lt' (Nat.lt_of_le_of_lt (Nat.div_le_self _ _) hsize)]
  apply List.foldl_ext
  intro s i hi
  rw [absorb, if_pos (List.mem_range.1 hi)]
  rfl

theorem ofBytes_eq_finish (f : MurmurHash) (hsize : a.size < 2 ^ 64) :
    ofBytes f a = finish (UInt64.ofNat a.size) (absorbed f.seed a) := by
  have hblocks : UInt64.ofNat a.size / 16 = UInt64.ofNat (a.size / 16) :=
    (UInt64.ofNat_div hsize (by decide)).symm
  obtain ⟨hplace, -⟩ := toNat_place (Nat.le_refl (a.size / 16)) hsize
  have hrest : (UInt64.ofNat a.size - UInt64.ofNat (a.size / 16) * 16).toNat =
      a.size - 16 * (a.size / 16) := by
    rw [toNat_size_sub hsize (by omega), hplace]
  rw [ofBytes_eq_run (eachAlgorithm_readsRange.murmurHash f)]
  change (body f.seed _).run _ = _
  rw [body, hblocks, run_bind, run_blocks _ hsize, run_bind, run_mul, run_bind, run_sub, run_bind,
    run_pure, run_tail (by omega) (by omega) (by omega), absorbed, List.range_succ,
    List.foldl_append, List.foldl_cons, List.foldl_nil, absorb, if_neg (Nat.lt_irrefl _)]
  rfl

end Fingerprint.MurmurHash
