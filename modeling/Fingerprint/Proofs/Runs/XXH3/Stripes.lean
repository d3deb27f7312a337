import Fingerprint.Proofs.Reads.XXH3.Long
import Fingerprint.Proofs.Runs.Loops
import Mathlib.Data.List.Basic

/-!
# The long loop of XXH3 is one pass over its stripes

What is done to the lanes can be written down beforehand, from the length alone: a stripe after each
64 bytes but for the last byte, a scramble after every sixteenth stripe, and the last 64 bytes at the
end. The loop over blocks, with the loops over stripes in it and after it, does just that.
-/

namespace Fingerprint.XXH3
open Plan
set_option autoImplicit false

/-! ## The schedule -/

/-- What is done to the lanes at once: to take in the 64 bytes at a position, or to scramble; either is
keyed from an offset of the secret on. -/
inductive LaneStep where
  | stripe (position offset : Nat)
  | scramble (offset : Nat)
deriving DecidableEq

namespace LaneStep

/-- The steps at stripe `i`, counted through all blocks. -/
def atStripe (i : Nat) : List LaneStep :=
  stripe (64 * i) (8 * (i % 16)) :: if (i + 1) % 16 = 0 then [scramble 128] else []

/-- The steps for a range of `len` bytes. -/
def schedule (len : Nat) : List LaneStep :=
  (List.range ((len - 1) / 64)).flatMap atStripe ++ [stripe (len - 64) 121]

/-- The first `n` stripes of a block. -/
def stripesOf (b n : Nat) : List LaneStep :=
  (List.range n).map fun i => stripe (64 * (16 * b + i)) (8 * i)

def blockOf (b : Nat) : List LaneStep := stripesOf b 16 ++ [scramble 128]

theorem atStripe_of_lt {b i : Nat} (hi : i < 15) :
    atStripe (16 * b + i) = [stripe (64 * (16 * b + i)) (8 * i)] := by
  have hoffset : (16 * b + i) % 16 = i := by omega
  have hinside : (16 * b + i + 1) % 16 ≠ 0 := by omega
  rw [atStripe, if_neg hinside, hoffset]

theorem atStripe_last (b : Nat) :
    atStripe (16 * b + 15) = [stripe (64 * (16 * b + 15)) (8 * 15), scramble 128] := by
  have hoffset : (16 * b + 15) % 16 = 15 := by omega
  have hend : (16 * b + 15 + 1) % 16 = 0 := by omega
  rw [atStripe, if_pos hend, hoffset]

/-- Stripes that do not complete their block are not scrambled after. -/
theorem flatMap_atStripe_within (b : Nat) {n : Nat} (hn : n < 16) :
    (List.range n).flatMap (fun i => atStripe (16 * b + i)) = stripesOf b n := by
  induction n with
  | zero => rfl
  | succ n ih =>
    rw [List.range_succ, List.flatMap_append, ih (by omega), List.flatMap_singleton,
      atStripe_of_lt (by omega), stripesOf, stripesOf, List.range_succ, List.map_append,
      List.map_singleton]

theorem flatMap_atStripe_block (b : Nat) :
    (List.range 16).flatMap (fun i => atStripe (16 * b + i)) = blockOf b := by
  have hlast : List.range 16 = List.range 15 ++ [15] := List.range_succ
  rw [blockOf, stripesOf, hlast, List.flatMap_append, flatMap_atStripe_within b (by decide),
    List.flatMap_singleton, atStripe_last, List.map_append, List.append_assoc, stripesOf]
  rfl

theorem flatMap_atStripe (b : Nat) {n : Nat} (hn : n < 16) :
    (List.range (16 * b + n)).flatMap atStripe =
      (List.range b).flatMap blockOf ++ stripesOf b n := by
  have hblocks : (List.range (16 * b)).flatMap atStripe = (List.range b).flatMap blockOf := by
    induction b with
    | zero => rfl
    | succ b ih =>
      rw [Nat.mul_succ, List.range_add, List.flatMap_append, ih, List.flatMap_map,
        flatMap_atStripe_block, List.range_succ, List.flatMap_append, List.flatMap_singleton]
  rw [List.range_add, List.flatMap_append, hblocks, List.flatMap_map, flatMap_atStripe_within b hn]

/-- The schedule, block by block. -/
theorem schedule_eq_blocks (len : Nat) :
    schedule len = (List.range ((len - 1) / 1024)).flatMap blockOf ++
      stripesOf ((len - 1) / 1024) ((len - 1) % 1024 / 64) ++ [stripe (len - 64) 121] := by
  have hsplit : (len - 1) / 64 = 16 * ((len - 1) / 1024) + (len - 1) % 1024 / 64 := by omega
  rw [schedule, hsplit, flatMap_atStripe _ (by omega)]

/-- Where the range is made of whole blocks, the last of them is not scrambled after. -/
theorem schedule_of_dvd {len : Nat} (hpos : 0 < len) (h : 1024 ∣ len) :
    schedule len = (List.range (len / 1024 - 1)).flatMap blockOf ++
      (stripesOf (len / 1024 - 1) 15 ++ [stripe (len - 64) 121]) := by
  have hblocks : (len - 1) / 1024 = len / 1024 - 1 := by omega
  have hmore : (len - 1) % 1024 / 64 = 15 := by omega
  rw [schedule_eq_blocks, hblocks, hmore, List.append_assoc]

/-! ## Scrambles -/

theorem count_scramble_stripesOf (b n : Nat) : (stripesOf b n).count (scramble 128) = 0 := by
  rw [List.count_eq_zero, stripesOf, List.mem_map]
  rintro ⟨i, _, h⟩
  cases h

theorem count_scramble_blockOf (b : Nat) : (blockOf b).count (scramble 128) = 1 := by
  rw [blockOf, List.count_append, count_scramble_stripesOf]
  rfl

theorem count_scramble_blocks (n : Nat) :
    ((List.range n).flatMap blockOf).count (scramble 128) = n := by
  induction n with
  | zero => rfl
  | succ n ih =>
    rw [List.range_succ, List.flatMap_append, List.count_append, ih, List.flatMap_singleton,
      count_scramble_blockOf]

theorem count_scramble_schedule (len : Nat) :
    (schedule len).count (scramble 128) = (len - 1) / 1024 := by
  rw [schedule_eq_blocks, List.count_append, List.count_append, count_scramble_blocks,
    count_scramble_stripesOf]
  rfl

theorem eq_of_scramble_mem {len o : Nat} (h : scramble o ∈ schedule len) : o = 128 := by
  rw [schedule, List.mem_append, List.mem_flatMap, List.mem_singleton] at h
  obtain ⟨i, -, hi⟩ | h := h
  · rw [atStripe] at hi
    split at hi <;> simp at hi
    exact hi
  · cases h

end LaneStep

/-! ## The run -/

section
variable {len : UInt64} (h : 1 ≤ len.toNat)
include h

theorem toNat_wholeBlocks : ((len - 1) / blockBytes).toNat = (len.toNat - 1) / 1024 := by
  rw [UInt64.toNat_div, toNat_allButLast h, toNat_blockBytes]

theorem toNat_moreStripes :
    ((len - 1 - blockBytes * ((len - 1) / blockBytes)) / stripeBytes).toNat =
      (len.toNat - 1) % 1024 / 64 := by
  have hlen := len.toNat_lt
  have hbody := toNat_allButLast h
  have hdone : (blockBytes * ((len - 1) / blockBytes)).toNat = 1024 * ((len.toNat - 1) / 1024) := by
    rw [UInt64.toNat_mul, toNat_wholeBlocks h, toNat_blockBytes]
    omega
  rw [UInt64.toNat_div, UInt64.toNat_sub_of_le _ _ (UInt64.le_iff_toNat_le.2 (by omega)), hbody,
    hdone, toNat_stripeBytes]
  omega

end

section
variable (secret : Secret) (read : Width → UInt64 → UInt64)

/-- What a step makes of the lanes, where `read` answers for the range. -/
def LaneStep.run : LaneStep → Lanes → Lanes
  | stripe p o, acc => (accumulate secret (.ofNat p) (.ofNat o) acc).run read
  | scramble o, acc => (XXH3.scramble secret (.ofNat o) acc).run read

def LaneStep.runAll (steps : List LaneStep) (acc : Lanes) : Lanes :=
  steps.foldl (fun acc step => step.run secret read acc) acc

open LaneStep

theorem run_stripes {p n : UInt64} {b : Nat} (hp : p = .ofNat (1024 * b)) (acc : Lanes) :
    (stripes secret p n acc).run read = runAll secret read (stripesOf b n.toNat) acc := by
  rw [stripes, run_range_eq_foldl, runAll, stripesOf, List.foldl_map]
  apply List.foldl_ext
  intro acc i _
  have hposition : p + .ofNat i * stripeBytes = .ofNat (64 * (16 * b + i)) := by
    have hsum : 64 * (16 * b + i) = 1024 * b + i * 64 := by omega
    rw [hsum, UInt64.ofNat_add, UInt64.ofNat_mul i, ← hp]
    rfl
  have hoffset : UInt64.ofNat i * 8 = .ofNat (8 * i) := by
    rw [Nat.mul_comm, UInt64.ofNat_mul]
    rfl
  rw [run_bind, run_mul, run_bind, run_add, run_bind, run_mul, hposition, hoffset]
  rfl

theorem run_block (b : Nat) (acc : Lanes) :
    (block secret (.ofNat b) acc).run read = runAll secret read (blockOf b) acc := by
  have hplace : UInt64.ofNat b * blockBytes = .ofNat (1024 * b) := by
    rw [Nat.mul_comm, UInt64.ofNat_mul]
    rfl
  rw [block, run_bind, run_mul, run_bind, run_stripes secret read hplace, toNat_blockStripes,
    blockOf, runAll, runAll, List.foldl_append]
  rfl

theorem run_blocks (n : UInt64) (acc : Lanes) : (range 0 n (block secret) acc).run read =
    runAll secret read ((List.range n.toNat).flatMap blockOf) acc := by
  rw [run_range_eq_foldl, runAll, List.foldl_flatMap]
  apply List.foldl_ext
  intro acc b _
  exact run_block secret read b acc

theorem run_longLanes {len : UInt64} (h : 64 ≤ len.toNat) :
    (longLanes secret len).run read = runAll secret read (schedule len.toNat) Lanes.start := by
  have hblocks := toNat_wholeBlocks (by omega : 1 ≤ len.toNat)
  have hplace : (len - 1) / blockBytes * blockBytes = .ofNat (1024 * ((len.toNat - 1) / 1024)) := by
    rw [← hblocks, UInt64.ofNat_mul, UInt64.ofNat_toNat, UInt64.mul_comm]
    rfl
  have hlast : len - stripeBytes = .ofNat (len.toNat - 64) := by
    have hstripe : stripeBytes ≤ len := UInt64.le_iff_toNat_le.2 h
    have hlen := len.toNat_lt
    apply UInt64.toNat.inj
    rw [UInt64.toNat_sub_of_le _ _ hstripe, toNat_stripeBytes, UInt64.toNat_ofNat',
      Nat.mod_eq_of_lt (by omega)]
  rw [longLanes, run_bind, run_sub, run_bind, run_blocks, run_bind, run_sub, run_bind, run_mul,
    run_bind, run_sub, run_bind, run_mul, run_bind, run_stripes secret read hplace, run_bind,
    run_sub, hblocks, toNat_moreStripes (by omega), hlast, schedule_eq_blocks]
  simp only [runAll, List.foldl_append]
  rfl

/-- Above 240 bytes the lanes come of one pass over the stripes, whatever the secret. It scrambles once
for every 1024 bytes before the last byte, always keyed from byte 128 of the secret on; a range of
whole blocks ends in sixteen stripes with no scramble among or after them. -/
theorem longLanes_onePass {len : UInt64} (h : 240 < len.toNat) :
    (∀ read, (longLanes secret len).run read =
      runAll secret read (schedule len.toNat) Lanes.start) ∧
    (schedule len.toNat).count (.scramble 128) = (len.toNat - 1) / 1024 ∧
    (∀ o, .scramble o ∈ schedule len.toNat → o = 128) ∧
    (1024 ∣ len.toNat → ∃ before, schedule len.toNat =
      before ++ (stripesOf (len.toNat / 1024 - 1) 15 ++ [.stripe (len.toNat - 64) 121])) := by
  refine ⟨fun read => run_longLanes secret read (by omega), count_scramble_schedule _,
    fun _ => eq_of_scramble_mem, ?_⟩
  intro hblocks
  exact ⟨_, schedule_of_dvd (by omega) hblocks⟩

/-- Two whole blocks are scrambled once. -/
theorem longLanes_onePass_two_blocks :
    (longLanes (.derive 7) 2048).run (tableWord (Array.replicate 2048 1)) =
      runAll (.derive 7) (tableWord (Array.replicate 2048 1)) (schedule 2048) Lanes.start ∧
    (schedule 2048).count (.scramble 128) = 1 ∧
    .scramble 121 ∉ schedule 2048 ∧
    ∃ before, schedule 2048 = before ++ (stripesOf 1 15 ++ [.stripe 1984 121]) := by
  have hlong : 240 < (2048 : UInt64).toNat := by decide
  obtain ⟨hrun, hcount, hoffset, hlast⟩ := longLanes_onePass (.derive 7) hlong
  exact ⟨hrun _, hcount, fun h => absurd (hoffset 121 h) (by decide), hlast ⟨2, rfl⟩⟩

end

end Fingerprint.XXH3
