import Fingerprint.Proofs.Agreement
import Fingerprint.Proofs.Runs.WyHash

/-!
# The long loops keep to their schedules

A range of more than 64 bytes is taken in by chunks of 64 bytes, but for a last part that is never
empty. The loops over chunks leave only at an equality: where the cursor meets its stop, or where
nothing is left. They come to it because the bytes in whole chunks are rounded down from one byte less
than all. The two loops of wyhash count down and leave over one byte at least. Either way the length
alone says how many rounds there are and where they stand.
-/

namespace Fingerprint
open Plan
set_option autoImplicit false

variable {len : UInt64}

/-! ## Chunks of 64 bytes -/

/-- How many chunks lie before the last part. -/
def chunkCount (len : UInt64) : Nat := (len.toNat - 1) / 64

/-- Where the chunks start: at 0, 64, 128 and so on. -/
def chunkCursors (len : UInt64) : List UInt64 := cursors 0 64 (chunkCount len)

/-- Where the chunks end. -/
def chunkStop (len : UInt64) : UInt64 := .ofNat (chunkCount len * 64)

theorem toNat_chunkStop (len : UInt64) : (chunkStop len).toNat = chunkCount len * 64 :=
  toNat_ofNat_le len (by rw [chunkCount]; omega)

theorem chunkCursors_fit (len : UInt64) : 0 + chunkCount len * 64 < 2 ^ 64 := by
  rw [Nat.zero_add, ← toNat_chunkStop]
  exact UInt64.toNat_lt _

theorem chunkStop_lt (h : 64 < len.toNat) : chunkStop len < len := by
  rw [UInt64.lt_iff_toNat_lt, toNat_chunkStop, chunkCount]
  omega

theorem CityHash.chunkBytes_sameCourse (h : 64 < len.toNat) :
    SameCourse (chunkBytes len) (pure (chunkStop len)) := by
  have hone : (1 : UInt64).toNat ≤ len.toNat := Nat.zero_lt_of_lt h
  have hvalue : (len - 1) &&& ~~~63 = chunkStop len := by
    apply UInt64.toNat.inj
    rw [toNat_clear, toNat_allButLast hone, toNat_chunkStop, chunkCount]
  rw [← hvalue]
  exact (SameCourse.sub hone).known _

theorem FarmHash.chunkEnd_sameCourse (h : 64 < len.toNat) :
    SameCourse (chunkEnd len) (pure (chunkStop len)) := by
  have hlen := len.toNat_lt
  have hone : (1 : UInt64).toNat ≤ len.toNat := Nat.zero_lt_of_lt h
  have hcount : ((len - 1) / 64).toNat = chunkCount len := by
    rw [UInt64.toNat_div, toNat_allButLast hone]
    rfl
  have h64 : (64 : UInt64).toNat = 64 := rfl
  have hfits : ((len - 1) / 64).toNat * (64 : UInt64).toNat < 2 ^ 64 := by
    rw [hcount, h64, chunkCount]
    omega
  have hvalue : (len - 1) / 64 * 64 = chunkStop len := by
    apply UInt64.toNat.inj
    rw [UInt64.toNat_mul, Nat.mod_eq_of_lt hfits, hcount, h64, toNat_chunkStop]
  rw [← hvalue]
  exact ((SameCourse.sub hone).known _).trans (SameCourse.mul hfits)

section
variable (h : 64 < len.toNat)
include h

theorem chunkCount_pos : 0 < chunkCount len := Nat.div_pos (by omega) (by decide)

/-- The loop that counts down what is left, whatever its rounds do. -/
theorem portions_onSchedule (σ : Type) :
    KeepsTo (chunkCursors len) fun bound (round : UInt64 → σ → Plan σ) s =>
      portions 64 round bound (chunkStop len) 0 s :=
  portions_keepsTo (chunkCount_pos h) (by decide) (toNat_chunkStop len) (chunkCursors_fit len)

/-- The loop that compares its cursor with the stop, whatever its rounds do. -/
theorem chunks_onSchedule (σ : Type) :
    KeepsTo (chunkCursors len) fun bound (round : UInt64 → σ → Plan σ) s =>
      chunks 64 (chunkStop len) round bound 0 s := by
  have hstop : (chunkStop len).toNat = 0 + chunkCount len * 64 := by
    rw [Nat.zero_add, toNat_chunkStop]
  exact chunks_keepsTo (chunkCount_pos h) (by decide) hstop

end

/-- The length is bound enough for the rounds. -/
theorem length_chunkCursors_le (len : UInt64) : (chunkCursors len).length ≤ len.toNat := by
  rw [chunkCursors, length_cursors, chunkCount]
  omega

/-- As numbers, the cursors are the multiples of 64 below the stop. -/
theorem map_toNat_chunkCursors (len : UInt64) :
    (chunkCursors len).map UInt64.toNat = (List.range (chunkCount len)).map (· * 64) := by
  rw [chunkCursors, map_toNat_cursors (chunkCursors_fit len)]
  simp only [Nat.zero_add]

theorem ends_le_chunkStop (len : UInt64) :
    ∀ p ∈ chunkCursors len, p.toNat + 64 ≤ (chunkStop len).toNat := by
  intro p hp
  have hmem : p.toNat ∈ (List.range (chunkCount len)).map (· * 64) :=
    map_toNat_chunkCursors len ▸ List.mem_map_of_mem hp
  obtain ⟨k, hk, hpk⟩ := List.mem_map.1 hmem
  rw [List.mem_range] at hk
  rw [toNat_chunkStop]
  omega

/-! ## Bodies over long ranges -/

theorem CityHash.body_of_lt (h : 64 < len) : body len = long len := by
  have h32 : ¬ len ≤ 32 := UInt64.not_le.2 (UInt64.lt_trans (by decide) h)
  rw [body, if_neg h32, if_neg (UInt64.not_le.2 h)]

theorem FarmHash.Na.body_of_lt (h : 64 < len) : body len = long len := by
  have h32 : ¬ len ≤ 32 := UInt64.not_le.2 (UInt64.lt_trans (by decide) h)
  rw [body, if_neg h32, if_neg (UInt64.not_le.2 h)]

section
variable (h : 64 < len.toNat)
include h

theorem CityHash.body_sameCourse :
    SameCourse (body len) (do
      let s ← start len
      let s ← roundsAt round (chunkCursors len) s
      return finish s) := by
  rw [body_of_lt (UInt64.lt_iff_toNat_lt.2 h), long]
  refine (SameCourse.refl (start len)).bind fun s => ?_
  refine ((chunkBytes_sameCourse h).known _).trans ?_
  have hloop := (portions_onSchedule h State).roundsAt round s (length_chunkCursors_le len)
  exact hloop.bind fun s => .refl (pure (finish s))

theorem FarmHash.Na.body_sameCourse :
    SameCourse (body len) (do
      let s ← start
      let s ← roundsAt CityHash.round (chunkCursors len) s
      let r ← lastRound len (len - 64) s
      return finish (lastMultiplier s) r) := by
  have h64 : (64 : UInt64).toNat ≤ len.toNat := Nat.le_of_lt h
  rw [body_of_lt (UInt64.lt_iff_toNat_lt.2 h), long]
  refine ((chunkEnd_sameCourse h).known _).trans ?_
  refine ((SameCourse.sub h64).known _).trans ?_
  refine (SameCourse.refl start).bind fun s => ?_
  have hloop := (chunks_onSchedule h CityHash.State).roundsAt CityHash.round s
    (length_chunkCursors_le len)
  exact hloop.bind fun s => .refl _

theorem FarmHash.Uo.body_sameCourse (seeds : Seeds) :
    SameCourse (body seeds len) (
      let first := start (loopSeeds seeds).1 (loopSeeds seeds).2
      let mul := loopMultiplier first
      roundsAt (round mul) (chunkCursors len) first >>= lastRound mul len (len - 64)) := by
  have h64 : (64 : UInt64).toNat ≤ len.toNat := Nat.le_of_lt h
  rw [body_of_lt seeds (UInt64.lt_iff_toNat_lt.2 h), long]
  refine ((chunkEnd_sameCourse h).known _).trans ?_
  refine ((SameCourse.sub h64).known _).trans ?_
  refine SameCourse.bind ?_ fun s => .refl _
  exact (chunks_onSchedule h State).roundsAt _ _ (length_chunkCursors_le len)

end

namespace WyHash

theorem leftOver_pos (len : UInt64) : 0 < leftOver len := by
  rw [UInt64.lt_iff_toNat_lt, toNat_leftOver]
  exact Nat.succ_pos _

theorem leftOver_le (len : UInt64) : leftOver len ≤ 32 := by
  rw [UInt64.le_iff_toNat_le, toNat_leftOver]
  exact Nat.mod_lt _ (by decide)

theorem map_toNat_wideCursors (len : UInt64) :
    (wideCursors len).map UInt64.toNat =
      (List.range ((len.toNat - 1) / 256)).map (· * 256) := by
  have hlen := len.toNat_lt
  rw [wideCursors, map_toNat_cursors (by omega)]
  simp only [Nat.zero_add]

theorem map_toNat_narrowCursors (len : UInt64) :
    (narrowCursors len).map UInt64.toNat =
      (List.range ((len.toNat - 1) % 256 / 32)).map ((len.toNat - 1) / 256 * 256 + · * 32) := by
  have hlen := len.toNat_lt
  rw [narrowCursors, map_toNat_cursors (by omega)]

theorem body_sameCourse (h : 32 < len.toNat) (seed : UInt64) :
    SameCourse (body seed len) (do
      let s ← roundsAt takeFour (wideCursors len) ⟨seed, seed⟩
      let s ← roundsAt takeNarrow (narrowCursors len) s
      let s ← takeLast (len - leftOver len) (leftOver len) s
      return finish (joined s) len) := by
  have hlong : ¬ len ≤ 32 := UInt64.not_le.2 (UInt64.lt_iff_toNat_lt.2 h)
  rw [body, if_neg hlong]
  exact long_sameCourse (Nat.zero_lt_of_lt h) seed

end WyHash

/-! ## The schedules -/

/-- What the loops over chunks do on a range of this length. -/
structure ChunksOnSchedule (len : UInt64) : Prop where
  /-- There are as many rounds as whole chunks before the last byte, at 0, 64, 128 and so on. -/
  cursors : (chunkCursors len).map UInt64.toNat =
    (List.range ((len.toNat - 1) / 64)).map (· * 64)
  /-- To clear the lowest bits and to divide and multiply come to the same stop. -/
  chunkBytes : SameCourse (CityHash.chunkBytes len) (pure (chunkStop len))
  chunkEnd : SameCourse (FarmHash.chunkEnd len) (pure (chunkStop len))
  /-- No round goes past the stop, and the stop is short of the end of the range. -/
  ends_le : ∀ p ∈ chunkCursors len, p.toNat + 64 ≤ (chunkStop len).toNat
  stop_lt : chunkStop len < len
  portions (σ : Type) : KeepsTo (chunkCursors len) fun bound (round : UInt64 → σ → Plan σ) s =>
    portions 64 round bound (chunkStop len) 0 s
  chunks (σ : Type) : KeepsTo (chunkCursors len) fun bound (round : UInt64 → σ → Plan σ) s =>
    chunks 64 (chunkStop len) round bound 0 s
  /-- The bodies run these loops, each with its own rounds, under a bound that is high enough. -/
  cityHash : SameCourse (CityHash.body len) (do
    let s ← CityHash.start len
    let s ← roundsAt CityHash.round (chunkCursors len) s
    return CityHash.finish s)
  farmHashNa : SameCourse (FarmHash.Na.body len) (do
    let s ← FarmHash.Na.start
    let s ← roundsAt CityHash.round (chunkCursors len) s
    let r ← FarmHash.Na.lastRound len (len - 64) s
    return FarmHash.Na.finish (FarmHash.Na.lastMultiplier s) r)
  farmHashUo (seeds : Seeds) : SameCourse (FarmHash.Uo.body seeds len) (
    let first := FarmHash.Uo.start (FarmHash.Uo.loopSeeds seeds).1 (FarmHash.Uo.loopSeeds seeds).2
    let mul := FarmHash.Uo.loopMultiplier first
    roundsAt (FarmHash.Uo.round mul) (chunkCursors len) first >>=
      FarmHash.Uo.lastRound mul len (len - 64))

/-- What the loops of wyhash do on a range of this length. -/
structure WyHash.StripesOnSchedule (len : UInt64) : Prop where
  /-- The wide rounds start with the range, and the narrow ones where the wide ones end. -/
  cursors_wide : (wideCursors len).map UInt64.toNat =
    (List.range ((len.toNat - 1) / 256)).map (· * 256)
  cursors_narrow : (narrowCursors len).map UInt64.toNat =
    (List.range ((len.toNat - 1) % 256 / 32)).map ((len.toNat - 1) / 256 * 256 + · * 32)
  /-- One to 32 bytes are left over. -/
  left_pos : 0 < leftOver len
  left_le : leftOver len ≤ 32
  /-- Both loops, whatever their rounds do. They return what is left and the cursor there. -/
  loops (σ : Type) (round round' : UInt64 → σ → Plan σ) (s : σ) : SameCourse
    (do
      let (left, p, s) ← countdown wide round len 0 s
      countdown narrow round' left p s)
    (do
      let s ← roundsAt round (wideCursors len) s
      let s ← roundsAt round' (narrowCursors len) s
      return (leftOver len, len - leftOver len, s))
  body (seed : UInt64) : SameCourse (body seed len) (do
    let s ← roundsAt takeFour (wideCursors len) ⟨seed, seed⟩
    let s ← roundsAt takeNarrow (narrowCursors len) s
    let s ← takeLast (len - leftOver len) (leftOver len) s
    return finish (joined s) len)

/-- The long loops run their schedules and stop. Above 64 bytes the loops of the City function and of
Farm's two, which leave only at an equality, run one round for each whole 64 bytes before the last byte.
Above 32 bytes wyhash runs one wide round for each whole 256 bytes before the last byte, then one narrow
round for each whole 32 bytes of what still lies before it, and is left with one to 32 bytes. -/
theorem longLoops_onSchedule (len : UInt64) :
    (64 < len.toNat → ChunksOnSchedule len) ∧
      (32 < len.toNat → WyHash.StripesOnSchedule len) := by
  constructor
  · intro h
    exact {
      cursors := map_toNat_chunkCursors len
      chunkBytes := CityHash.chunkBytes_sameCourse h
      chunkEnd := FarmHash.chunkEnd_sameCourse h
      ends_le := ends_le_chunkStop len
      stop_lt := chunkStop_lt h
      portions := portions_onSchedule h
      chunks := chunks_onSchedule h
      cityHash := CityHash.body_sameCourse h
      farmHashNa := FarmHash.Na.body_sameCourse h
      farmHashUo := FarmHash.Uo.body_sameCourse h }
  · intro h
    have hsome : 0 < len.toNat := Nat.zero_lt_of_lt h
    exact {
      cursors_wide := WyHash.map_toNat_wideCursors len
      cursors_narrow := WyHash.map_toNat_narrowCursors len
      left_pos := WyHash.leftOver_pos len
      left_le := WyHash.leftOver_le len
      loops := fun _ round round' s => WyHash.loops_sameCourse hsome round round' s
      body := WyHash.body_sameCourse h }

/-- Where all bytes lie in whole chunks, the last chunk and the last stripe are left over. -/
theorem longLoops_onSchedule_five_chunks :
    (ChunksOnSchedule 320 ∧ chunkCursors 320 = [0, 64, 128, 192] ∧ chunkStop 320 = 256) ∧
      WyHash.StripesOnSchedule 320 ∧ WyHash.wideCursors 320 = [0] ∧
        WyHash.narrowCursors 320 = [256] ∧ WyHash.leftOver 320 = 32 := by
  obtain ⟨hchunks, hstripes⟩ := longLoops_onSchedule 320
  exact ⟨⟨hchunks (by decide), rfl, rfl⟩, hstripes (by decide), rfl, rfl, rfl⟩

end Fingerprint
