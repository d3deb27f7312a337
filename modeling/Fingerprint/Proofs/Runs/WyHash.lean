import Fingerprint.WyHash
import Fingerprint.Proofs.Runs.Courses
import Mathlib.Algebra.Group.Nat.Defs

/-!
# What wyhash takes in beyond 32 bytes

In each round of a loop, each lane mixes words of its own, two by two. So both loops together are one
fold over rounds, the wide ones first, and one to 32 bytes are left over.
-/

namespace Fingerprint.WyHash
open Plan
set_option autoImplicit false

/-- Words mixed two by two under pairs of keys. -/
def mixes : List (UInt64 × UInt64) → UInt64 → (Nat → UInt64) → UInt64
  | [], _, _ => 0
  | key :: keys, s, words =>
    mix key.1 key.2 s (words 0) (words 1) ^^^ mixes keys s fun k => words (2 + k)

inductive Round where
  | wide
  | narrow

namespace Round

def front : Round → List (UInt64 × UInt64)
  | wide => [(p0, p1), (p2, p3)]
  | narrow => [(p0, p1)]

def back : Round → List (UInt64 × UInt64)
  | wide => [(p1, p2), (p3, p0)]
  | narrow => [(p2, p3)]

def words (r : Round) : Nat := 2 * r.front.length + 2 * r.back.length

def take (r : Round) (words : Nat → UInt64) (s : Lanes) : Lanes :=
  ⟨mixes r.front s.front words, mixes r.back s.back fun k => words (2 * r.front.length + k)⟩

end Round

def absorb : List Round → (Nat → UInt64) → Lanes → Lanes
  | [], _, s => s
  | r :: rs, words, s => absorb rs (fun k => words (r.words + k)) (r.take words s)

def totalWords : List Round → Nat
  | [] => 0
  | r :: rs => r.words + totalWords rs

/-- The rounds over `n` bytes. -/
def schedule (n : Nat) : List Round :=
  (List.replicate ((n - 1) / 256) (List.replicate 4 .wide)).flatten ++
    (List.replicate ((n - 1) % 256 / 32) [.narrow]).flatten

/-- The words from `p` on. -/
def wordsFrom (read : Width → UInt64 → UInt64) (p : UInt64) : Nat → UInt64 := fun k =>
  read .eight (p + UInt64.ofNat (8 * k))

def joined (s : Lanes) : UInt64 := s.front ^^^ s.back

theorem totalWords_append (rs rs' : List Round) :
    totalWords (rs ++ rs') = totalWords rs + totalWords rs' := by
  induction rs with
  | nil => rw [List.nil_append, totalWords, Nat.zero_add]
  | cons r rs ih => rw [List.cons_append, totalWords, totalWords, ih, Nat.add_assoc]

theorem totalWords_flatten_replicate (n : Nat) (rs : List Round) :
    totalWords (List.replicate n rs).flatten = n * totalWords rs := by
  induction n with
  | zero => rw [Nat.zero_mul, List.replicate_zero, List.flatten_nil, totalWords]
  | succ n ih =>
    rw [List.replicate_succ, List.flatten_cons, totalWords_append, ih, Nat.add_comm, Nat.succ_mul]

theorem totalWords_schedule (n : Nat) : totalWords (schedule n) = 4 * ((n - 1) / 32) := by
  have hwide : totalWords (List.replicate 4 .wide) = 32 := rfl
  have hnarrow : totalWords [.narrow] = 4 := rfl
  rw [schedule, totalWords_append, totalWords_flatten_replicate, totalWords_flatten_replicate, hwide,
    hnarrow]
  omega

theorem absorb_append (rs rs' : List Round) (words : Nat → UInt64) (s : Lanes) :
    absorb (rs ++ rs') words s =
      absorb rs' (fun k => words (totalWords rs + k)) (absorb rs words s) := by
  induction rs generalizing words s with
  | nil => simp [absorb, totalWords]
  | cons r rs ih =>
    rw [List.cons_append, absorb, ih, absorb]
    simp only [totalWords, Nat.add_assoc]

section
variable (read : Width → UInt64 → UInt64) (p : UInt64) (s : Lanes)

theorem wordsFrom_add (n : Nat) :
    wordsFrom read (p + UInt64.ofNat (8 * n)) = fun k => wordsFrom read p (n + k) := by
  funext k
  rw [wordsFrom, wordsFrom, UInt64.add_assoc, ← UInt64.ofNat_add, ← Nat.mul_add]

theorem run_takeWide : (takeWide p s).run read = Round.wide.take (wordsFrom read p) s := by
  simp [takeWide, Round.take, Round.front, Round.back, mixes, wordsFrom]

theorem run_takeNarrow :
    (takeNarrow p s).run read = absorb [.narrow] (wordsFrom read p) s := by
  simp [takeNarrow, absorb, Round.take, Round.front, Round.back, mixes, wordsFrom]

theorem run_takeFour :
    (takeFour p s).run read = absorb (List.replicate 4 .wide) (wordsFrom read p) s := by
  have h64 : (64 : UInt64) = UInt64.ofNat (8 * 8) := rfl
  have h128 : (128 : UInt64) = UInt64.ofNat (8 * 16) := rfl
  have h192 : (192 : UInt64) = UInt64.ofNat (8 * 24) := rfl
  simp only [takeFour, run_bind, run_add, run_takeWide]
  rw [h64, h128, h192, wordsFrom_add, wordsFrom_add, wordsFrom_add]
  rfl

/-- Rounds of a loop that each absorb the same rounds absorb all of these in a row. -/
theorem run_roundsAt_eq_absorb {round : UInt64 → Lanes → Plan Lanes} {rs : List Round}
    (h : ∀ p s, (round p s).run read = absorb rs (wordsFrom read p) s) (p n : Nat) :
    (roundsAt round (cursors p (8 * totalWords rs) n) s).run read =
      absorb (List.replicate n rs).flatten (wordsFrom read (.ofNat p)) s := by
  induction n generalizing p s with
  | zero => rfl
  | succ n ih =>
    rw [cursors_succ, roundsAt_cons, run_bind, ih, h, UInt64.ofNat_add, wordsFrom_add,
      List.replicate_succ, List.flatten_cons, absorb_append]

theorem run_wide_rounds (p n : Nat) :
    (roundsAt takeFour (cursors p 256 n) s).run read =
      absorb (List.replicate n (List.replicate 4 .wide)).flatten (wordsFrom read (.ofNat p)) s :=
  run_roundsAt_eq_absorb read s (run_takeFour read) p n

theorem run_narrow_rounds (p n : Nat) :
    (roundsAt takeNarrow (cursors p 32 n) s).run read =
      absorb (List.replicate n [.narrow]).flatten (wordsFrom read (.ofNat p)) s :=
  run_roundsAt_eq_absorb read s (run_takeNarrow read) p n

end

/-! ## The loops -/

/-- Where the rounds of 256 bytes stand: as many as there are before the last byte. -/
def wideCursors (len : UInt64) : List UInt64 := cursors 0 256 ((len.toNat - 1) / 256)

/-- Where the rounds of 32 bytes stand, after those and again before the last byte. -/
def narrowCursors (len : UInt64) : List UInt64 :=
  cursors ((len.toNat - 1) / 256 * 256) 32 ((len.toNat - 1) % 256 / 32)

/-- How many bytes both loops leave over. -/
def leftOver (len : UInt64) : UInt64 := .ofNat ((len.toNat - 1) % 32 + 1)

section
variable {len : UInt64} (h : 0 < len.toNat)

theorem toNat_leftOver (len : UInt64) : (leftOver len).toNat = (len.toNat - 1) % 32 + 1 := by
  have hfits : (len.toNat - 1) % 32 + 1 < 2 ^ 64 := by omega
  exact UInt64.toNat_ofNat_of_lt' hfits

include h

theorem sub_leftOver : len - leftOver len = .ofNat ((len.toNat - 1) / 32 * 32) := by
  have hleft := toNat_leftOver len
  have hle : leftOver len ≤ len := UInt64.le_iff_toNat_le.2 (by omega)
  apply UInt64.toNat.inj
  rw [UInt64.toNat_sub_of_le _ _ hle, toNat_ofNat_le len (by omega)]
  omega

/-- Whatever their rounds do, the loops run wide rounds as long as more than 256 bytes are left, then
narrow ones as long as more than 32 are, and leave over at least one byte. -/
theorem loops_sameCourse {σ : Type} (round round' : UInt64 → σ → Plan σ) (s : σ) :
    SameCourse
      (do
        let (left, p, s) ← countdown wide round len 0 s
        countdown narrow round' left p s)
      (do
        let s ← roundsAt round (wideCursors len) s
        let s ← roundsAt round' (narrowCursors len) s
        return (leftOver len, len - leftOver len, s)) := by
  have hlen := len.toNat_lt
  have h256 : wide.step.toNat = 256 := rfl
  have h32 : narrow.step.toNat = 32 := rfl
  have hzero : (0 : UInt64).toNat = 0 := rfl
  have hwhole : (0 : UInt64).toNat + len.toNat < 2 ^ 64 := by omega
  have hwide := countdown_sameCourse round wide rfl h hwhole rfl s
  rw [h256, hzero, Nat.zero_add] at hwide
  refine (hwide.bind fun r => .refl _).trans ?_
  rw [bind_assoc]
  refine (SameCourse.refl _).bind fun s => ?_
  -- The wide rounds leave one to 256 bytes, and of these the narrow ones start anew to count.
  have hleft := toNat_ofNat_le len (n := len.toNat - (len.toNat - 1) / 256 * 256) (by omega)
  have hcursor := toNat_ofNat_le len (n := (len.toNat - 1) / 256 * 256) (by omega)
  have hcount : (len.toNat - (len.toNat - 1) / 256 * 256 - 1) / 32 =
      (len.toNat - 1) % 256 / 32 := by omega
  have hrest : len.toNat - (len.toNat - 1) / 256 * 256 - (len.toNat - 1) % 256 / 32 * 32 =
      (len.toNat - 1) % 32 + 1 := by omega
  have hend : (len.toNat - 1) / 256 * 256 + (len.toNat - 1) % 256 / 32 * 32 =
      (len.toNat - 1) / 32 * 32 := by omega
  have hsome : 0 < (UInt64.ofNat (len.toNat - (len.toNat - 1) / 256 * 256)).toNat := by omega
  have hfits : (UInt64.ofNat ((len.toNat - 1) / 256 * 256)).toNat +
      (UInt64.ofNat (len.toNat - (len.toNat - 1) / 256 * 256)).toNat < 2 ^ 64 := by omega
  have hnarrow := countdown_sameCourse round' narrow rfl hsome hfits rfl s
  rw [h32, hleft, hcursor, hcount, hrest, hend, ← sub_leftOver h] at hnarrow
  exact hnarrow

theorem long_sameCourse (seed : UInt64) :
    SameCourse (long seed len) (do
      let s ← roundsAt takeFour (wideCursors len) ⟨seed, seed⟩
      let s ← roundsAt takeNarrow (narrowCursors len) s
      let s ← takeLast (len - leftOver len) (leftOver len) s
      return finish (joined s) len) := by
  have hloops := loops_sameCourse h takeFour takeNarrow ⟨seed, seed⟩
  have hlast := hloops.bind fun r => SameCourse.refl (do
    let s ← takeLast r.2.1 r.1 r.2.2
    return finish (joined s) len)
  simp only [bind_assoc, pure_bind] at hlast
  exact hlast

end

/-- Beyond 32 bytes: all rounds, and then the one to 32 bytes that are left. -/
theorem run_long (read : Width → UInt64 → UInt64) (seed : UInt64) {n : Nat} (hpos : 0 < n)
    (hn : n < 2 ^ 64) :
    (long seed (UInt64.ofNat n)).run read =
      finish (joined ((takeLast (UInt64.ofNat ((n - 1) / 32 * 32)) (UInt64.ofNat ((n - 1) % 32 + 1))
        (absorb (schedule n) (wordsFrom read 0) ⟨seed, seed⟩)).run read)) (UInt64.ofNat n) := by
  have hlen : (UInt64.ofNat n).toNat = n := UInt64.toNat_ofNat_of_lt' hn
  have hlong : 0 < (UInt64.ofNat n).toNat := by omega
  have hrounds : absorb (schedule n) (wordsFrom read 0) ⟨seed, seed⟩ =
      (roundsAt takeNarrow (cursors ((n - 1) / 256 * 256) 32 ((n - 1) % 256 / 32))
        ((roundsAt takeFour (cursors 0 256 ((n - 1) / 256)) ⟨seed, seed⟩).run read)).run read := by
    have hskip := wordsFrom_add read 0 (totalWords (List.replicate ((n - 1) / 256)
      (List.replicate 4 .wide)).flatten)
    have hwords : 8 * ((n - 1) / 256 * totalWords (List.replicate 4 .wide)) = (n - 1) / 256 * 256 :=
      by rw [Nat.mul_left_comm]; rfl
    have hzero : UInt64.ofNat 0 = 0 := rfl
    rw [run_narrow_rounds, run_wide_rounds, schedule, absorb_append, ← hskip, UInt64.zero_add,
      totalWords_flatten_replicate, hwords, hzero]
  rw [(long_sameCourse hlong seed).run_eq, run_bind, run_bind, run_bind, run_pure,
    sub_leftOver hlong, leftOver, wideCursors, narrowCursors, hlen, hrounds]

end Fingerprint.WyHash
