import Fingerprint.Proofs.Heeds.Basic
import Fingerprint.Proofs.Heeds.Mixes
import Fingerprint.Proofs.Reads.WyHash

/-!
# What wyhash heeds of more than 32 bytes

The words of the rounds can be chosen to lead both lanes anywhere. They can also be chosen so that one
bit, turned, leads one lane from zero to any word, and each later round on again, while the other lane
is led anywhere. So the last bytes, be they zero or with one bit turned, can be met by lanes from which
the last product folds zero on one side and not on the other.
-/

namespace Fingerprint.WyHash
open Plan HashFunction
set_option autoImplicit false

/-! ## One round -/

inductive Side where
  | front
  | back

/-- One lane, and the other one. -/
def Side.put : Side → UInt64 → UInt64 → Lanes
  | front, x, y => ⟨x, y⟩
  | back, x, y => ⟨y, x⟩

section
variable {words words' : Nat → UInt64}

namespace Round

variable (r : Round)

theorem front_ne_nil : r.front ≠ [] := by cases r <;> exact List.cons_ne_nil _ _

theorem back_ne_nil : r.back ≠ [] := by cases r <;> exact List.cons_ne_nil _ _

theorem take_congr (h : ∀ k < r.words, words k = words' k) (s : Lanes) :
    r.take words s = r.take words' s := by
  have hwords : r.words = 2 * r.front.length + 2 * r.back.length := rfl
  rw [take, take, mixes_congr fun k hk => h k (by omega),
    mixes_congr fun k hk => h (2 * r.front.length + k) (by omega)]

theorem take_splice (s : Lanes) :
    r.take (splice (2 * r.front.length) words words') s =
      ⟨mixes r.front s.front words, mixes r.back s.back words'⟩ := by
  rw [take, mixes_congr fun k hk => splice_of_lt hk]
  simp only [splice_add]

theorem exists_take (s s' : Lanes) : ∃ words, r.take words s = s' := by
  obtain ⟨words, hwords⟩ := exists_mixes r.front_ne_nil s.front s'.front
  obtain ⟨words', hwords'⟩ := exists_mixes r.back_ne_nil s.back s'.back
  exact ⟨splice (2 * r.front.length) words words', by rw [take_splice, hwords, hwords']⟩

/-- A lane that differs goes on to differ, and as is wanted. -/
theorem exists_take_zero_one (side : Side) (y x y' : UInt64) :
    ∃ words, r.take words (side.put 0 y) = side.put 0 y' ∧
      r.take words (side.put 1 y) = side.put x y' := by
  cases side with
  | front =>
    obtain ⟨words, hzero, hone⟩ := exists_mixes_zero_one r.front_ne_nil x
    obtain ⟨words', hother⟩ := exists_mixes r.back_ne_nil y y'
    refine ⟨splice (2 * r.front.length) words words', ?_, ?_⟩
    · rw [take_splice, Side.put, hzero, hother, Side.put]
    · rw [take_splice, Side.put, hone, hother, Side.put]
  | back =>
    obtain ⟨words, hother⟩ := exists_mixes r.front_ne_nil y y'
    obtain ⟨words', hzero, hone⟩ := exists_mixes_zero_one r.back_ne_nil x
    refine ⟨splice (2 * r.front.length) words words', ?_, ?_⟩
    · rw [take_splice, Side.put, hzero, hother, Side.put]
    · rw [take_splice, Side.put, hone, hother, Side.put]

/-- A bit of any word of a round can make one of the lanes differ, as is wanted. -/
theorem exists_take_turned {j m : Nat} (hj : j < r.words) (hm : m < 64) (s : Lanes) :
    ∃ side : Side, ∀ x y, ∃ words, r.take words s = side.put 0 y ∧
      r.take (flipWord words j m) s = side.put x y := by
  have hwords : r.words = 2 * r.front.length + 2 * r.back.length := rfl
  by_cases hfront : j < 2 * r.front.length
  · refine ⟨.front, fun x y => ?_⟩
    obtain ⟨words, hclosed, hopen⟩ := exists_mixes_turned hfront hm s.front x
    obtain ⟨words', hother⟩ := exists_mixes r.back_ne_nil s.back y
    refine ⟨splice (2 * r.front.length) words words', ?_, ?_⟩
    · rw [take_splice, hclosed, hother, Side.put]
    · rw [flipWord_splice_of_lt hfront, take_splice, hopen, hother, Side.put]
  · obtain ⟨i, rfl⟩ : ∃ i, j = 2 * r.front.length + i := ⟨j - 2 * r.front.length, by omega⟩
    refine ⟨.back, fun x y => ?_⟩
    obtain ⟨words, hother⟩ := exists_mixes r.front_ne_nil s.front y
    obtain ⟨words', hclosed, hopen⟩ :=
      exists_mixes_turned (by omega : i < 2 * r.back.length) hm s.back x
    refine ⟨splice (2 * r.front.length) words words', ?_, ?_⟩
    · rw [take_splice, hclosed, hother, Side.put]
    · rw [flipWord_splice_add, take_splice, hopen, hother, Side.put]

end Round

/-! ## All rounds -/

theorem absorb_congr {rs : List Round} (h : ∀ k < totalWords rs, words k = words' k) (s : Lanes) :
    absorb rs words s = absorb rs words' s := by
  induction rs generalizing words words' s with
  | nil => rfl
  | cons r rs ih =>
    have htotal : totalWords (r :: rs) = r.words + totalWords rs := rfl
    rw [absorb, absorb, r.take_congr fun k hk => h k (by omega),
      ih fun k hk => h (r.words + k) (by omega)]

theorem absorb_splice (r : Round) (rs : List Round) (s : Lanes) :
    absorb (r :: rs) (splice r.words words words') s = absorb rs words' (r.take words s) := by
  rw [absorb, r.take_congr fun k hk => splice_of_lt hk]
  simp only [splice_add]

end

section
variable {rs : List Round}

theorem exists_absorb (h : rs ≠ []) (s s' : Lanes) : ∃ words, absorb rs words s = s' := by
  induction rs generalizing s with
  | nil => exact absurd rfl h
  | cons r rs ih =>
    cases rs with
    | nil => exact r.exists_take s s'
    | cons q rs =>
      obtain ⟨words, hwords⟩ := ih (List.cons_ne_nil q rs) (r.take (fun _ => 0) s)
      exact ⟨splice r.words (fun _ => 0) words, by rw [absorb_splice, hwords]⟩

theorem exists_absorb_zero_one (h : rs ≠ []) (side : Side) (y x y' : UInt64) :
    ∃ words, absorb rs words (side.put 0 y) = side.put 0 y' ∧
      absorb rs words (side.put 1 y) = side.put x y' := by
  induction rs generalizing y with
  | nil => exact absurd rfl h
  | cons r rs ih =>
    cases rs with
    | nil => exact r.exists_take_zero_one side y x y'
    | cons q rs =>
      obtain ⟨words, hzero, hone⟩ := r.exists_take_zero_one side y 1 0
      obtain ⟨words', hzero', hone'⟩ := ih (List.cons_ne_nil q rs) 0
      refine ⟨splice r.words words words', ?_, ?_⟩
      · rw [absorb_splice, hzero, hzero']
      · rw [absorb_splice, hone, hone']

/-- A bit of any word can make one of the lanes differ in the end, as is wanted, while the other one is
led anywhere. -/
theorem exists_absorb_turned {j m : Nat} (hj : j < totalWords rs) (hm : m < 64) (s : Lanes) :
    ∃ side : Side, ∀ x y, ∃ words, absorb rs words s = side.put 0 y ∧
      absorb rs (flipWord words j m) s = side.put x y := by
  induction rs generalizing j s with
  | nil => exact absurd hj (Nat.not_lt_zero j)
  | cons r rs ih =>
    have htotal : totalWords (r :: rs) = r.words + totalWords rs := rfl
    by_cases hfirst : j < r.words
    · obtain ⟨side, hside⟩ := r.exists_take_turned hfirst hm s
      refine ⟨side, fun x y => ?_⟩
      cases rs with
      | nil => exact hside x y
      | cons q rs =>
        obtain ⟨words, hclosed, hopen⟩ := hside 1 0
        obtain ⟨words', hzero, hone⟩ :=
          exists_absorb_zero_one (List.cons_ne_nil q rs) side 0 x y
        refine ⟨splice r.words words words', ?_, ?_⟩
        · rw [absorb_splice, hclosed, hzero]
        · rw [flipWord_splice_of_lt hfirst, absorb_splice, hopen, hone]
    · obtain ⟨i, rfl⟩ : ∃ i, j = r.words + i := ⟨j - r.words, by omega⟩
      obtain ⟨side, hside⟩ := ih (j := i) (by omega) (r.take (fun _ => 0) s)
      refine ⟨side, fun x y => ?_⟩
      obtain ⟨words, hclosed, hopen⟩ := hside x y
      refine ⟨splice r.words (fun _ => 0) words, ?_, ?_⟩
      · rw [absorb_splice, hclosed]
      · rw [flipWord_splice_add, absorb_splice, hopen]

end

/-! ## The last bytes -/

/-- One of two words is zero, and the other one is erased by no factor but zero. -/
def ToldApart (x y : UInt64) : Prop :=
  (x = 0 ∧ Nat.Coprime (2 ^ 64 + 1) y.toNat) ∨ (y = 0 ∧ Nat.Coprime (2 ^ 64 + 1) x.toNat)

instance (x y : UInt64) : Decidable (ToldApart x y) := inferInstanceAs (Decidable (_ ∨ _))

theorem finish_ne {x y len : UInt64} (h : ToldApart x y) (hlen : len ≠ p4) :
    finish x len ≠ finish y len := by
  have hkey : len ^^^ p4 ≠ 0 := fun hzero => hlen (UInt64.xor_eq_zero_iff.1 hzero)
  rcases h with ⟨rfl, hy⟩ | ⟨rfl, hx⟩
  · rw [finish, finish, foldProduct_zero_left]
    exact (foldProduct_ne_zero hy hkey).symm
  · rw [finish, finish, foldProduct_zero_left]
    exact foldProduct_ne_zero hx hkey

/-- What is folded last if the last `n` bytes meet the lanes `s`. -/
def ends (n : Nat) (g : Nat → UInt8) (s : Lanes) : UInt64 :=
  joined ((takeLast 0 (UInt64.ofNat n) s).run (wordsOf g))

theorem run_takeLast_shifted (read : Width → UInt64 → UInt64) (p n : UInt64) (s : Lanes) :
    (takeLast p n s).run read = (takeLast 0 n s).run fun w q => read w (p + q) := by
  simp [takeLast, few, half, crossed, UInt64.sub_eq_add_neg, UInt64.add_assoc]

theorem joined_takeLast {p : UInt64} {n : Nat} (hpos : 0 < n) (hn : n ≤ 32)
    (h : p.toNat + n < 2 ^ 64) (g : Nat → UInt8) (s : Lanes) :
    joined ((takeLast p (UInt64.ofNat n) s).run (wordsOf g)) =
      ends n (fun k => g (p.toNat + k)) s := by
  have hfits : n < 2 ^ 64 := by omega
  have hlen : (UInt64.ofNat n).toNat = n := UInt64.toNat_ofNat_of_lt' hfits
  have hzero : (0 : UInt64).toNat = 0 := rfl
  have hinside : (takeLast 0 (UInt64.ofNat n) s).StaysInside (UInt64.ofNat n) :=
    takeLast_staysInside (by omega) (by omega) (by omega) s
  rw [ends, run_takeLast_shifted]
  congr 1
  apply run_congr hinside
  intro w q hq
  have hq : q.toNat + w.bytes ≤ (UInt64.ofNat n).toNat := hq
  have hsum : (p + q).toNat = p.toNat + q.toNat := by
    rw [UInt64.toNat_add, Nat.mod_eq_of_lt (by omega)]
  rw [wordsOf, hsum, Bytes.slice_add]
  rfl

/-- What one lane may differ by before last bytes of zero, and what the other one is then. -/
def opening (n : Nat) : Side → UInt64 × UInt64
  | .front => if n ≤ 16 then (p0, 0) else (p0, p2)
  | .back => if n ≤ 16 then (1, p0) else (p2, p0)

/-- The lanes that a bit of byte `d` of the last `n` bytes is to meet. -/
def meeting (n d : Nat) : Lanes :=
  if n < 4 then ⟨p1 ^^^ 1, p0 ^^^ p1 ^^^ 1⟩
  else if n ≤ 8 then ⟨if d < 4 then p0 else p1, 0⟩
  else if n ≤ 16 then ⟨if d < 8 then p0 else p1, 0⟩
  else if n ≤ 24 then if d < 16 then ⟨if d < 8 then p0 else p1, p3⟩ else ⟨p0, p2⟩
  else if d < 16 then ⟨if d < 8 then p0 else p1, p2⟩ else ⟨p0, if d < 24 then p2 else p3⟩

theorem toldApart_opening : ∀ n ≤ 32, 0 < n →
    (let (x, y) := opening n .front
     ToldApart (ends n zeros (Side.front.put 0 y)) (ends n zeros (Side.front.put x y))) ∧
    (let (x, y) := opening n .back
     ToldApart (ends n zeros (Side.back.put 0 y)) (ends n zeros (Side.back.put x y))) := by
  decide +kernel

theorem toldApart_meeting : ∀ n ≤ 32, ∀ d < n,
    ToldApart (ends n zeros (meeting n d)) (ends n (flip zeros d 0) (meeting n d)) := by
  decide +kernel

/-! ## Rounds and last bytes -/

/-- The bytes of the first `n` words, and zeros after them. -/
def rowOf (n : Nat) (words : Nat → UInt64) : Nat → UInt8 := spread (splice n words fun _ => 0)

section
variable {words : Nat → UInt64} {n i k : Nat}

theorem rowOf_add : (fun k => rowOf n words (8 * n + k)) = zeros := by
  funext k
  have hword : (8 * n + k) / 8 = n + k / 8 := by omega
  rw [rowOf, spread, hword, splice_add, UInt64.toNat_zero, Nat.zero_shiftRight]
  rfl

theorem flip_rowOf_add_of_lt (hi : i < 8 * n) :
    (fun k => flip (rowOf n words) i 0 (8 * n + k)) = zeros := by
  funext k
  rw [flip_of_ne (by omega), congrFun rowOf_add k]

theorem flip_rowOf_add : (fun k => flip (rowOf n words) (8 * n + i) 0 (8 * n + k)) =
    flip zeros i 0 := by
  funext k
  by_cases hk : k = i
  · rw [hk, flip_self, flip_self, congrFun rowOf_add i]
  · rw [flip_of_ne (by omega), flip_of_ne hk, congrFun rowOf_add k]

theorem toNat_place (hk : k < n) (hn : 8 * n < 2 ^ 64) : (UInt64.ofNat (8 * k)).toNat = 8 * k := by
  have hlt : 8 * k < 2 ^ 64 := by omega
  exact UInt64.toNat_ofNat_of_lt' hlt

theorem wordsFrom_rowOf (hk : k < n) (hn : 8 * n < 2 ^ 64) :
    wordsFrom (wordsOf (rowOf n words)) 0 k = words k := by
  rw [wordsFrom, UInt64.zero_add, rowOf, wordsOf_spread (toNat_place hk hn), splice_of_lt hk]

theorem wordsFrom_flip_rowOf (hk : k < n) (hn : 8 * n < 2 ^ 64) :
    wordsFrom (wordsOf (flip (rowOf n words) i 0)) 0 k = flipWord words (i / 8) (8 * (i % 8)) k := by
  have hplace := toNat_place hk hn
  have hrow : wordsFrom (wordsOf (rowOf n words)) 0 k = words k := wordsFrom_rowOf hk hn
  rw [wordsFrom, UInt64.zero_add] at hrow ⊢
  by_cases hword : k = i / 8
  · have hbit : 8 * (i - (UInt64.ofNat (8 * k)).toNat) + 0 = 8 * (i % 8) := by omega
    have hend : i < (UInt64.ofNat (8 * k)).toNat + 8 := by omega
    rw [wordsOf_flip_of_mem (w := .eight) (by decide) (by omega) hend, hrow, hbit, hword,
      flipWord_self]
  · have hapart : ¬ ((UInt64.ofNat (8 * k)).toNat ≤ i ∧
        i < (UInt64.ofNat (8 * k)).toNat + Width.eight.bytes) := by
      rw [Width.bytes_eight]
      omega
    rw [wordsOf_flip_of_not_mem hapart, hrow, flipWord_of_ne hword]

end

theorem run_body_of_lt (seed : UInt64) {n : Nat} (h : 32 < n) (hn : n < 2 ^ 64) (g : Nat → UInt8) :
    (body seed (UInt64.ofNat n)).run (wordsOf g) =
      finish (ends ((n - 1) % 32 + 1) (fun k => g (8 * totalWords (schedule n) + k))
        (absorb (schedule n) (wordsFrom (wordsOf g) 0) ⟨seed, seed⟩)) (UInt64.ofNat n) := by
  have hlen : (UInt64.ofNat n).toNat = n := UInt64.toNat_ofNat_of_lt' hn
  have hlong : ¬ UInt64.ofNat n ≤ 32 := by
    rw [UInt64.le_iff_toNat_le, hlen]
    exact Nat.not_le.2 h
  have hfits : (n - 1) / 32 * 32 < 2 ^ 64 := by omega
  have hcursor : (UInt64.ofNat ((n - 1) / 32 * 32)).toNat = (n - 1) / 32 * 32 :=
    UInt64.toNat_ofNat_of_lt' hfits
  have htotal : 8 * totalWords (schedule n) = (n - 1) / 32 * 32 := by
    rw [totalWords_schedule]
    omega
  rw [body, if_neg hlong, run_long _ seed (by omega) hn,
    joined_takeLast (by omega) (by omega) (by omega), hcursor, htotal]

theorem exists_flip_of_long (seed : UInt64) {n i : Nat} (h : 32 < n) (hn : n < 2 ^ 64)
    (hkey : UInt64.ofNat n ≠ p4) (hi : i < n) :
    ∃ g, (body seed (UInt64.ofNat n)).run (wordsOf g) ≠
      (body seed (UInt64.ofNat n)).run (wordsOf (flip g i 0)) := by
  have htotal := totalWords_schedule n
  have hsize : 8 * totalWords (schedule n) < 2 ^ 64 := by omega
  by_cases hround : i < 8 * totalWords (schedule n)
  · have hword : i / 8 < totalWords (schedule n) := by omega
    have hbit : 8 * (i % 8) < 64 := by omega
    obtain ⟨side, hside⟩ := exists_absorb_turned hword hbit ⟨seed, seed⟩
    obtain ⟨words, hclosed, hopen⟩ := hside (opening ((n - 1) % 32 + 1) side).1
      (opening ((n - 1) % 32 + 1) side).2
    refine ⟨rowOf (totalWords (schedule n)) words, ?_⟩
    rw [run_body_of_lt seed h hn, run_body_of_lt seed h hn, rowOf_add,
      flip_rowOf_add_of_lt hround, absorb_congr fun k hk => wordsFrom_rowOf hk hsize,
      absorb_congr fun k hk => wordsFrom_flip_rowOf hk hsize, hclosed, hopen]
    apply finish_ne _ hkey
    have hall := toldApart_opening ((n - 1) % 32 + 1) (by omega) (by omega)
    cases side with
    | front => exact hall.1
    | back => exact hall.2
  · obtain ⟨d, rfl⟩ : ∃ d, i = 8 * totalWords (schedule n) + d :=
      ⟨i - 8 * totalWords (schedule n), by omega⟩
    have hrounds : schedule n ≠ [] := by
      intro hnil
      rw [hnil, totalWords] at htotal
      omega
    obtain ⟨words, hwords⟩ := exists_absorb hrounds ⟨seed, seed⟩ (meeting ((n - 1) % 32 + 1) d)
    have hsame (k : Nat) (hk : k < totalWords (schedule n)) :
        wordsFrom (wordsOf (flip (rowOf (totalWords (schedule n)) words)
          (8 * totalWords (schedule n) + d) 0)) 0 k = words k := by
      rw [wordsFrom_flip_rowOf hk hsize, flipWord_of_ne (by omega)]
    refine ⟨rowOf (totalWords (schedule n)) words, ?_⟩
    rw [run_body_of_lt seed h hn, run_body_of_lt seed h hn, rowOf_add, flip_rowOf_add,
      absorb_congr fun k hk => wordsFrom_rowOf hk hsize, absorb_congr hsame, hwords]
    exact finish_ne (toldApart_meeting _ (by omega) d (by omega)) hkey

end Fingerprint.WyHash
