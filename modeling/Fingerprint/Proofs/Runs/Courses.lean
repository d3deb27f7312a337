import Fingerprint.Proofs.Reads.Loops
import Fingerprint.Proofs.Runs.Loops

/-!
# Plans that come to the same

Two plans come to the same if no way of answering their reads tells them apart. So arithmetic that
does not wrap comes to its result, and a loop that stops by itself comes to its rounds written out,
one after another, at cursors that are known beforehand.
-/

namespace Fingerprint.Plan
set_option autoImplicit false

/-- The plans come to the same however their reads of the input are answered: in plain runs, and in
attempts, which may find no answer. -/
structure SameCourse {α : Type} (p q : Plan α) : Prop where
  run_eq : ∀ read, p.run read = q.run read
  attempt_eq : ∀ read, p.attempt read = q.attempt read

variable {α β σ : Type}

theorem attempt_bind (read : Width → UInt64 → Option UInt64) (p : Plan α) (f : α → Plan β) :
    (p >>= f).attempt read = (p.attempt read).bind fun a => (f a).attempt read := by
  induction p with
  | done a => rfl
  | input w p next ih =>
    change ((read w p).bind fun x => (next x >>= f).attempt read) =
      ((read w p).bind fun x => (next x).attempt read).bind fun a => (f a).attempt read
    rw [Option.bind_assoc]
    exact congrArg _ (funext ih)
  | table t w p next ih =>
    change (if _ then (next (tableWord t w p) >>= f).attempt read else none) =
      (if _ then (next (tableWord t w p)).attempt read else none).bind _
    split
    · exact ih _
    · rfl
  | demand h next ih =>
    change (if h then (next >>= f).attempt read else none) =
      (if h then next.attempt read else none).bind _
    split
    · exact ih
    · rfl

namespace SameCourse

theorem refl (p : Plan α) : SameCourse p p := ⟨fun _ => rfl, fun _ => rfl⟩

theorem symm {p q : Plan α} (h : SameCourse p q) : SameCourse q p :=
  ⟨fun read => (h.run_eq read).symm, fun read => (h.attempt_eq read).symm⟩

theorem trans {p q r : Plan α} (h : SameCourse p q) (h' : SameCourse q r) : SameCourse p r :=
  ⟨fun read => (h.run_eq read).trans (h'.run_eq read),
    fun read => (h.attempt_eq read).trans (h'.attempt_eq read)⟩

theorem bind {p q : Plan α} {f g : α → Plan β} (h : SameCourse p q)
    (hnext : ∀ a, SameCourse (f a) (g a)) : SameCourse (p >>= f) (q >>= g) where
  run_eq read := by rw [run_bind, run_bind, h.run_eq, (hnext _).run_eq]
  attempt_eq read := by
    rw [attempt_bind, attempt_bind, h.attempt_eq]
    exact congrArg _ (funext fun a => (hnext a).attempt_eq read)

/-- What is known to come to a value is as good as given. -/
theorem known {p : Plan α} {a : α} (h : SameCourse p (pure a)) (f : α → Plan β) :
    SameCourse (p >>= f) (f a) := by
  have hgiven := h.bind fun a => SameCourse.refl (f a)
  rwa [pure_bind] at hgiven

/-- A demand that holds changes nothing. -/
theorem demand {b : Bool} (h : b = true) (p : Plan α) : SameCourse (Plan.demand b p) p where
  run_eq _ := rfl
  attempt_eq _ := if_pos h

theorem add {a b : UInt64} (h : a.toNat + b.toNat < 2 ^ 64) :
    SameCourse (Plan.add a b) (pure (a + b)) :=
  demand (fits_iff.2 h) _

theorem sub {a b : UInt64} (h : b.toNat ≤ a.toNat) : SameCourse (Plan.sub a b) (pure (a - b)) :=
  demand (decide_eq_true (UInt64.le_iff_toNat_le.2 h)) _

theorem mul {a b : UInt64} (h : a.toNat * b.toNat < 2 ^ 64) :
    SameCourse (Plan.mul a b) (pure (a * b)) :=
  demand (fitsMul_iff.2 h) _

end SameCourse

/-! ## Rounds written out -/

/-- `n` cursors from `p` on, `step` bytes apart. -/
def cursors (p step n : Nat) : List UInt64 := (List.range n).map fun k => .ofNat (p + k * step)

/-- Runs a round at each of the cursors, one after another. -/
def roundsAt (round : UInt64 → σ → Plan σ) (ps : List UInt64) (s : σ) : Plan σ :=
  ps.foldlM (fun s p => round p s) s

/-- Runs as many of the rounds as the bound allows for, and fails if these are not all. -/
def roundsWithin (bound : Nat) (round : UInt64 → σ → Plan σ) (ps : List UInt64) (s : σ) :
    Plan σ := do
  let s ← roundsAt round (ps.take bound) s
  demand (ps.length ≤ bound) (pure s)

/-- The loop runs one round at each of the cursors, in their order, and then stops, whatever a round
does. That is its own doing: a bound on its rounds shows only where it is too low for them. -/
def KeepsTo (ps : List UInt64) (loop : Nat → (UInt64 → σ → Plan σ) → σ → Plan σ) : Prop :=
  ∀ bound round s, SameCourse (loop bound round s) (roundsWithin bound round ps s)

section
variable (round : UInt64 → σ → Plan σ) (s : σ)

@[simp] theorem length_cursors (p step n : Nat) : (cursors p step n).length = n := by
  simp [cursors]

theorem cursors_succ (p step n : Nat) :
    cursors p step (n + 1) = .ofNat p :: cursors (p + step) step n := by
  have hfirst : p + 0 * step = p := by rw [Nat.zero_mul, Nat.add_zero]
  rw [cursors, List.range_succ_eq_map, List.map_cons, List.map_map, hfirst]
  refine congrArg (_ :: ·) (List.map_congr_left fun k _ => congrArg UInt64.ofNat ?_)
  rw [Nat.succ_mul, Nat.add_comm (k * step), Nat.add_assoc]

/-- Where the last step still ends within a word, the cursors are the numbers that they are made of. -/
theorem map_toNat_cursors {p step n : Nat} (hend : p + n * step < 2 ^ 64) :
    (cursors p step n).map UInt64.toNat = (List.range n).map fun k => p + k * step := by
  rw [cursors, List.map_map]
  apply List.map_congr_left
  intro k hk
  have hle : k * step ≤ n * step := Nat.mul_le_mul_right _ (Nat.le_of_lt (List.mem_range.1 hk))
  exact UInt64.toNat_ofNat_of_lt' (Nat.lt_of_le_of_lt (Nat.add_le_add_left hle p) hend)

@[simp] theorem roundsAt_nil : roundsAt round [] s = pure s := rfl

@[simp] theorem roundsAt_cons (p : UInt64) (ps : List UInt64) :
    roundsAt round (p :: ps) s = round p s >>= roundsAt round ps :=
  List.foldlM_cons

theorem roundsWithin_zero (p : UInt64) (ps : List UInt64) :
    roundsWithin 0 round (p :: ps) s = demand false (pure s) := rfl

theorem roundsWithin_succ (bound : Nat) (p : UInt64) (ps : List UInt64) :
    roundsWithin (bound + 1) round (p :: ps) s = round p s >>= roundsWithin bound round ps := by
  simp only [roundsWithin, List.take_succ_cons, roundsAt_cons, bind_assoc, List.length_cons,
    Nat.add_le_add_iff_right]
  rfl

end

namespace KeepsTo

variable {p : UInt64} {ps : List UInt64} {loop rest : Nat → (UInt64 → σ → Plan σ) → σ → Plan σ}

/-- A loop that has stopped. -/
theorem nil : KeepsTo [] fun _ (_ : UInt64 → σ → Plan σ) s => pure s := by
  intro bound round s
  rw [roundsWithin, List.take_nil, roundsAt_nil, pure_bind]
  exact (SameCourse.demand (decide_eq_true (Nat.zero_le bound)) _).symm

/-- One round, within a bound that allows for it, and then what keeps to the rest of the schedule. -/
theorem cons (hzero : ∀ round s, SameCourse (loop 0 round s) (demand false (pure s)))
    (hsucc : ∀ bound round s,
      SameCourse (loop (bound + 1) round s) (round p s >>= rest bound round))
    (h : KeepsTo ps rest) : KeepsTo (p :: ps) loop := by
  intro bound round s
  cases bound with
  | zero =>
    rw [roundsWithin_zero]
    exact hzero round s
  | succ bound =>
    rw [roundsWithin_succ]
    exact (hsucc bound round s).trans ((SameCourse.refl _).bind (h bound round))

/-- A bound that is high enough has no part in the rounds. -/
theorem roundsAt (h : KeepsTo ps loop) (round : UInt64 → σ → Plan σ) (s : σ) {bound : Nat}
    (hbound : ps.length ≤ bound) : SameCourse (loop bound round s) (roundsAt round ps s) := by
  have hall := h bound round s
  rw [roundsWithin, List.take_of_length_le hbound, decide_eq_true hbound] at hall
  apply hall.trans
  have hlast := (SameCourse.refl (Plan.roundsAt round ps s)).bind fun s => .demand rfl (pure s)
  rwa [bind_pure] at hlast

end KeepsTo

/-! ## Loops that leave at an equality -/

section
variable {step p : UInt64} {n : Nat}

theorem chunks_succ (stop : UInt64) (round : UInt64 → σ → Plan σ) (bound : Nat) (s : σ)
    (hfits : p.toNat + step.toNat < 2 ^ 64) :
    SameCourse (chunks step stop round (bound + 1) p s) (round p s >>= fun s =>
      if p + step == stop then pure s else chunks step stop round bound (p + step) s) :=
  (SameCourse.refl _).bind fun _ => (SameCourse.add hfits).known _

theorem portions_succ {left : UInt64} (round : UInt64 → σ → Plan σ) (bound : Nat) (s : σ)
    (hfits : p.toNat + step.toNat < 2 ^ 64) (hle : step.toNat ≤ left.toNat) :
    SameCourse (portions step round (bound + 1) left p s) (round p s >>= fun s =>
      if left - step == 0 then pure s else portions step round bound (left - step) (p + step) s) :=
  (SameCourse.refl _).bind fun _ =>
    ((SameCourse.add hfits).known _).trans ((SameCourse.sub hle).known _)

/-- A loop that leaves where its cursor meets the stop does so if the stop lies a number of whole steps
ahead, at least one. -/
theorem chunks_keepsTo {stop : UInt64} (hn : 0 < n) (hs : 0 < step.toNat)
    (hstop : stop.toNat = p.toNat + n * step.toNat) :
    KeepsTo (cursors p.toNat step.toNat n) fun bound (round : UInt64 → σ → Plan σ) s =>
      chunks step stop round bound p s := by
  induction n generalizing p with
  | zero => exact absurd hn (Nat.lt_irrefl 0)
  | succ n ih =>
    rw [Nat.succ_mul] at hstop
    have hlt := stop.toNat_lt
    have hfits : p.toNat + step.toNat < 2 ^ 64 := by omega
    have hadd := toNat_add_of_lt hfits
    rw [cursors_succ, UInt64.ofNat_toNat, ← hadd]
    apply KeepsTo.cons (fun _ _ => .refl _) fun bound round s => chunks_succ stop round bound s hfits
    -- Only after the last round is the cursor at the stop; before, it is whole steps short of it.
    by_cases hlast : n = 0
    · subst hlast
      have hmeets : p + step = stop := UInt64.toNat.inj (by omega)
      simp only [hmeets, beq_self_eq_true, if_true]
      exact .nil
    · have hpos := Nat.pos_of_ne_zero hlast
      have hmore := Nat.mul_pos hpos hs
      have hmisses : (p + step == stop) = false := by
        rw [beq_eq_false_iff_ne]
        rintro rfl
        omega
      simp only [hmisses, Bool.false_eq_true, if_false]
      exact ih hpos (by omega)

/-- A round that notes its cursor shows the schedule, if the bound is not too low. A loop with no such
stop ahead does not stop by itself. -/
example :
    let note (p : UInt64) (seen : List UInt64) : Plan (List UInt64) := pure (seen ++ [p])
    let seen (bound : Nat) (stop : UInt64) := (chunks 64 stop note bound 0 []).attempt fun _ _ => none
    seen 3 192 = some [0, 64, 128] ∧ seen 2 192 = none ∧ seen 9 100 = none := by decide

/-- A loop that leaves where nothing is left does so if what is left is a number of whole steps, at
least one. -/
theorem portions_keepsTo {left : UInt64} (hn : 0 < n) (hs : 0 < step.toNat)
    (hleft : left.toNat = n * step.toNat) (hend : p.toNat + n * step.toNat < 2 ^ 64) :
    KeepsTo (cursors p.toNat step.toNat n) fun bound (round : UInt64 → σ → Plan σ) s =>
      portions step round bound left p s := by
  induction n generalizing left p with
  | zero => exact absurd hn (Nat.lt_irrefl 0)
  | succ n ih =>
    rw [Nat.succ_mul] at hleft hend
    have hfits : p.toNat + step.toNat < 2 ^ 64 := by omega
    have hadd := toNat_add_of_lt hfits
    have hle : step.toNat ≤ left.toNat := by omega
    have hsub := UInt64.toNat_sub_of_le _ _ (UInt64.le_iff_toNat_le.2 hle)
    rw [cursors_succ, UInt64.ofNat_toNat, ← hadd]
    apply KeepsTo.cons (fun _ _ => .refl _) fun bound round s => portions_succ round bound s hfits hle
    by_cases hlast : n = 0
    · subst hlast
      have hnothing : left - step = 0 := by
        apply UInt64.toNat.inj
        rw [hsub, UInt64.toNat_zero]
        omega
      simp only [hnothing, beq_self_eq_true, if_true]
      exact .nil
    · have hpos := Nat.pos_of_ne_zero hlast
      have hmore := Nat.mul_pos hpos hs
      have hsome : (left - step == 0) = false := by
        rw [beq_eq_false_iff_ne]
        intro hnothing
        rw [hnothing, UInt64.toNat_zero] at hsub
        omega
      simp only [hsome, Bool.false_eq_true, if_false]
      exact ih hpos (by omega) (by omega)

end

/-! ## Loops that count down -/

section
variable (round : UInt64 → σ → Plan σ) (stride : Stride) {left p : UInt64}

theorem countdown_of_le (hmore : stride.least ≤ left)
    (hfits : p.toNat + stride.step.toNat < 2 ^ 64) (s : σ) :
    SameCourse (countdown stride round left p s)
      (round p s >>= countdown stride round (left - stride.step) (p + stride.step)) := by
  have hle : stride.step ≤ left :=
    UInt64.le_iff_toNat_le.2 (Nat.le_trans stride.step_le (UInt64.le_iff_toNat_le.1 hmore))
  rw [countdown, dif_pos hmore]
  refine (SameCourse.refl (round p s)).bind fun s => ?_
  exact (SameCourse.demand (decide_eq_true hle) _).trans (.demand (fits_iff.2 hfits) _)

theorem countdown_of_not_le (hless : ¬ stride.least ≤ left) (s : σ) :
    countdown stride round left p s = pure (left, p, s) := by
  rw [countdown, dif_neg hless]

/-- A countdown that goes on while more than a step is left takes as many rounds as there are whole
steps before the last byte. -/
theorem countdown_sameCourse (hleast : stride.least.toNat = stride.step.toNat + 1) {n : Nat}
    (hleft : 0 < left.toNat) (hend : p.toNat + left.toNat < 2 ^ 64)
    (hn : (left.toNat - 1) / stride.step.toNat = n) (s : σ) :
    SameCourse (countdown stride round left p s) (do
      let s ← roundsAt round (cursors p.toNat stride.step.toNat n) s
      return (.ofNat (left.toNat - n * stride.step.toNat), .ofNat (p.toNat + n * stride.step.toNat),
        s)) := by
  have hpos := stride.step_pos
  induction n generalizing left p s with
  | zero =>
    have hfew := (Nat.div_eq_zero_iff_lt hpos).1 hn
    have hless : ¬ stride.least ≤ left := by
      rw [UInt64.le_iff_toNat_le]
      omega
    rw [countdown_of_not_le round stride hless, Nat.zero_mul, Nat.sub_zero, Nat.add_zero,
      UInt64.ofNat_toNat, UInt64.ofNat_toNat]
    exact .refl _
  | succ n ih =>
    have hstep : 1 * stride.step.toNat ≤ left.toNat - 1 :=
      (Nat.le_div_iff_mul_le hpos).1 (hn ▸ Nat.succ_pos n)
    rw [Nat.one_mul] at hstep
    have hmore : stride.least ≤ left := UInt64.le_iff_toNat_le.2 (by omega)
    have hfits : p.toNat + stride.step.toNat < 2 ^ 64 := by omega
    have hadd := toNat_add_of_lt hfits
    have hsub := UInt64.toNat_sub_of_le left stride.step (UInt64.le_iff_toNat_le.2 (by omega))
    have hcount : ((left - stride.step).toNat - 1) / stride.step.toNat = n := by
      rw [Nat.div_eq_sub_div hpos hstep] at hn
      rw [hsub, Nat.sub_right_comm]
      omega
    have hrest : left.toNat - (n + 1) * stride.step.toNat =
        (left - stride.step).toNat - n * stride.step.toNat := by
      rw [hsub, Nat.succ_mul]
      omega
    have hcursor : p.toNat + (n + 1) * stride.step.toNat =
        (p + stride.step).toNat + n * stride.step.toNat := by
      rw [hadd, Nat.succ_mul]
      omega
    apply (countdown_of_le round stride hmore hfits s).trans
    rw [cursors_succ, UInt64.ofNat_toNat, roundsAt_cons, bind_assoc, hrest, hcursor, ← hadd]
    exact (SameCourse.refl (round p s)).bind fun s => ih (by omega) (by omega) hcount s

end

end Fingerprint.Plan
