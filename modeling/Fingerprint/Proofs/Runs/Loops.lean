import Fingerprint.Plan.Loop

/-!
# What loops over plans compute

The value that a run ends with, step by step: a loop's first round, and the loop from there on.
-/

namespace Fingerprint.Plan
set_option autoImplicit false

variable {α σ : Type} (read : Width → UInt64 → UInt64) (round : UInt64 → σ → Plan σ)
variable (p : UInt64) (s : σ)

theorem toNat_ofNat_le (len : UInt64) {n : Nat} (hn : n ≤ len.toNat) :
    (UInt64.ofNat n).toNat = n :=
  UInt64.toNat_ofNat_of_lt' (Nat.lt_of_le_of_lt hn len.toNat_lt)

theorem ofNat_succ_mul (n : Nat) (a : UInt64) :
    UInt64.ofNat (n + 1) * a = a + UInt64.ofNat n * a := by
  rw [Nat.add_comm, UInt64.ofNat_add, UInt64.add_mul]
  exact congrArg (· + _) (UInt64.one_mul a)

@[simp] theorem run_ite {c : Prop} [Decidable c] (a b : Plan α) :
    (if c then a else b).run read = if c then a.run read else b.run read := by
  split <;> rfl

@[simp] theorem run_rounds_zero (step : UInt64) : (rounds step round 0 p s).run read = s := rfl

@[simp] theorem run_rounds_succ (step : UInt64) (n : Nat) :
    (rounds step round (n + 1) p s).run read =
      (rounds step round n (p + step) ((round p s).run read)).run read := by
  rw [rounds, run_bind, run_bind, run_add]

theorem run_range (low high : UInt64) :
    (range low high round s).run read =
      (rounds 1 round (high.toNat - low.toNat) low s).run read := rfl

theorem run_rounds_eq_foldl (step : UInt64) (n : Nat) :
    (rounds step round n p s).run read =
      (List.range n).foldl (fun s i => (round (p + UInt64.ofNat i * step) s).run read) s := by
  induction n generalizing p s with
  | zero => rfl
  | succ n ih =>
    have hfirst : p + UInt64.ofNat 0 * step = p := by
      rw [show UInt64.ofNat 0 = 0 from rfl, UInt64.zero_mul, UInt64.add_zero]
    have hnext : ∀ i : Nat, p + step + UInt64.ofNat i * step = p + UInt64.ofNat i.succ * step := by
      intro i
      rw [UInt64.add_assoc, Nat.succ_eq_add_one, ofNat_succ_mul]
    rw [run_rounds_succ, ih, List.range_succ_eq_map, List.foldl_cons, List.foldl_map, hfirst]
    simp only [hnext]

theorem run_range_from_eq_foldl (low high : UInt64) :
    (range low high round s).run read =
      (List.range (high.toNat - low.toNat)).foldl
        (fun s i => (round (low + UInt64.ofNat i) s).run read) s := by
  rw [run_range, run_rounds_eq_foldl]
  simp only [UInt64.mul_one]

/-- A loop over the indices below a number folds its rounds over them. -/
theorem run_range_eq_foldl (n : UInt64) :
    (range 0 n round s).run read =
      (List.range n.toNat).foldl (fun s i => (round (UInt64.ofNat i) s).run read) s := by
  rw [run_range_from_eq_foldl]
  simp only [UInt64.zero_add]
  rfl

theorem run_strides_of_le (stride : Stride) {len : UInt64} (h : stride.least ≤ len - p) :
    (strides stride len round p s).run read =
      (strides stride len round (p + stride.step) ((round p s).run read)).run read := by
  rw [strides, run_demand, dif_pos h, run_bind, run_demand]

theorem run_strides_of_not_le (stride : Stride) {len : UInt64} (h : ¬ stride.least ≤ len - p) :
    (strides stride len round p s).run read = (p, s) := by
  rw [strides, run_demand, dif_neg h, run_pure]

/-- A loop that goes on while another step fits takes as many rounds as there are whole steps. -/
theorem run_strides_eq_rounds (stride : Stride) (hleast : stride.least = stride.step)
    {len : UInt64} (hp : p.toNat ≤ len.toNat) {n : Nat}
    (hn : (len.toNat - p.toNat) / stride.step.toNat = n) :
    (strides stride len round p s).run read =
      (p + UInt64.ofNat n * stride.step, (rounds stride.step round n p s).run read) := by
  have hpos := stride.step_pos
  have hlen := len.toNat_lt
  induction n generalizing p s with
  | zero =>
    have hle : p ≤ len := UInt64.le_iff_toNat_le.2 hp
    have hless : ¬ stride.least ≤ len - p := by
      rw [hleast, UInt64.le_iff_toNat_le, UInt64.toNat_sub_of_le _ _ hle]
      exact Nat.not_le.2 ((Nat.div_eq_zero_iff_lt hpos).1 hn)
    rw [run_strides_of_not_le _ _ _ _ _ hless, show UInt64.ofNat 0 = 0 from rfl, UInt64.zero_mul,
      UInt64.add_zero]
    rfl
  | succ n ih =>
    have hle : p ≤ len := UInt64.le_iff_toNat_le.2 hp
    have hmore : 1 * stride.step.toNat ≤ len.toNat - p.toNat :=
      (Nat.le_div_iff_mul_le hpos).1 (hn ▸ Nat.succ_pos n)
    rw [Nat.one_mul] at hmore
    have hstep : stride.least ≤ len - p := by
      rwa [hleast, UInt64.le_iff_toNat_le, UInt64.toNat_sub_of_le _ _ hle]
    have hnext : (p + stride.step).toNat = p.toNat + stride.step.toNat := by
      rw [UInt64.toNat_add, Nat.mod_eq_of_lt (by omega)]
    have hleft : (len.toNat - (p + stride.step).toNat) / stride.step.toNat = n := by
      rw [Nat.div_eq_sub_div hpos hmore] at hn
      rw [hnext, Nat.sub_add_eq]
      omega
    rw [run_strides_of_le _ _ _ _ _ hstep, ih _ _ (by omega) hleft,
      run_rounds_succ, ofNat_succ_mul, UInt64.add_assoc]

@[simp] theorem run_piece (len width : UInt64) :
    (piece len width round p s).run read =
      if width ≤ len - p then (p + width, (round p s).run read) else (p, s) := by
  rw [piece, run_bind, run_sub, run_ite, run_bind, run_bind, run_add, run_pure, run_pure]

end Fingerprint.Plan
