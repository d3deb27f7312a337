import Fingerprint.Plan.Basic

/-!
# Loops over plans

The ways in which a body walks its range: over a range of indices, by strides while enough bytes
are left, the bytes left counted anew or counted down, and by chunks until the cursor meets a stop or
the count of what is left comes to zero. Each is some number of equal rounds.
-/

namespace Fingerprint.Plan
set_option autoImplicit false

variable {σ : Type}

/-- Runs `n` rounds, at `p`, `p + step`, `p + 2 * step` and so on. -/
def rounds (step : UInt64) (round : UInt64 → σ → Plan σ) : Nat → UInt64 → σ → Plan σ
  | 0, _, s => pure s
  | n + 1, p, s => do
    let s ← round p s
    rounds step round n (← add p step) s

/-- Runs `round` at every index from `low` up to but not including `high`. -/
def range (low high : UInt64) (round : UInt64 → σ → Plan σ) (s : σ) : Plan σ :=
  rounds 1 round (high.toNat - low.toNat) low s

/-- How far a striding loop moves, and how many bytes must be left for another round. -/
structure Stride where
  step : UInt64
  least : UInt64
  step_pos : 0 < step.toNat := by decide
  step_le : step.toNat ≤ least.toNat := by decide

namespace Stride

def stripe : Stride := ⟨32, 32, by decide, by decide⟩

def word : Stride := ⟨8, 8, by decide, by decide⟩

end Stride

/-- Runs `round` at `p`, `p + step`, … while at least `least` bytes lie between the cursor and
`len`; returns where it stopped. -/
def strides (stride : Stride) (len : UInt64) (round : UInt64 → σ → Plan σ) (p : UInt64) (s : σ) :
    Plan (UInt64 × σ) :=
  demand (p ≤ len) <|
    if _ : stride.least ≤ len - p then do
      let s ← round p s
      demand (fits p stride.step) <| strides stride len round (p + stride.step) s
    else
      pure (p, s)
termination_by (len - p).toNat
decreasing_by
  have hpos := stride.step_pos
  have hle := stride.step_le
  have hleast := UInt64.le_iff_toNat_le.1 ‹stride.least ≤ len - p›
  have hp := p.toNat_lt
  simp only [UInt64.toNat_sub, UInt64.toNat_add] at hleast ⊢
  omega

/-- Runs `round` at `p`, `p + step`, … while at least `least` bytes are left, and counts them down;
returns the count and the cursor that it stopped with. -/
def countdown (stride : Stride) (round : UInt64 → σ → Plan σ) (left p : UInt64) (s : σ) :
    Plan (UInt64 × UInt64 × σ) :=
  if _ : stride.least ≤ left then do
    let s ← round p s
    demand (stride.step ≤ left) <| demand (fits p stride.step) <|
      countdown stride round (left - stride.step) (p + stride.step) s
  else
    pure (left, p, s)
termination_by left.toNat
decreasing_by
  have hpos := stride.step_pos
  have hle := stride.step_le
  have hleast := UInt64.le_iff_toNat_le.1 ‹stride.least ≤ left›
  simp only [UInt64.toNat_sub]
  omega

/-- Runs `round` at `p`, `p + step`, … and leaves when the next cursor equals `stop`. The first
argument bounds the rounds; running out of them is a demand that fails. -/
def chunks (step stop : UInt64) (round : UInt64 → σ → Plan σ) : Nat → UInt64 → σ → Plan σ
  | 0, _, s => demand false (pure s)
  | fuel + 1, p, s => do
    let s ← round p s
    let p ← add p step
    if p == stop then pure s else chunks step stop round fuel p s

/-- Runs `round` at `p`, `p + step`, … and leaves when `left`, which falls by `step` a round, comes to
zero. The first number bounds the rounds; running out of them is a demand that fails. -/
def portions (step : UInt64) (round : UInt64 → σ → Plan σ) :
    Nat → UInt64 → UInt64 → σ → Plan σ
  | 0, _, _, s => demand false (pure s)
  | fuel + 1, left, p, s => do
    let s ← round p s
    let p ← add p step
    let left ← sub left step
    if left == 0 then pure s else portions step round fuel left p s

/-- Runs `round` at the cursor if `width` bytes are left, and moves past them. -/
def piece (len width : UInt64) (round : UInt64 → σ → Plan σ) (p : UInt64) (s : σ) :
    Plan (UInt64 × σ) := do
  if width ≤ (← sub len p) then
    let s ← round p s
    return (← add p width, s)
  else
    return (p, s)

/-! ## Loops as counted rounds -/

/-- A chunk loop whose stop lies a whole number of steps ahead runs that many rounds, whatever
larger bound it is given. -/
theorem chunks_eq_rounds (step stop : UInt64) (round : UInt64 → σ → Plan σ) (n fuel : Nat)
    (p : UInt64) (s : σ) (hn : 0 < n) (hs : 0 < step.toNat) (hf : n ≤ fuel)
    (hstop : stop.toNat = p.toNat + n * step.toNat) :
    chunks step stop round fuel p s = rounds step round n p s := by
  induction fuel generalizing n p s with
  | zero => omega
  | succ fuel ih =>
    obtain ⟨m, rfl⟩ : ∃ m, n = m + 1 := ⟨n - 1, by omega⟩
    have hlt := stop.toNat_lt
    have hadd : (p + step).toNat = p.toNat + step.toNat := by
      rw [UInt64.toNat_add, Nat.mod_eq_of_lt]
      rw [Nat.add_mul] at hstop
      omega
    have hrest : stop.toNat = (p + step).toNat + m * step.toNat := by
      rw [hadd, hstop, Nat.add_mul]
      omega
    simp only [chunks, rounds]
    congr 1
    funext s'
    refine congrArg (demand _) ?_
    change (if p + step == stop then pure s' else chunks step stop round fuel (p + step) s') =
      rounds step round m (p + step) s'
    by_cases hm : m = 0
    · subst hm
      have : p + step = stop := UInt64.toNat.inj (by omega)
      simp [this, rounds]
    · have hpos : 0 < m * step.toNat := Nat.mul_pos (by omega) hs
      have hne : p + step ≠ stop := by
        intro h
        rw [h] at hrest
        omega
      simp only [beq_iff_eq, hne, if_false]
      exact ih m (p + step) s' (by omega) (by omega) hrest

end Fingerprint.Plan
