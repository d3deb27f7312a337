import Fingerprint.Plan.Loop
import Fingerprint.Plan.Reads
import Mathlib.Algebra.Group.Nat.Defs

/-!
# What loops over plans do

A loop always meets a condition if each of its rounds does, at every cursor that the loop comes to;
it sometime meets one if some round does. Loops that stop by themselves also say where they stop.
-/

namespace Fingerprint.Plan
set_option autoImplicit false

variable {σ α : Type} {ok hit : Step → Prop} {round : UInt64 → σ → Plan σ}

theorem toNat_add_of_lt {a b : UInt64} (h : a.toNat + b.toNat < 2 ^ 64) :
    (a + b).toNat = a.toNat + b.toNat := by
  rw [UInt64.toNat_add, Nat.mod_eq_of_lt h]

theorem toNat_allButLast {len : UInt64} (h : 0 < len.toNat) : (len - 1).toNat = len.toNat - 1 :=
  UInt64.toNat_sub_of_le _ _ (UInt64.le_iff_toNat_le.2 h)

@[simp] theorem fits_iff {a b : UInt64} : fits a b = true ↔ a.toNat + b.toNat < 2 ^ 64 := by
  simp [fits]

@[simp] theorem fitsMul_iff {a b : UInt64} :
    fitsMul a b = true ↔ a.toNat * b.toNat < 2 ^ 64 := by
  simp [fitsMul]

/-! ## Arithmetic that does not wrap -/

section
variable {a b : UInt64} {f : UInt64 → Plan α} {post : α → Prop}

theorem Always.add (hdemand : ok (.demand true)) (h : a.toNat + b.toNat < 2 ^ 64)
    (hf : ∀ c, c.toNat = a.toNat + b.toNat → (f c).Always ok post) :
    (add a b >>= f).Always ok post := by
  rw [always_bind, always_add, fits_iff.2 h]
  exact ⟨hdemand, hf _ (toNat_add_of_lt h)⟩

theorem Always.sub (hdemand : ok (.demand true)) (h : b.toNat ≤ a.toNat)
    (hf : ∀ c, c.toNat = a.toNat - b.toNat → (f c).Always ok post) :
    (sub a b >>= f).Always ok post := by
  have hle : b ≤ a := UInt64.le_iff_toNat_le.2 h
  rw [always_bind, always_sub, decide_eq_true hle]
  exact ⟨hdemand, hf _ (UInt64.toNat_sub_of_le _ _ hle)⟩

theorem Always.mul (hdemand : ok (.demand true)) (h : a.toNat * b.toNat < 2 ^ 64)
    (hf : ∀ c, c.toNat = a.toNat * b.toNat → (f c).Always ok post) :
    (mul a b >>= f).Always ok post := by
  rw [always_bind, always_mul, fitsMul_iff.2 h]
  exact ⟨hdemand, hf _ (by rw [UInt64.toNat_mul, Nat.mod_eq_of_lt h])⟩

theorem Sometime.add (h : a.toNat + b.toNat < 2 ^ 64)
    (hf : ∀ c, c.toNat = a.toNat + b.toNat → (f c).Sometime hit post) :
    (add a b >>= f).Sometime hit post := by
  rw [sometime_bind, sometime_add]
  exact .inr (hf _ (toNat_add_of_lt h))

theorem Sometime.sub (h : b.toNat ≤ a.toNat)
    (hf : ∀ c, c.toNat = a.toNat - b.toNat → (f c).Sometime hit post) :
    (sub a b >>= f).Sometime hit post := by
  rw [sometime_bind, sometime_sub]
  exact .inr (hf _ (UInt64.toNat_sub_of_le _ _ (UInt64.le_iff_toNat_le.2 h)))

theorem Sometime.mul (h : a.toNat * b.toNat < 2 ^ 64)
    (hf : ∀ c, c.toNat = a.toNat * b.toNat → (f c).Sometime hit post) :
    (mul a b >>= f).Sometime hit post := by
  rw [sometime_bind, sometime_mul]
  exact .inr (hf _ (by rw [UInt64.toNat_mul, Nat.mod_eq_of_lt h]))

end

/-! ## Counted rounds -/

theorem Always.rounds {step p : UInt64} {n : Nat} (hdemand : ok (.demand true))
    (hend : p.toNat + n * step.toNat < 2 ^ 64)
    (hround : ∀ k < n, ∀ q s, q.toNat = p.toNat + k * step.toNat →
      (round q s).Always ok fun _ => True) (s : σ) :
    (rounds step round n p s).Always ok fun _ => True := by
  induction n generalizing p s with
  | zero => trivial
  | succ n ih =>
    rw [Nat.add_mul] at hend
    rw [Plan.rounds]
    apply (hround 0 (by omega) p s (by omega)).andThen
    intro s _
    apply Always.add hdemand (by omega)
    intro p' hp'
    apply ih (by omega)
    intro k hk q s hq
    apply hround (k + 1) (by omega)
    rw [hq, hp', Nat.add_mul]
    omega

/-- The round that does it is given by its number. -/
theorem Sometime.rounds {step p : UInt64} {n k : Nat} (hk : k < n)
    (hend : p.toNat + k * step.toNat < 2 ^ 64)
    (hround : ∀ q s, q.toNat = p.toNat + k * step.toNat →
      (round q s).Sometime hit fun _ => False) (s : σ) :
    (rounds step round n p s).Sometime hit fun _ => False := by
  induction n generalizing p k s with
  | zero => omega
  | succ n ih =>
    rw [Plan.rounds]
    cases k with
    | zero => exact (hround p s (by omega)).first
    | succ k =>
      rw [Nat.add_mul] at hend
      apply Sometime.later
      intro s
      apply Sometime.add (by omega)
      intro p' hp'
      apply ih (k := k) (by omega) (by omega)
      intro q s hq
      apply hround
      rw [hq, hp', Nat.add_mul]
      omega

theorem Always.range {low high : UInt64} (hdemand : ok (.demand true))
    (hround : ∀ i s, low.toNat ≤ i.toNat → i.toNat < high.toNat →
      (round i s).Always ok fun _ => True) (s : σ) :
    (range low high round s).Always ok fun _ => True := by
  have hlow := low.toNat_lt
  have hhigh := high.toNat_lt
  apply Always.rounds hdemand
  · rw [UInt64.toNat_one]
    omega
  · intro k hk q s hq
    rw [UInt64.toNat_one] at hq
    exact hround q s (by omega) (by omega)

/-- The round that does it is given by its index. -/
theorem Sometime.range {low high : UInt64} {n : Nat} (hlow : low.toNat ≤ n)
    (hhigh : n < high.toNat)
    (hround : ∀ i s, i.toNat = n → (round i s).Sometime hit fun _ => False) (s : σ) :
    (range low high round s).Sometime hit fun _ => False := by
  have hlt := high.toNat_lt
  apply Sometime.rounds (k := n - low.toNat)
  · omega
  · rw [UInt64.toNat_one]
    omega
  · intro q s hq
    rw [UInt64.toNat_one] at hq
    exact hround q s (by omega)

/-! ## Striding -/

section
variable {stride : Stride} {len left p : UInt64}

/-- A striding loop stops inside the range, with too few bytes left for another round, and where it
does not stand still it has gone at least one step. -/
theorem Always.strides (hdemand : ok (.demand true)) (hp : p.toNat ≤ len.toNat)
    (hround : ∀ q s, q.toNat + stride.least.toNat ≤ len.toNat →
      (round q s).Always ok fun _ => True) (s : σ) :
    (strides stride len round p s).Always ok fun r =>
      r.1.toNat ≤ len.toNat ∧ len.toNat < r.1.toNat + stride.least.toNat ∧
        (r.1.toNat = p.toNat ∨ p.toNat + stride.step.toNat ≤ r.1.toNat) := by
  induction p, s using strides.induct stride len with
  | case1 p s ih =>
    have hle : p ≤ len := UInt64.le_iff_toNat_le.2 hp
    have hstep := stride.step_le
    have hlen := len.toNat_lt
    rw [Plan.strides, always_demand, decide_eq_true hle]
    refine ⟨hdemand, ?_⟩
    split
    · rename_i hleast
      have hleft := UInt64.le_iff_toNat_le.1 hleast
      rw [UInt64.toNat_sub_of_le _ _ hle] at hleft
      have hfits : p.toNat + stride.step.toNat < 2 ^ 64 := by omega
      have hadd := toNat_add_of_lt hfits
      apply (hround p s (by omega)).andThen
      intro s _
      rw [always_demand, fits_iff.2 hfits]
      refine ⟨hdemand, (ih hleast s (by omega)).imp ?_⟩
      intro r hr
      omega
    · rename_i hleast
      rw [UInt64.le_iff_toNat_le, UInt64.toNat_sub_of_le _ _ hle] at hleast
      have hless : len.toNat < p.toNat + stride.least.toNat := by omega
      exact ⟨hp, hless, .inl rfl⟩

/-- A loop that starts at or before a byte and does not do it stops at or before that byte. -/
theorem Sometime.strides {k : Nat} (hp : p.toNat ≤ len.toNat) (hk : p.toNat ≤ k)
    (hround : ∀ q s, q.toNat ≤ k → k < q.toNat + stride.step.toNat →
      q.toNat + stride.least.toNat ≤ len.toNat → (round q s).Sometime hit fun _ => False) (s : σ) :
    (strides stride len round p s).Sometime hit fun r => r.1.toNat ≤ k := by
  induction p, s using strides.induct stride len with
  | case1 p s ih =>
    have hle : p ≤ len := UInt64.le_iff_toNat_le.2 hp
    have hstep := stride.step_le
    have hlen := len.toNat_lt
    rw [Plan.strides, sometime_demand]
    refine .inr ?_
    split
    · rename_i hleast
      have hleft := UInt64.le_iff_toNat_le.1 hleast
      rw [UInt64.toNat_sub_of_le _ _ hle] at hleft
      have hadd : (p + stride.step).toNat = p.toNat + stride.step.toNat :=
        toNat_add_of_lt (by omega)
      by_cases hnext : k < p.toNat + stride.step.toNat
      · exact (hround p s hk hnext (by omega)).first
      · apply Sometime.later
        intro s
        exact .inr (ih hleast s (by omega) (by omega))
    · exact hk

/-- The count that is left always reaches from the cursor to the end. A round leaves no less than what
it needs beyond its own step. -/
theorem Always.countdown (hdemand : ok (.demand true))
    (hleft : p.toNat + left.toNat = len.toNat)
    (hround : ∀ q s, q.toNat + stride.least.toNat ≤ len.toNat →
      (round q s).Always ok fun _ => True) (s : σ) :
    (countdown stride round left p s).Always ok fun r =>
      r.2.1.toNat + r.1.toNat = len.toNat ∧ r.1.toNat < stride.least.toNat ∧
        (r.1.toNat = left.toNat ∨ stride.least.toNat ≤ r.1.toNat + stride.step.toNat) := by
  induction left, p, s using countdown.induct stride with
  | case1 left p s hleast ih =>
    have hmore := UInt64.le_iff_toNat_le.1 hleast
    have hstep := stride.step_le
    have hlen := len.toNat_lt
    have hsub : stride.step ≤ left := UInt64.le_iff_toNat_le.2 (by omega)
    have hfits : p.toNat + stride.step.toNat < 2 ^ 64 := by omega
    have hadd := toNat_add_of_lt hfits
    have hrest := UInt64.toNat_sub_of_le _ _ hsub
    rw [Plan.countdown, dif_pos hleast]
    apply (hround p s (by omega)).andThen
    intro s _
    rw [always_demand, always_demand, fits_iff.2 hfits, decide_eq_true hsub]
    refine ⟨hdemand, hdemand, (ih s (by omega)).imp ?_⟩
    intro r hr
    omega
  | case2 left p s hleast =>
    rw [Plan.countdown, dif_neg hleast]
    rw [UInt64.le_iff_toNat_le] at hleast
    exact ⟨hleft, Nat.lt_of_not_le hleast, .inl rfl⟩

theorem Sometime.countdown {k : Nat} (hleft : p.toNat + left.toNat = len.toNat)
    (hk : p.toNat ≤ k)
    (hround : ∀ q s, q.toNat ≤ k → k < q.toNat + stride.step.toNat →
      q.toNat + stride.least.toNat ≤ len.toNat → (round q s).Sometime hit fun _ => False) (s : σ) :
    (countdown stride round left p s).Sometime hit fun r => r.2.1.toNat ≤ k := by
  induction left, p, s using countdown.induct stride with
  | case1 left p s hleast ih =>
    have hmore := UInt64.le_iff_toNat_le.1 hleast
    have hstep := stride.step_le
    have hlen := len.toNat_lt
    have hrest := UInt64.toNat_sub_of_le left stride.step (UInt64.le_iff_toNat_le.2 (by omega))
    have hadd : (p + stride.step).toNat = p.toNat + stride.step.toNat :=
      toNat_add_of_lt (by omega)
    rw [Plan.countdown, dif_pos hleast]
    by_cases hnext : k < p.toNat + stride.step.toNat
    · exact (hround p s hk hnext (by omega)).first
    · apply Sometime.later
      intro s
      exact .inr (.inr (ih s (by omega) (by omega)))
  | case2 left p s hleast =>
    rw [Plan.countdown, dif_neg hleast]
    exact hk

end

/-! ## Pieces -/

section
variable {len width p : UInt64}

/-- After a piece fewer bytes are left than it takes, if there were not enough for two. It is left out
only where it does not fit. -/
theorem Always.piece (hdemand : ok (.demand true)) (hp : p.toNat ≤ len.toNat) (s : σ)
    (hround : p.toNat + width.toNat ≤ len.toNat → (round p s).Always ok fun _ => True) :
    (piece len width round p s).Always ok fun r =>
      p.toNat ≤ r.1.toNat ∧ r.1.toNat ≤ len.toNat ∧
        (len.toNat < p.toNat + 2 * width.toNat → len.toNat < r.1.toNat + width.toNat) ∧
          (r.1.toNat = p.toNat ∧ len.toNat < p.toNat + width.toNat ∨
            r.1.toNat = p.toNat + width.toNat) := by
  have hlen := len.toNat_lt
  rw [Plan.piece]
  apply Always.sub hdemand hp
  intro left hleft
  split
  · rename_i hmore
    rw [UInt64.le_iff_toNat_le] at hmore
    apply (hround (by omega)).andThen
    intro s _
    apply Always.add hdemand (by omega)
    intro p' hp'
    rw [always_pure]
    dsimp only
    omega
  · rename_i hless
    rw [UInt64.le_iff_toNat_le] at hless
    rw [always_pure]
    dsimp only
    omega

theorem Sometime.piece {k : Nat} (hp : p.toNat ≤ len.toNat) (hk : p.toNat ≤ k) (s : σ)
    (hround : k < p.toNat + width.toNat → p.toNat + width.toNat ≤ len.toNat →
      (round p s).Sometime hit fun _ => False) :
    (piece len width round p s).Sometime hit fun r => r.1.toNat ≤ k := by
  have hlen := len.toNat_lt
  rw [Plan.piece]
  apply Sometime.sub hp
  intro left hleft
  split
  · rename_i hmore
    rw [UInt64.le_iff_toNat_le] at hmore
    by_cases hnext : k < p.toNat + width.toNat
    · exact (hround hnext (by omega)).first
    · apply Sometime.later
      intro s
      apply Sometime.add (by omega)
      intro p' hp'
      rw [sometime_pure]
      dsimp only
      omega
  · exact hk

end

/-! ## Chunks -/

section
variable {step p : UInt64} {n fuel : Nat}

theorem Always.chunks {stop : UInt64} (hdemand : ok (.demand true)) (hn : 0 < n)
    (hs : 0 < step.toNat) (hf : n ≤ fuel) (hstop : stop.toNat = p.toNat + n * step.toNat)
    (hround : ∀ k < n, ∀ q s, q.toNat = p.toNat + k * step.toNat →
      (round q s).Always ok fun _ => True) (s : σ) :
    (chunks step stop round fuel p s).Always ok fun _ => True := by
  rw [chunks_eq_rounds step stop round n fuel p s hn hs hf hstop]
  exact Always.rounds hdemand (hstop ▸ stop.toNat_lt) hround s

theorem Sometime.chunks {stop : UInt64} {k : Nat} (hk : k < n) (hs : 0 < step.toNat)
    (hf : n ≤ fuel) (hstop : stop.toNat = p.toNat + n * step.toNat)
    (hround : ∀ q s, q.toNat = p.toNat + k * step.toNat →
      (round q s).Sometime hit fun _ => False) (s : σ) :
    (chunks step stop round fuel p s).Sometime hit fun _ => False := by
  have hstep : k * step.toNat ≤ n * step.toNat := Nat.mul_le_mul_right _ (Nat.le_of_lt hk)
  have hlt := stop.toNat_lt
  rw [chunks_eq_rounds step stop round n fuel p s (by omega) hs hf hstop]
  exact Sometime.rounds hk (by omega) hround s

/-- A loop that counts portions down takes as many rounds as there are steps in the count. -/
theorem Always.portions {left : UInt64} (hdemand : ok (.demand true)) (hn : 0 < n)
    (hf : n ≤ fuel) (hleft : left.toNat = n * step.toNat)
    (hend : p.toNat + n * step.toNat < 2 ^ 64)
    (hround : ∀ k < n, ∀ q s, q.toNat = p.toNat + k * step.toNat →
      (round q s).Always ok fun _ => True) (s : σ) :
    (portions step round fuel left p s).Always ok fun _ => True := by
  induction fuel generalizing n left p s with
  | zero => omega
  | succ fuel ih =>
    obtain ⟨m, rfl⟩ : ∃ m, n = m + 1 := ⟨n - 1, by omega⟩
    rw [Nat.add_mul] at hend hleft
    rw [Plan.portions]
    apply (hround 0 (by omega) p s (by omega)).andThen
    intro s _
    apply Always.add hdemand (by omega)
    intro p' hp'
    apply Always.sub hdemand (by omega)
    intro rest hrest
    split
    · trivial
    · rename_i hmore
      have hpos : 0 < m := by
        apply Nat.pos_of_ne_zero
        rintro rfl
        exact hmore (beq_iff_eq.2 (UInt64.toNat.inj (by rw [hrest, UInt64.toNat_zero]; omega)))
      apply ih hpos (by omega) (by omega) (by omega)
      intro k hk q s hq
      apply hround (k + 1) (by omega)
      rw [hq, hp', Nat.add_mul]
      omega

theorem Sometime.portions {left : UInt64} {k : Nat} (hk : k < n) (hs : 0 < step.toNat)
    (hf : n ≤ fuel) (hleft : left.toNat = n * step.toNat)
    (hend : p.toNat + n * step.toNat < 2 ^ 64)
    (hround : ∀ q s, q.toNat = p.toNat + k * step.toNat →
      (round q s).Sometime hit fun _ => False) (s : σ) :
    (portions step round fuel left p s).Sometime hit fun _ => False := by
  induction fuel generalizing n k left p s with
  | zero => omega
  | succ fuel ih =>
    obtain ⟨m, rfl⟩ : ∃ m, n = m + 1 := ⟨n - 1, by omega⟩
    rw [Nat.add_mul] at hend hleft
    rw [Plan.portions]
    cases k with
    | zero => exact (hround p s (by omega)).first
    | succ k =>
      apply Sometime.later
      intro s
      apply Sometime.add (by omega)
      intro p' hp'
      apply Sometime.sub (by omega)
      intro rest hrest
      have hpos : 0 < m * step.toNat := Nat.mul_pos (by omega) hs
      have hmore : rest ≠ 0 := by
        rintro rfl
        rw [UInt64.toNat_zero] at hrest
        omega
      rw [if_neg (by simpa using hmore)]
      apply ih (n := m) (k := k) (by omega) (by omega) (by omega) (by omega)
      intro q s hq
      apply hround
      rw [hq, hp', Nat.add_mul]
      omega

end

/-! ## Rounds that meet it wherever they stand -/

section
variable (hdemand : ∀ b, ok (.demand b)) (hround : ∀ q s, (round q s).Always ok fun _ => True)
include hdemand hround

theorem Always.rounds_of_forall (step : UInt64) (n : Nat) (p : UInt64) (s : σ) :
    (Plan.rounds step round n p s).Always ok fun _ => True := by
  induction n generalizing p s with
  | zero => trivial
  | succ n ih =>
    apply (hround p s).andThen
    exact fun s _ => ⟨hdemand _, ih _ s⟩

theorem Always.range_of_forall (low high : UInt64) (s : σ) :
    (Plan.range low high round s).Always ok fun _ => True :=
  .rounds_of_forall hdemand hround 1 _ low s

theorem Always.chunks_of_forall (step stop : UInt64) (fuel : Nat) (p : UInt64) (s : σ) :
    (Plan.chunks step stop round fuel p s).Always ok fun _ => True := by
  induction fuel generalizing p s with
  | zero => exact ⟨hdemand _, trivial⟩
  | succ fuel ih =>
    apply (hround p s).andThen
    intro s _
    rw [always_bind, always_add, always_ite]
    exact ⟨hdemand _, fun _ => trivial, fun _ => ih _ s⟩

theorem Always.portions_of_forall (step : UInt64) (fuel : Nat) (left p : UInt64) (s : σ) :
    (Plan.portions step round fuel left p s).Always ok fun _ => True := by
  induction fuel generalizing left p s with
  | zero => exact ⟨hdemand _, trivial⟩
  | succ fuel ih =>
    apply (hround p s).andThen
    intro s _
    rw [always_bind, always_add, always_bind, always_sub, always_ite]
    exact ⟨hdemand _, hdemand _, fun _ => trivial, fun _ => ih _ _ s⟩

end

/-! ## Lists -/

section
variable {ι : Type} {f : σ → ι → Plan σ} {l : List ι}

theorem Always.foldlM (hf : ∀ s, ∀ i ∈ l, (f s i).Always ok fun _ => True) (s : σ) :
    (l.foldlM f s).Always ok fun _ => True := by
  induction l generalizing s with
  | nil => trivial
  | cons i l ih =>
    rw [List.foldlM_cons]
    apply (hf s i List.mem_cons_self).andThen
    exact fun s _ => ih (fun s j hj => hf s j (List.mem_cons_of_mem i hj)) s

theorem Sometime.foldlM {i : ι} (hi : i ∈ l) (hf : ∀ s, (f s i).Sometime hit fun _ => False)
    (s : σ) : (l.foldlM f s).Sometime hit fun _ => False := by
  induction l generalizing s with
  | nil => cases hi
  | cons j l ih =>
    rw [List.foldlM_cons]
    cases hi with
    | head => exact (hf s).first
    | tail _ hi => exact Sometime.later (ih hi)

end

end Fingerprint.Plan
