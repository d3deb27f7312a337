import Fingerprint.Proofs.EqualFolds

/-!
# A byte copied into a factor

Two factors of a product are the same but for a fixed word, and one byte is turned in several places of
the first at once. To turn one bit of all copies moves the first factor by a slope, which the bits that
are turned decide. Where no byte makes a difference to the fold, slopes times the other factor are close
to multiples of `2 ^ 64`. Two different slopes leave only few words for that factor. And if there is but
one slope, the copies lie on bytes that are the same but for one pattern, and the lowest bits of the
other factor give it away. So it takes a finite check to know that some byte makes a difference.
-/

namespace Fingerprint
set_option autoImplicit false

/-! ## Bits turned together -/

/-- What it adds to a number to turn a bit of it, in units of that bit. -/
def turned (b : Bool) : Int := if b then -1 else 1

theorem cast_xor_two_pow (x k : Nat) :
    ((x ^^^ 2 ^ k : Nat) : Int) = x + 2 ^ k * turned (x.testBit k) := by
  rw [Nat.testBit_eq_decide_div_mod_eq]
  rcases Nat.even_or_odd (x / 2 ^ k) with h | h
  · have hbit : ¬ x / 2 ^ k % 2 = 1 := by
      rw [Nat.even_iff.1 h]
      decide
    rw [xor_two_pow_of_even h, turned, decide_eq_false hbit]
    push_cast
    ring
  · have hcast := congrArg (Nat.cast (R := Int)) (xor_two_pow_of_odd h)
    rw [turned, decide_eq_true (Nat.odd_iff.1 h)]
    push_cast at hcast
    rw [if_pos rfl]
    linear_combination -hcast

/-- A byte, as often as `c` says. -/
def copies : Nat → Nat → Nat
  | 0, _ => 0
  | c + 1, v => v + 256 * copies c v

/-- What it adds to a number to turn bit `r` of each of its `c` lowest bytes, in units of that bit. -/
def slope : Nat → Nat → Nat → Int
  | 0, _, _ => 0
  | c + 1, x, r => turned (x.testBit r) + 256 * slope c x (r + 8)

theorem copies_mul (c v k : Nat) : copies c (v * k) = copies c v * k := by
  induction c with
  | zero => exact (Nat.zero_mul k).symm
  | succ c ih =>
    rw [copies, copies, ih]
    ring

theorem copies_zero (c : Nat) : copies c 0 = 0 := by
  rw [← Nat.zero_mul 0, copies_mul, Nat.mul_zero]

theorem copies_succ_two_pow (c r : Nat) :
    copies (c + 1) (2 ^ r) = copies c (2 ^ (r + 8)) ^^^ 2 ^ r := by
  have hfactor : copies c (2 ^ (r + 8)) = 256 * copies c 1 * 2 ^ r := by
    rw [← Nat.one_mul (2 ^ (r + 8)), copies_mul, Nat.pow_add]
    ring
  have heven : Even (copies c (2 ^ (r + 8)) / 2 ^ r) := by
    rw [hfactor, Nat.mul_div_cancel _ (Nat.two_pow_pos r)]
    exact (even_two_mul 128).mul_right _
  rw [xor_two_pow_of_even heven, hfactor, copies, ← Nat.one_mul (2 ^ r), copies_mul]
  ring

theorem slope_xor_two_pow {c x k r : Nat} (h : k < r ∨ k % 8 ≠ r % 8) :
    slope c (x ^^^ 2 ^ k) r = slope c x r := by
  induction c generalizing r with
  | zero => rfl
  | succ c ih =>
    have hne : k ≠ r := by omega
    rw [slope, slope, ih (by omega), Nat.testBit_xor, Nat.testBit_two_pow_of_ne hne, Bool.xor_false]

theorem xor_copies_succ (c x r : Nat) :
    x ^^^ copies (c + 1) (2 ^ r) = x ^^^ 2 ^ r ^^^ copies c (2 ^ (r + 8)) := by
  rw [copies_succ_two_pow]
  ac_rfl

theorem cast_xor_copies (c x r : Nat) :
    ((x ^^^ copies c (2 ^ r) : Nat) : Int) = x + 2 ^ r * slope c x r := by
  induction c generalizing x r with
  | zero => simp [copies, slope]
  | succ c ih =>
    rw [xor_copies_succ, ih, slope_xor_two_pow (by omega), cast_xor_two_pow, slope]
    ring

/-- To turn one bit of the copies does not change the slopes of the others. -/
theorem slope_xor_copies {c d x k r : Nat} (h : k % 8 ≠ r % 8) :
    slope d (x ^^^ copies c (2 ^ k)) r = slope d x r := by
  induction c generalizing x k with
  | zero => rw [copies, Nat.xor_zero]
  | succ c ih => rw [xor_copies_succ, ih (by omega), slope_xor_two_pow (.inr h)]

/-! ## Slopes -/

/-- All slopes of `c` bytes. -/
def slopes : Nat → List Int
  | 0 => [0]
  | c + 1 => (slopes c).flatMap fun s => [1 + 256 * s, -1 + 256 * s]

theorem turned_cases (b : Bool) : turned b = 1 ∨ turned b = -1 := by cases b <;> decide

theorem slope_mem_slopes (c x r : Nat) : slope c x r ∈ slopes c := by
  induction c generalizing r with
  | zero => exact List.mem_singleton_self 0
  | succ c ih =>
    rw [slope, slopes, List.mem_flatMap]
    refine ⟨slope c x (r + 8), ih (r + 8), ?_⟩
    rcases turned_cases (x.testBit r) with h | h <;> simp [h]

theorem turned_injective {a b d : Bool} {s s' : Int}
    (h : turned a + 256 * s = turned b * (turned d + 256 * s')) :
    a = (b ^^ d) ∧ s = turned b * s' := by
  cases a <;> cases b <;> cases d <;> simp [turned] at h ⊢ <;> omega

/-- A slope gives its bits away, up to turning all of them. -/
theorem testBit_of_slope_eq {c x y r s : Nat} {b : Bool} (h : slope c x r = turned b * slope c y s)
    {j : Nat} (hj : j < c) : x.testBit (r + 8 * j) = (b ^^ y.testBit (s + 8 * j)) := by
  induction c generalizing r s j with
  | zero => omega
  | succ c ih =>
    obtain ⟨hfirst, hrest⟩ := turned_injective h
    cases j with
    | zero => exact hfirst
    | succ j =>
      have hplace (k : Nat) : k + 8 * (j + 1) = k + 8 + 8 * j := by omega
      rw [hplace, hplace]
      exact ih hrest (Nat.lt_of_succ_lt_succ hj)

/-- Where slopes agree but for their signs, each byte is the lowest one or turns as the lowest one. -/
theorem testBit_xor_of_abs_slope_eq {c x r s : Nat} (h : |slope c x r| = |slope c x s|) {j : Nat}
    (hj : j < c) :
    (x.testBit r ^^ x.testBit (r + 8 * j)) = (x.testBit s ^^ x.testBit (s + 8 * j)) := by
  obtain ⟨b, hb⟩ : ∃ b, slope c x r = turned b * slope c x s := by
    rcases abs_eq_abs.1 h with h | h
    · exact ⟨false, by rw [h, turned, if_neg Bool.false_ne_true, one_mul]⟩
    · exact ⟨true, by rw [h, turned, if_pos rfl, neg_one_mul]⟩
  have hlowest := testBit_of_slope_eq hb (Nat.zero_lt_of_lt hj)
  rw [Nat.mul_zero, Nat.add_zero, Nat.add_zero] at hlowest
  rw [hlowest, testBit_of_slope_eq hb hj]
  cases b <;> cases x.testBit s <;> cases x.testBit (s + 8 * j) <;> rfl

/-- What to turn in the lowest byte for another one, if all but their highest bits turn together. -/
def patterns : List Nat := [0, 127, 128, 255]

theorem byte_of_abs_slope_eq {c x : Nat} (h : ∀ r < 6, |slope c x r| = |slope c x 6|) {j : Nat}
    (hj : j < c) : ∃ z ∈ patterns, x / 2 ^ (8 * j) % 2 ^ 8 = x % 2 ^ 8 ^^^ z := by
  have hall : ∀ z < 2 ^ 8, (∀ r < 6, z.testBit r = z.testBit 6) → z ∈ patterns := by decide +kernel
  have hbit {r : Nat} (hr : r < 8) : ((x ^^^ x / 2 ^ (8 * j)) % 2 ^ 8).testBit r =
      (x.testBit r ^^ x.testBit (r + 8 * j)) := by
    rw [Nat.testBit_mod_two_pow, decide_eq_true hr, Bool.true_and, Nat.testBit_xor,
      Nat.testBit_div_two_pow]
  refine ⟨(x ^^^ x / 2 ^ (8 * j)) % 2 ^ 8, hall _ (Nat.mod_lt _ (by decide)) ?_, ?_⟩
  · intro r hr
    rw [hbit (by omega), hbit (by decide)]
    exact testBit_xor_of_abs_slope_eq (h r hr) hj
  · rw [Nat.xor_mod_two_pow, ← Nat.xor_assoc, Nat.xor_self, Nat.zero_xor]

theorem slopes_bounds : ∀ c ∈ [2, 3], ∀ s ∈ slopes c,
    s.natAbs ≤ 2 ^ 17 ∧ 2 ^ (8 * c) ≤ 2 ^ 6 * (5 * s.natAbs) := by
  decide

theorem slopes_coprime : ∀ c ∈ [2, 3], ∀ s ∈ slopes c, ∀ s' ∈ slopes c,
    s.natAbs ≠ s'.natAbs → Int.gcd s s' = 1 := by
  decide

/-! ## Words given away by their lowest bytes -/

/-- Doubles how many of the lowest bits of a product with `s` are those of one. -/
def refine (s t : Int) : Int := t * (2 - s * t) % 2 ^ 64

/-- The inverse of an odd number modulo `2 ^ 64`. -/
def inverse (s : Int) : Int := refine s (refine s (refine s (refine s (refine s s))))

theorem slopes_inverse : ∀ c ∈ [2, 3], ∀ s ∈ slopes c, inverse s * s % 2 ^ 64 = 1 := by
  decide

/-- The word whose product with `s` is by `e` off a multiple of `2 ^ 64`. -/
def wordOff (s e : Int) : Nat := (inverse s * e % 2 ^ 64).toNat

theorem wordOff_eq {s : Int} (hs : inverse s * s % 2 ^ 64 = 1) {u : Nat} (hu : u < 2 ^ 64) (n : Int) :
    wordOff s (s * u - 2 ^ 64 * n) = u := by
  have hword : inverse s * (s * u - 2 ^ 64 * n) % 2 ^ 64 = u := by
    have hsplit : inverse s * (s * u - 2 ^ 64 * n) =
        inverse s * s * u + 2 ^ 64 * (-(inverse s * n)) := by ring
    rw [hsplit, Int.add_mul_emod_self_left, Int.mul_emod, hs, one_mul]
    omega
  rw [wordOff, hword, Int.toNat_natCast]

/-- A product that is close to a multiple of `2 ^ 64` shows in its lowest bits by how much. -/
theorem bmod_low_eq {s n : Int} {u w : Nat} (hw : w ≤ 64) (h : 2 * |s * u - 2 ^ 64 * n| < 2 ^ w) :
    (s * (u % 2 ^ w : Nat)).bmod (2 ^ w) = s * u - 2 ^ 64 * n := by
  have hlow : s * (u % 2 ^ w : Nat) =
      s * u - 2 ^ 64 * n + (2 ^ w : Nat) * (2 ^ (64 - w) * n - s * (u / 2 ^ w : Nat)) := by
    have hsplit : (u : Int) = (2 ^ w : Nat) * (u / 2 ^ w : Nat) + (u % 2 ^ w : Nat) := by
      exact_mod_cast (Nat.div_add_mod u (2 ^ w)).symm
    have hpow : (2 : Int) ^ 64 = (2 ^ w : Nat) * 2 ^ (64 - w) := by
      push_cast
      rw [← pow_add, Nat.add_sub_cancel' hw]
      rfl
    rw [hpow]
    linear_combination -s * hsplit
  have hcast : ((2 ^ w : Nat) : Int) = 2 ^ w := by push_cast; rfl
  have hle := le_abs_self (s * u - 2 ^ 64 * n)
  have hneg := neg_abs_le (s * u - 2 ^ 64 * n)
  rw [hlow, Int.add_mul_bmod_self_left]
  exact Int.bmod_eq_of_le_mul_two (by omega) (by omega)

/-! ## Bytes that the fold tells apart -/

/-- The `c` lowest bytes of a factor give the other one away, which is the same but for `mask`, unless
none is close enough to a multiple; and then it is not one that folds alike when the lowest bit of each
copy is turned. -/
def Settled (c mask x : Nat) : Prop :=
  let s := slope c x 6
  let e := (s * ((x ^^^ mask) % 2 ^ (8 * c) : Nat)).bmod (2 ^ (8 * c))
  let u := wordOff s e
  2 ^ 6 * e.natAbs < 2 ^ (8 * c) →
    foldHalves ((u ^^^ mask) * u) ≠ foldHalves ((u ^^^ mask ^^^ copies c 1) * u)

instance (c mask x : Nat) : Decidable (Settled c mask x) := by
  unfold Settled
  infer_instance

section
variable {c mask base u x : Nat}

theorem slope_mod {r w : Nat} (h : r + 8 * c < w + 8) : slope c (x % 2 ^ w) r = slope c x r := by
  induction c generalizing r with
  | zero => rfl
  | succ c ih =>
    have hr : r < w := by omega
    rw [slope, slope, ih (by omega), Nat.testBit_mod_two_pow, decide_eq_true hr, Bool.true_and]

theorem settled_ne {n : Int} (hc : c ∈ [2, 3]) (hu : u < 2 ^ 64) (hx : x = u ^^^ mask)
    (hn : 2 ^ 6 * |slope c x 6 * u - 2 ^ 64 * n| < 2 ^ (8 * c))
    (h : Settled c mask (x % 2 ^ (8 * c))) :
    foldHalves (x * u) ≠ foldHalves ((x ^^^ copies c 1) * u) := by
  have hfits : ∀ c ∈ [2, 3], 8 * c ≤ 64 := by decide
  have hnonneg := abs_nonneg (slope c x 6 * u - 2 ^ 64 * n)
  have hback : u = x ^^^ mask := by rw [hx, Nat.xor_assoc, Nat.xor_self, Nat.xor_zero]
  have hlow : (x % 2 ^ (8 * c) ^^^ mask) % 2 ^ (8 * c) = u % 2 ^ (8 * c) := by
    rw [hback, Nat.xor_mod_two_pow, Nat.mod_mod, ← Nat.xor_mod_two_pow]
  have hoff : (slope c x 6 * (u % 2 ^ (8 * c) : Nat)).bmod (2 ^ (8 * c)) =
      slope c x 6 * u - 2 ^ 64 * n := bmod_low_eq (hfits c hc) (by omega)
  have hword := wordOff_eq (slopes_inverse c hc _ (slope_mem_slopes c x 6)) hu n
  simp only [Settled, slope_mod (by omega : 6 + 8 * c < 8 * c + 8), hlow, hoff, hword, ← hx] at h
  apply h
  zify
  exact hn

theorem xor_one_eq_of_ne {q e : Nat} (h : q / 2 = e / 2) (hne : q ≠ e) : q ^^^ 1 = e := by
  rcases Nat.even_or_odd q with heven | hodd
  · have := Nat.even_iff.1 heven
    rw [Nat.xor_one_of_even heven]
    omega
  · have := Nat.odd_iff.1 hodd
    rw [Nat.xor_one_of_odd hodd]
    omega

theorem top_add_one (hc : c ∈ [2, 3]) : 8 * c - 1 + 1 = 8 * c := by
  have hpos : ∀ c ∈ [2, 3], 0 < 8 * c := by decide
  exact Nat.sub_add_cancel (hpos c hc)

/-- The highest bit of all copies decides in which half of its range the factor lies. -/
theorem exists_in_half {e r : Nat} (hc : c ∈ [2, 3]) (hr : r < 7) (he : e / 2 = base / 2 ^ (8 * c)) :
    ∃ b ∈ [0, 2 ^ 7], (base ^^^ copies c b) / 2 ^ (8 * c - 1) = e ∧
      slope c (base ^^^ copies c b) r = slope c base r := by
  have htop : ∀ c ∈ [2, 3], copies c (2 ^ 7) / 2 ^ (8 * c - 1) = 1 := by decide
  have hbase : base / 2 ^ (8 * c - 1) / 2 = e / 2 := by
    rw [he, Nat.div_div_eq_div_mul, ← Nat.pow_succ, Nat.succ_eq_add_one, top_add_one hc]
  by_cases h : base / 2 ^ (8 * c - 1) = e
  · have hnone : base ^^^ copies c 0 = base := by rw [copies_zero, Nat.xor_zero]
    exact ⟨0, by decide, by rw [hnone, h], by rw [hnone]⟩
  · refine ⟨2 ^ 7, by decide, ?_, slope_xor_copies (by omega)⟩
    rw [Nat.xor_div_two_pow, htop c hc, xor_one_eq_of_ne hbase h]

/-- If the fold is the same for every byte, slopes times the other factor are close to multiples of
`2 ^ 64`. -/
theorem exists_near_slope {r : Nat} (hc : c ∈ [2, 3]) (hu : u < 2 ^ 64) (hr : r < 7)
    (hsame : ∀ v < 256, ∀ v' < 256,
      foldHalves ((base ^^^ copies c v) * u) = foldHalves ((base ^^^ copies c v') * u)) :
    ∃ n : Int, 2 ^ r * |slope c base r * u - 2 ^ 64 * n| < 2 ^ (8 * c) := by
  have hbelow : ∀ c ∈ [2, 3], ∀ r < 7, copies c (2 ^ r) / 2 ^ (8 * c - 1) = 0 := by decide
  have hsum : ∀ c ∈ [2, 3], ∀ b ∈ [0, 2 ^ 7], ∀ r < 7,
      copies c (b + 2 ^ r) = copies c b ^^^ copies c (2 ^ r) ∧ b + 2 ^ r < 256 ∧ b < 256 := by decide
  obtain ⟨e, he, hhalf⟩ := exists_half hu (base / 2 ^ (8 * c)) (8 * c - 1)
  obtain ⟨b, hb, hplace, hslope⟩ := exists_in_half hc hr he
  obtain ⟨hturned, hless, hless'⟩ := hsum c hc b hb r hr
  have hplace' : (base ^^^ copies c b ^^^ copies c (2 ^ r)) / 2 ^ (8 * c - 1) = e := by
    rw [Nat.xor_div_two_pow, hplace, hbelow c hc r hr, Nat.xor_zero]
  have hhigh := hhalf _ _ hplace hplace'
  have hfold := hsame b hless' (b + 2 ^ r) hless
  rw [hturned, ← Nat.xor_assoc] at hfold
  rw [top_add_one hc] at hhigh
  rw [← hslope]
  exact exists_near_multiple (by omega) hfold hhigh (cast_xor_copies c _ r)

/-- Slopes that differ bring few words close to multiples of `2 ^ 64`. -/
theorem near_ends_of_slopes {r : Nat} {n n' : Int} (hc : c ∈ [2, 3]) (hu : u < 2 ^ 64)
    (hne : |slope c x r| ≠ |slope c x 6|) (hn : 2 ^ r * |slope c x r * u - 2 ^ 64 * n| < 2 ^ (8 * c))
    (hn' : 2 ^ 6 * |slope c x 6 * u - 2 ^ 64 * n'| < 2 ^ (8 * c)) : u ≤ 4 ∨ 2 ^ 64 ≤ u + 4 := by
  have hfits : ∀ c ∈ [2, 3], (2 : Int) ^ (8 * c) ≤ 2 ^ 24 := by decide
  have hbounds (r : Nat) : |slope c x r| ≤ 2 ^ 17 ∧ 2 ^ (8 * c) ≤ 2 ^ 6 * (5 * |slope c x r|) := by
    have h := slopes_bounds c hc _ (slope_mem_slopes c x r)
    rw [Int.abs_eq_natAbs]
    exact_mod_cast h
  have hcoprime : IsCoprime (slope c x 6) (slope c x r) := by
    rw [Int.isCoprime_iff_gcd_eq_one]
    apply slopes_coprime c hc _ (slope_mem_slopes c x 6) _ (slope_mem_slopes c x r)
    rw [Int.abs_eq_natAbs, Int.abs_eq_natAbs] at hne
    omega
  have hone : 1 * |slope c x r * u - 2 ^ 64 * n| ≤ 2 ^ r * |slope c x r * u - 2 ^ 64 * n| :=
    mul_le_mul_of_nonneg_right (one_le_pow₀ (by decide)) (abs_nonneg _)
  have hwhole := hfits c hc
  have hnonneg := abs_nonneg (slope c x 6 * u - 2 ^ 64 * n')
  have hleast := (hbounds 6).2
  have hnear : |slope c x r * u - 2 ^ 64 * n| < 2 ^ 24 := by omega
  have hnear' : |slope c x 6 * u - 2 ^ 64 * n'| < 2 ^ 24 := by omega
  exact near_ends hu hcoprime (hbounds r).1 (hbounds 6).1 hnear hnear' (by omega)

/-- Some two bytes are told apart by the fold, if that holds at the ends of the range and of what slopes
give away. -/
theorem exists_copies_ne (hc : c ∈ [2, 3]) (hu : 0 < u) (hu' : u < 2 ^ 64 - 1)
    (hends : ∀ v ∈ [1, 2, 3, 4, 2 ^ 64 - 4, 2 ^ 64 - 3, 2 ^ 64 - 2],
      foldHalves ((v ^^^ mask) * v) ≠ foldHalves ((v ^^^ mask ^^^ copies c 1) * v))
    (hsettled : ∀ x, (∀ r < 6, |slope c x r| = |slope c x 6|) →
      Settled c mask (x % 2 ^ (8 * c))) :
    ∃ v < 256, ∃ v' < 256,
      foldHalves ((u ^^^ mask ^^^ copies c v) * u) ≠
        foldHalves ((u ^^^ mask ^^^ copies c v') * u) := by
  by_contra! hsame
  have hlt : u < 2 ^ 64 := by omega
  have hfold := hsame 0 (by decide) 1 (by decide)
  rw [copies_zero, Nat.xor_zero] at hfold
  obtain ⟨n', hn'⟩ := exists_near_slope hc hlt (by decide : 6 < 7) hsame
  by_cases hall : ∀ r < 6, |slope c (u ^^^ mask) r| = |slope c (u ^^^ mask) 6|
  · exact settled_ne hc hlt rfl hn' (hsettled _ hall) hfold
  · push Not at hall
    obtain ⟨r, hr, hne⟩ := hall
    obtain ⟨n, hn⟩ := exists_near_slope hc hlt (by omega : r < 7) hsame
    have hedge := near_ends_of_slopes hc hlt hne hn hn'
    have hmem : u ∈ [1, 2, 3, 4, 2 ^ 64 - 4, 2 ^ 64 - 3, 2 ^ 64 - 2] := by
      simp only [List.mem_cons, List.not_mem_nil, or_false]
      omega
    exact hends u hmem hfold

end

end Fingerprint
