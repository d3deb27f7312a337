import Fingerprint.WyHash
import Fingerprint.Proofs.Reads.Steps

/-!
# What wyhash reads

The stripes leave at least one byte and at most 32. What reads the last of them reads a range of its
own of that length, so it meets the same regimes as a short range does.
-/

namespace Fingerprint.WyHash
open Plan
set_option autoImplicit false

variable {len p n : UInt64} {k : Nat}

/-! ## Up to 32 bytes -/

theorem upTo32_staysInside (seed : UInt64) (h : len.toNat ≤ 32) :
    (upTo32 seed len).StaysInside len := by
  simp [upTo32, few, half, crossed, of17to24, of25to32, UInt64.lt_iff_toNat_lt,
    UInt64.le_iff_toNat_le, UInt64.toNat_sub, ← UInt64.toNat_inj]
  omega

theorem upTo32_covers (seed : UInt64) (hk : k < len.toNat) (h : len.toNat ≤ 32) :
    (upTo32 seed len).Covers k := by
  simp [upTo32, few, half, crossed, of17to24, of25to32, UInt64.lt_iff_toNat_lt,
    UInt64.le_iff_toNat_le, UInt64.toNat_sub, ← UInt64.toNat_inj]
  omega

/-! ## Stripes -/

theorem takeWide_staysInside (h : p.toNat + 64 ≤ len.toNat) (s : Lanes) :
    (takeWide p s).StaysInside len := by
  have hlen := len.toNat_lt
  simp [takeWide]
  omega

theorem takeWide_covers (hp : p.toNat ≤ k) (hk : k < p.toNat + 64)
    (h : p.toNat + 64 < 2 ^ 64) (s : Lanes) : (takeWide p s).Covers k := by
  simp [takeWide]
  omega

theorem takeFour_staysInside (h : p.toNat + 256 ≤ len.toNat) (s : Lanes) :
    (takeFour p s).StaysInside len := by
  have hlen := len.toNat_lt
  have h64 : (64 : UInt64).toNat = 64 := rfl
  have h128 : (128 : UInt64).toNat = 128 := rfl
  have h192 : (192 : UInt64).toNat = 192 := rfl
  unfold takeFour
  apply (takeWide_staysInside (by omega) s).andThen
  intro s _
  apply Always.add Step.inside_true (by omega)
  intro second hsecond
  apply (takeWide_staysInside (by omega) s).andThen
  intro s _
  apply Always.add Step.inside_true (by omega)
  intro third hthird
  apply (takeWide_staysInside (by omega) s).andThen
  intro s _
  apply Always.add Step.inside_true (by omega)
  intro fourth hfourth
  exact takeWide_staysInside (by omega) s

theorem takeFour_covers (hp : p.toNat ≤ k) (hk : k < p.toNat + 256)
    (h : p.toNat + 256 < 2 ^ 64) (s : Lanes) : (takeFour p s).Covers k := by
  have h64 : (64 : UInt64).toNat = 64 := rfl
  have h128 : (128 : UInt64).toNat = 128 := rfl
  have h192 : (192 : UInt64).toNat = 192 := rfl
  unfold takeFour
  by_cases h1 : k < p.toNat + 64
  · exact (takeWide_covers hp h1 (by omega) s).first
  apply Sometime.later
  intro s
  apply Sometime.add (by omega)
  intro second hsecond
  by_cases h2 : k < p.toNat + 128
  · exact (takeWide_covers (by omega) (by omega) (by omega) s).first
  apply Sometime.later
  intro s
  apply Sometime.add (by omega)
  intro third hthird
  by_cases h3 : k < p.toNat + 192
  · exact (takeWide_covers (by omega) (by omega) (by omega) s).first
  apply Sometime.later
  intro s
  apply Sometime.add (by omega)
  intro fourth hfourth
  exact takeWide_covers (by omega) (by omega) (by omega) s

theorem takeNarrow_staysInside (h : p.toNat + 32 ≤ len.toNat) (s : Lanes) :
    (takeNarrow p s).StaysInside len := by
  have hlen := len.toNat_lt
  simp [takeNarrow]
  omega

theorem takeNarrow_covers (hp : p.toNat ≤ k) (hk : k < p.toNat + 32)
    (h : p.toNat + 32 < 2 ^ 64) (s : Lanes) : (takeNarrow p s).Covers k := by
  simp [takeNarrow]
  omega

/-! ## The last bytes -/

theorem takeLast_staysInside (hpos : 0 < n.toNat) (hn : n.toNat ≤ 32)
    (h : p.toNat + n.toNat = len.toNat) (s : Lanes) : (takeLast p n s).StaysInside len := by
  have hlen := len.toNat_lt
  simp [takeLast, few, half, crossed, UInt64.lt_iff_toNat_lt, UInt64.le_iff_toNat_le,
    UInt64.toNat_sub]
  omega

theorem takeLast_covers (hn : n.toNat ≤ 32) (h : p.toNat + n.toNat < 2 ^ 64) (hp : p.toNat ≤ k)
    (hk : k < p.toNat + n.toNat) (s : Lanes) : (takeLast p n s).Covers k := by
  simp [takeLast, few, half, crossed, UInt64.lt_iff_toNat_lt, UInt64.le_iff_toNat_le,
    UInt64.toNat_sub]
  omega

/-! ## More than 32 bytes -/

theorem long_staysInside (seed : UInt64) (h : 32 < len.toNat) : (long seed len).StaysInside len := by
  have hlen := len.toNat_lt
  have h256 : wide.step.toNat = 256 := rfl
  have h257 : wide.least.toNat = 257 := rfl
  have h32 : narrow.step.toNat = 32 := rfl
  have h33 : narrow.least.toNat = 33 := rfl
  unfold long
  apply (Always.countdown Step.inside_true (Nat.zero_add _) ?_ _).andThen
  · rintro ⟨left, p, s⟩ ⟨hleft, -, hmore⟩
    dsimp only at hleft hmore
    apply (Always.countdown Step.inside_true hleft ?_ s).andThen
    · rintro ⟨rest, q, s⟩ ⟨hrest, hless, hmore'⟩
      dsimp only at hrest hless hmore'
      exact (takeLast_staysInside (by omega) (by omega) hrest s).andThen fun _ _ => trivial
    · intro q s hq
      exact takeNarrow_staysInside (by omega) s
  · intro q s hq
    exact takeFour_staysInside (by omega) s

theorem long_covers (seed : UInt64) (hk : k < len.toNat) : (long seed len).Covers k := by
  have hlen := len.toNat_lt
  have htrue : (Step.demand true).Inside len := rfl
  have h257 : wide.least.toNat = 257 := rfl
  have h33 : narrow.least.toNat = 33 := rfl
  have hfour (q : UInt64) (s : Lanes) (h : q.toNat + wide.least.toNat ≤ len.toNat) :
      (takeFour q s).StaysInside len := takeFour_staysInside (by omega) s
  have hnarrow (q : UInt64) (s : Lanes) (h : q.toNat + narrow.least.toNat ≤ len.toNat) :
      (takeNarrow q s).StaysInside len := takeNarrow_staysInside (by omega) s
  unfold long
  apply ((Sometime.countdown (k := k) (Nat.zero_add _) (Nat.zero_le _) ?_ _).both
    (Always.countdown htrue (Nat.zero_add _) hfour _)).orElse
  · rintro ⟨left, p, s⟩ ⟨hp, hleft, -⟩
    apply ((Sometime.countdown hleft hp ?_ s).both (Always.countdown htrue hleft hnarrow s)).orElse
    · rintro ⟨rest, q, s⟩ ⟨hq, hrest, hless, -⟩
      dsimp only at hq hrest hless
      exact (takeLast_covers (by omega) (by omega) hq (by omega) s).first
    · intro q s hq hk' h
      exact takeNarrow_covers hq hk' (by omega) s
  · intro q s hq hk' h
    exact takeFour_covers hq hk' (by omega) s

/-! ## The body -/

theorem body_staysInside (seed : UInt64) : (body seed len).StaysInside len := by
  have h32 : (32 : UInt64).toNat = 32 := rfl
  rw [body, StaysInside, always_ite, UInt64.le_iff_toNat_le]
  exact ⟨fun h => upTo32_staysInside seed h, fun h => long_staysInside seed (by omega)⟩

theorem body_covers (seed : UInt64) (hk : k < len.toNat) : (body seed len).Covers k := by
  rw [body, Covers, sometime_ite, UInt64.le_iff_toNat_le]
  exact ⟨fun h => upTo32_covers seed hk h, fun _ => long_covers seed hk⟩

/-! ## Narrow reads -/

theorem takeLast_backed {p n : UInt64} (h : n.toNat < 4 → 3 ≤ p.toNat)
    (hfits : p.toNat + n.toNat < 2 ^ 64) (hpos : 0 < n.toNat) (s : Lanes) :
    (takeLast p n s).ReadsBacked := by
  simp [takeLast, few, half, crossed, UInt64.lt_iff_toNat_lt, UInt64.le_iff_toNat_le,
    UInt64.toNat_sub]
  omega

theorem upTo32_backed (seed : UInt64) (h : len.toNat = 0 ∨ 4 ≤ len.toNat) :
    (upTo32 seed len).ReadsBacked := by
  simp [upTo32, few, half, crossed, of17to24, of25to32, UInt64.lt_iff_toNat_lt,
    ← UInt64.toNat_inj]
  omega

theorem long_backed (seed : UInt64) (h : 32 < len.toNat) : (long seed len).ReadsBacked := by
  have hlen := len.toNat_lt
  have h256 : wide.step.toNat = 256 := rfl
  have h257 : wide.least.toNat = 257 := rfl
  have h32 : narrow.step.toNat = 32 := rfl
  have h33 : narrow.least.toNat = 33 := rfl
  have hfour : ∀ p s, (takeFour p s).ReadsBacked := by simp [takeFour, takeWide]
  have hnarrow : ∀ p s, (takeNarrow p s).ReadsBacked := by simp [takeNarrow]
  unfold long
  apply (Always.countdown trivial (Nat.zero_add _) (fun q s _ => hfour q s) _).andThen
  rintro ⟨left, p, s⟩ ⟨hleft, -, hmore⟩
  dsimp only at hleft hmore
  apply (Always.countdown trivial hleft (fun q s _ => hnarrow q s) s).andThen
  rintro ⟨rest, q, s⟩ ⟨hrest, -, hmore'⟩
  dsimp only at hrest hmore'
  exact (takeLast_backed (by omega) (by omega) (by omega) s).andThen fun _ _ => trivial

theorem body_backed (seed : UInt64) (h : len.toNat = 0 ∨ 4 ≤ len.toNat) :
    (body seed len).ReadsBacked := by
  have h32 : (32 : UInt64).toNat = 32 := rfl
  rw [body, ReadsBacked, always_ite, UInt64.le_iff_toNat_le]
  exact ⟨fun _ => upTo32_backed seed h, fun hmore => long_backed seed (by omega)⟩

end Fingerprint.WyHash
