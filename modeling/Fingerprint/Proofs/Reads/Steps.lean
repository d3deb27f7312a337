import Fingerprint.Proofs.Reads.Loops

/-!
# Steps inside a range, and steps that touch a byte

A body stays inside its range if all its reads do, if it reads no table beyond its end, and if no
arithmetic on its positions wraps. It covers a byte if some read takes that byte in. Its narrow reads
are backed if three bytes of the range lie before each of them.
-/

namespace Fingerprint.Plan
set_option autoImplicit false

variable {α : Type}

namespace Step

/-- A read of the range ends within its `len` bytes, a read of a table within the 192 bytes of that
table, and arithmetic does not wrap. -/
def Inside (len : UInt64) : Step → Prop
  | input w p => p.toNat + w.bytes ≤ len.toNat
  | table t w p => t.size = 192 ∧ p.toNat + w.bytes ≤ 192
  | demand h => h = true

/-- A read of the range takes in byte `k`. -/
def Touches (k : Nat) : Step → Prop
  | input w p => p.toNat ≤ k ∧ k < p.toNat + w.bytes
  | table _ _ _ => False
  | demand _ => False

/-- A read of one or two bytes does not begin in the first three bytes of the range. -/
def Backed : Step → Prop
  | input .one p => 3 ≤ p.toNat
  | input .two p => 3 ≤ p.toNat
  | _ => True

section
variable {len p : UInt64} {k : Nat} {w : Width} {t : Array UInt8} {h : Bool}

@[simp] theorem inside_input : (input w p).Inside len ↔ p.toNat + w.bytes ≤ len.toNat := .rfl

@[simp] theorem inside_table : (table t w p).Inside len ↔ t.size = 192 ∧ p.toNat + w.bytes ≤ 192 :=
  .rfl

@[simp] theorem inside_demand : (demand h).Inside len ↔ h = true := .rfl

theorem inside_true : (demand true).Inside len := rfl

@[simp] theorem touches_input :
    (input w p).Touches k ↔ p.toNat ≤ k ∧ k < p.toNat + w.bytes := .rfl

@[simp] theorem touches_table : ¬ (table t w p).Touches k := id

@[simp] theorem touches_demand : ¬ (demand h).Touches k := id

@[simp] theorem backed_one : (input .one p).Backed ↔ 3 ≤ p.toNat := .rfl

@[simp] theorem backed_two : (input .two p).Backed ↔ 3 ≤ p.toNat := .rfl

@[simp] theorem backed_four : (input .four p).Backed := trivial

@[simp] theorem backed_eight : (input .eight p).Backed := trivial

@[simp] theorem backed_table : (table t w p).Backed := trivial

@[simp] theorem backed_demand (h : Bool) : (demand h).Backed := trivial

end

end Step

/-- Every step stays inside a range of `len` bytes. -/
abbrev StaysInside (len : UInt64) (p : Plan α) : Prop := p.Always (Step.Inside len) fun _ => True

abbrev ReadsBacked (p : Plan α) : Prop := p.Always Step.Backed fun _ => True

abbrev Covers (k : Nat) (p : Plan α) : Prop := p.Sometime (Step.Touches k) fun _ => False

/-- Stripes end where they began, or with more than enough bytes behind them. -/
theorem stripes_backed {len : UInt64} {take : UInt64 → α → Plan α}
    (htake : ∀ p s, (take p s).ReadsBacked) (s : α) :
    (strides .stripe len take 0 s).Always Step.Backed fun r =>
      r.1.toNat ≤ len.toNat ∧ (r.1.toNat = 0 ∨ 4 ≤ r.1.toNat) := by
  have h32 : Stride.stripe.step.toNat = 32 := rfl
  apply (Always.strides trivial (Nat.zero_le _) (fun q s _ => htake q s) s).imp
  rintro ⟨p, s⟩ ⟨hp, -, hfar⟩
  rw [UInt64.toNat_zero] at hfar
  dsimp only at hp hfar ⊢
  omega

end Fingerprint.Plan
