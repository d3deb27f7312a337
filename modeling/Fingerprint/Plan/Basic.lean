import Fingerprint.Word.Order

/-!
# Plans of reads

A hash function does not hold its input: it asks for words of a byte range and of fixed tables,
one after another, and ends with a digest. A `Plan` is that course of questions as data, so one
body can be run against any way of answering, and what it reads can be stated and proved.

Positions are 64-bit words, relative to the start of the range. The arithmetic on them is part of the
plan: a sum, difference or product that does not fit a word is a demand that fails. A plain run wraps
and goes on; an attempt stops there, as it stops at a read that has no answer.
-/

namespace Fingerprint
set_option autoImplicit false

/-- A computation that reads words and ends with an `α`. -/
inductive Plan (α : Type) where
  | done (value : α)
  | input (width : Width) (position : UInt64) (next : UInt64 → Plan α)
  | table (source : Array UInt8) (width : Width) (position : UInt64) (next : UInt64 → Plan α)
  | demand (holds : Bool) (next : Plan α)

namespace Plan

variable {α β γ : Type}

def bind : Plan α → (α → Plan β) → Plan β
  | done a, f => f a
  | input w p next, f => input w p fun x => (next x).bind f
  | table t w p next, f => table t w p fun x => (next x).bind f
  | demand h next, f => demand h (next.bind f)

instance : Monad Plan where
  pure := done
  bind := bind

/-- The little-endian word at `position` of a table; bytes beyond its end count as zero. -/
def tableWord (source : Array UInt8) (w : Width) (position : UInt64) : UInt64 :=
  ByteOrder.little.assemble (Bytes.slice (fun i => source.getD i 0) position.toNat w.bytes)

/-- Runs a plan whose reads of the input are answered by `read`. -/
def run (read : Width → UInt64 → UInt64) : Plan α → α
  | done a => a
  | input w p next => (next (read w p)).run read
  | table t w p next => (next (tableWord t w p)).run read
  | demand _ next => next.run read

/-- Runs a plan some of whose reads have no answer. It gives up at such a read, at a read beyond the
end of a table, and at a demand that fails. -/
def attempt (read : Width → UInt64 → Option UInt64) : Plan α → Option α
  | done a => some a
  | input w p next => (read w p).bind fun x => (next x).attempt read
  | table t w p next =>
    if p.toNat + w.bytes ≤ t.size then (next (tableWord t w p)).attempt read else none
  | demand h next => if h then next.attempt read else none

/-- Runs a plan that reads tables alone. -/
def eval (p : Plan α) : α := p.run fun _ _ => 0

@[simp] theorem pure_bind (a : α) (f : α → Plan β) : (pure a : Plan α) >>= f = f a := rfl

@[simp] theorem bind_pure (p : Plan α) : p >>= pure = p := by
  induction p with
  | done a => rfl
  | input w p next ih => exact congrArg (input w p) (funext ih)
  | table t w p next ih => exact congrArg (table t w p) (funext ih)
  | demand h next ih => exact congrArg (demand h) ih

theorem bind_assoc (p : Plan α) (f : α → Plan β) (g : β → Plan γ) :
    p >>= f >>= g = p >>= fun a => f a >>= g := by
  induction p with
  | done a => rfl
  | input w p next ih => exact congrArg (input w p) (funext ih)
  | table t w p next ih => exact congrArg (table t w p) (funext ih)
  | demand h next ih => exact congrArg (demand h) ih

theorem map_eq_bind (f : α → β) (p : Plan α) : f <$> p = p >>= fun a => pure (f a) := rfl

instance : LawfulMonad Plan := LawfulMonad.mk' Plan
  (fun p => bind_pure p) (fun a f => pure_bind a f) (fun p f g => bind_assoc p f g)

@[simp] theorem run_pure (read : Width → UInt64 → UInt64) (a : α) :
    (pure a : Plan α).run read = a := rfl

@[simp] theorem run_bind (read : Width → UInt64 → UInt64) (p : Plan α) (f : α → Plan β) :
    (p >>= f).run read = (f (p.run read)).run read := by
  induction p with
  | done a => rfl
  | input w p next ih => exact ih (read w p)
  | table t w p next ih => exact ih (tableWord t w p)
  | demand h next ih => exact ih

@[simp] theorem run_demand (read : Width → UInt64 → UInt64) (h : Bool) (p : Plan α) :
    (demand h p).run read = p.run read := rfl

@[simp] theorem run_map (read : Width → UInt64 → UInt64) (f : α → β) (p : Plan α) :
    (f <$> p).run read = f (p.run read) := by
  rw [map_eq_bind, run_bind, run_pure]

/-! ## Single reads -/

def u64 (position : UInt64) : Plan UInt64 := input .eight position done

def u32 (position : UInt64) : Plan UInt32 := input .four position fun x => done x.toUInt32

def u16 (position : UInt64) : Plan UInt16 := input .two position fun x => done x.toUInt16

def u8 (position : UInt64) : Plan UInt8 := input .one position fun x => done x.toUInt8

def tableU64 (source : Array UInt8) (position : UInt64) : Plan UInt64 :=
  table source .eight position done

def tableU32 (source : Array UInt8) (position : UInt64) : Plan UInt32 :=
  table source .four position fun x => done x.toUInt32

/-! ## Arithmetic on positions -/

def fits (a b : UInt64) : Bool := a.toNat + b.toNat < UInt64.size

def fitsMul (a b : UInt64) : Bool := a.toNat * b.toNat < UInt64.size

def add (a b : UInt64) : Plan UInt64 := demand (fits a b) (done (a + b))

def sub (a b : UInt64) : Plan UInt64 := demand (b ≤ a) (done (a - b))

def mul (a b : UInt64) : Plan UInt64 := demand (fitsMul a b) (done (a * b))

section
variable (read : Width → UInt64 → UInt64) (source : Array UInt8) (position a b : UInt64)

@[simp] theorem run_u64 : (u64 position).run read = read .eight position := rfl

@[simp] theorem run_u32 : (u32 position).run read = (read .four position).toUInt32 := rfl

@[simp] theorem run_u16 : (u16 position).run read = (read .two position).toUInt16 := rfl

@[simp] theorem run_u8 : (u8 position).run read = (read .one position).toUInt8 := rfl

@[simp] theorem run_tableU64 :
    (tableU64 source position).run read = tableWord source .eight position := rfl

@[simp] theorem run_tableU32 :
    (tableU32 source position).run read = (tableWord source .four position).toUInt32 := rfl

@[simp] theorem run_add : (add a b).run read = a + b := rfl

@[simp] theorem run_sub : (sub a b).run read = a - b := rfl

@[simp] theorem run_mul : (mul a b).run read = a * b := rfl

end

end Plan

end Fingerprint
