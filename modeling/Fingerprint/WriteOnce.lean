/-!
# Write-once cells

A cell starts empty and publishes one value. Publishing claims the cell, writes, and makes the value
readable; a cell once claimed is never claimed again. An initializer may itself use the cell before
it returns.
-/

namespace Fingerprint
set_option autoImplicit false

variable {α : Type}

/-- A cell, by the phase it is in. -/
inductive WriteOnce (α : Type) where
  | empty
  | writing
  | ready (value : α)
deriving DecidableEq

namespace WriteOnce

def get : WriteOnce α → Option α
  | ready v => some v
  | _ => none

/-- Takes an empty cell for writing; any other is refused. -/
def claim : WriteOnce α → Option (WriteOnce α)
  | empty => some writing
  | _ => none

def store (v : α) : WriteOnce α → WriteOnce α
  | writing => ready v
  | c => c

/-- Publishes a value, unless another was first. -/
def publish (v : α) (c : WriteOnce α) : WriteOnce α :=
  match c.claim with
  | some claimed => claimed.store v
  | none => c

inductive Step (α : Type) where
  | get
  | debug
  | init (value : α) (inner : List (Step α))

/-- What a use gives: the published value, the same as shown for inspection, or the value of an
initialization and, if its initializer ran, what its inner steps gave. -/
inductive Answer (α : Type) where
  | value (published : Option α)
  | shown (published : Option α)
  | init (value : α) (inner : Option (List (Answer α)))

mutual

/-- Runs one step. An initializer runs if the cell has no value when it starts; it then keeps its
own value, whatever was published meanwhile. -/
def step : Step α → WriteOnce α → Answer α × WriteOnce α
  | .get, c => (.value c.get, c)
  | .debug, c => (.shown c.get, c)
  | .init v inner, c =>
    match c.get with
    | some published => (.init published none, c)
    | none =>
      let (answers, c) := run inner c
      (.init v (some answers), c.publish v)

def run : List (Step α) → WriteOnce α → List (Answer α) × WriteOnce α
  | [], c => ([], c)
  | s :: rest, c =>
    let (answer, c) := step s c
    let (answers, c) := run rest c
    (answer :: answers, c)

end

def render (shows : α → String) : Option α → String
  | none => "OnceCache(None)"
  | some v => "OnceCache(Some(" ++ shows v ++ "))"

end WriteOnce

end Fingerprint
