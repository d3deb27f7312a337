import Mathlib.Data.List.Basic

/-!
# Folds of steps that can be undone

A fold whose steps can all be undone can be undone. So two folds that take the same steps but for one
come to a common state only if that one step does, from a state common to both.
-/

namespace Fingerprint
set_option autoImplicit false

variable {ι σ : Type} {g g' : ι → σ → σ} {l : List ι}

theorem foldl_injective (h : ∀ i ∈ l, Function.Injective (g i)) :
    Function.Injective fun s => l.foldl (fun s i => g i s) s := by
  induction l with
  | nil => exact Function.injective_id
  | cons i l ih =>
    have hrest := ih fun j hj => h j (List.mem_cons_of_mem i hj)
    exact hrest.comp (h i List.mem_cons_self)

/-- Two folds that take the same steps at all members but one, and can be undone after that one, take
the one from a common state to a common state. -/
theorem exists_step_eq_of_foldl_eq {k : ι} {s : σ} (hl : l.Nodup) (hk : k ∈ l)
    (hsame : ∀ i ∈ l, i ≠ k → g i = g' i) (hinj : ∀ i ∈ l, Function.Injective (g i))
    (h : l.foldl (fun s i => g i s) s = l.foldl (fun s i => g' i s) s) :
    ∃ t, g k t = g' k t := by
  obtain ⟨before, after, rfl⟩ := List.append_of_mem hk
  obtain ⟨-, hnodup, hapart⟩ := List.nodup_append.1 hl
  have hbefore : before.foldl (fun s i => g i s) s = before.foldl (fun s i => g' i s) s := by
    apply List.foldl_ext
    intro s i hi
    rw [hsame i (List.mem_append_left _ hi) (hapart i hi k List.mem_cons_self)]
  have hafter : ∀ s, after.foldl (fun s i => g i s) s = after.foldl (fun s i => g' i s) s := by
    intro s
    apply List.foldl_ext
    intro s i hi
    have hne : i ≠ k := fun heq => (List.nodup_cons.1 hnodup).1 (heq ▸ hi)
    rw [hsame i (List.mem_append_right _ (List.mem_cons_of_mem k hi)) hne]
  rw [List.foldl_append, List.foldl_append, List.foldl_cons, List.foldl_cons, hbefore,
    ← hafter] at h
  refine ⟨_, foldl_injective ?_ h⟩
  intro i hi
  exact hinj i (List.mem_append_right _ (List.mem_cons_of_mem k hi))

end Fingerprint
