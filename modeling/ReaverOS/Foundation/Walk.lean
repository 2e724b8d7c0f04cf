import Mathlib.Data.List.Basic

namespace ReaverOS.Foundation.Walk

open Function

variable {α : Type*}

def walk (next : α → α) : ℕ → α → List α
  | 0, _ => []
  | n + 1, p => p :: walk next n (next p)

@[simp]
theorem length_walk (nx : α → α) (n : ℕ) (p : α) : (walk nx n p).length = n := by
  induction n generalizing p with
  | zero => rfl
  | succ n ih => exact congrArg Nat.succ (ih _)

theorem walk_congr {f g : α → α} (n : ℕ) (p : α) (h : ∀ x ∈ walk f n p, f x = g x) :
  walk f n p = walk g n p := by
  induction n generalizing p with
  | zero => rfl
  | succ n ih =>
    have hp := h p (List.mem_cons_self ..)
    simp only [walk, List.cons.injEq, true_and]
    rw [← hp]
    exact ih (f p) fun x hx ↦ h x (List.mem_cons_of_mem _ hx)

variable [DecidableEq α]

theorem walk_update_of_notMem {nx : α → α} {n : ℕ} {p x : α} (v : α) (h : x ∉ walk nx n p) :
  walk (update nx x v) n p = walk nx n p := by
  symm
  apply walk_congr
  intro y hy
  rw [update_of_ne]
  rintro rfl
  exact h hy

theorem walk_push {nx : α → α} {n : ℕ} {p x : α} (h : x ∉ walk nx n p) :
  walk (update nx x p) (n + 1) x = x :: walk nx n p := by
  simp only [walk, update_self, walk_update_of_notMem p h]

end ReaverOS.Foundation.Walk
