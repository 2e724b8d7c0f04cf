import Mathlib.Data.Nat.Count

namespace ReaverOS.Foundation

open Function

variable {α : Type*} {f g : ℕ → α} {P : α → Prop} [DecidablePred P] {i n : ℕ}

def tally (P : α → Prop) [DecidablePred P] (f : ℕ → α) (n : ℕ) : ℕ := Nat.count (fun k ↦ P (f k)) n

theorem tally_succ (P : α → Prop) [DecidablePred P] (f : ℕ → α) (n : ℕ) :
  tally P f (n + 1) = tally P f n + if P (f n) then 1 else 0 :=
  Nat.count_succ _ n

theorem tally_congr (h : ∀ k < n, P (f k) ↔ P (g k)) : tally P f n = tally P g n := by
  induction n with
  | zero => rfl
  | succ n ih =>
    rw [tally_succ, tally_succ, ih fun k hk ↦ h k (Nat.lt_succ_of_lt hk)]
    simp only [h n (Nat.lt_succ_self n)]

theorem tally_update_of_le (hi : n ≤ i) (a : α) : tally P (update f i a) n = tally P f n := by
  apply tally_congr
  intro k hk
  rw [update_of_ne (ne_of_lt (lt_of_lt_of_le hk hi))]

theorem tally_update (hi : i < n) (a : α) : tally P (update f i a) n + (if P (f i) then 1 else 0) =
  tally P f n + if P a then 1 else 0 := by
  induction n with
  | zero => exact absurd hi (Nat.not_lt_zero i)
  | succ n ih =>
    rw [tally_succ, tally_succ]
    rcases Nat.lt_succ_iff_lt_or_eq.mp hi with hlt | rfl
    · rw [update_of_ne (ne_of_gt hlt)]
      have := ih hlt
      omega
    · rw [tally_update_of_le (Nat.le_refl i), update_self]
      omega

theorem tally_push (a : α) :
  tally P (update f n a) (n + 1) = tally P f n + if P a then 1 else 0 := by
  rw [tally_succ, tally_update_of_le (le_refl n), update_self]

theorem tally_eq_zero (h : ∀ k < n, ¬ P (f k)) : tally P f n = 0 := Nat.count_of_forall_not h

theorem tally_pos (hi : i < n) (h : P (f i)) : 0 < tally P f n :=
  Nat.pos_of_ne_zero (Nat.count_ne_iff_exists.mpr ⟨i, hi, h⟩)

end ReaverOS.Foundation
