import Mathlib.Data.Nat.Notation

namespace ReaverOS.Foundation

open List

variable {α : Type} {weight : α → ℕ} {l : List α} {i : ℕ} {a b : α}

def total (weight : α → ℕ) : List α → ℕ
  | [] => 0
  | a :: l => weight a + total weight l

theorem total_append (w : α → ℕ) (l l' : List α) : total w (l ++ l') = total w l + total w l' := by
  induction l with
  | nil => exact (Nat.zero_add _).symm
  | cons a l ih => rw [cons_append, total, total, ih, Nat.add_assoc]

@[simp]
theorem total_singleton (w : α → ℕ) (a : α) : total w [a] = w a :=
  rfl

theorem total_set (w : α → ℕ) (h : l[i]? = some a) (b : α) :
  total w (l.set i b) + w a = total w l + w b := by
  induction l generalizing i with
  | nil => cases h
  | cons c l ih =>
    cases i with
    | zero =>
      cases h
      rw [set_cons_zero, total, total]
      omega
    | succ i =>
      have := ih h
      rw [set_cons_succ, total, total]
      omega

theorem total_set_eq {n n' : ℕ} (h : l[i]? = some a) (hl : total weight l = n)
  (hn : n' + weight a = n + weight b) : total weight (l.set i b) = n' := by
  have := total_set weight h b
  omega

theorem le_total (w : α → ℕ) (h : a ∈ l) : w a ≤ total w l := by
  induction l with
  | nil => cases h
  | cons b l ih =>
    rw [total]
    obtain rfl | h := mem_cons.mp h
    · exact Nat.le_add_right _ _
    · exact Nat.le_trans (ih h) (Nat.le_add_left _ _)

theorem add_le_total (w : α → ℕ) {j : ℕ} (hij : i ≠ j) (hi : l[i]? = some a)
  (hj : l[j]? = some b) : w a + w b ≤ total w l := by
  induction l generalizing i j with
  | nil => cases hi
  | cons c l ih =>
    rw [total]
    cases i with
    | zero =>
      cases hi
      cases j with
      | zero => exact absurd rfl hij
      | succ j =>
        have hm : b ∈ l := mem_of_getElem? (i := j) hj
        exact Nat.add_le_add_left (le_total w hm) _
    | succ i =>
      cases j with
      | zero =>
        cases hj
        have hm : a ∈ l := mem_of_getElem? (i := i) hi
        rw [Nat.add_comm]
        exact Nat.add_le_add_left (le_total w hm) _
      | succ j =>
        have := ih (fun h ↦ hij (congrArg _ h)) hi hj
        omega

end ReaverOS.Foundation
