import Mathlib.Algebra.Order.Group.Nat
import Mathlib.Data.Nat.ModEq
import Mathlib.Order.CompletePartialOrder
import Mathlib.Order.Interval.Set.Disjoint

namespace ReaverOS.Foundation.Arcs

variable {modulus start size a b : ℕ}

/-- The `size` addresses from `start` on in an address space of `modulus` addresses that wraps. -/
def arc (modulus start size : ℕ) : Set ℕ := {x | ∃ k < size, x = (start + k) % modulus}

theorem arc_zero : arc modulus start 0 = ∅ := by
  simp [arc]

theorem arc_mono (h : a ≤ b) : arc modulus start a ⊆ arc modulus start b := by
  rintro x ⟨k, hk, rfl⟩
  exact ⟨k, hk.trans_le h, rfl⟩

theorem arc_add (st a b : ℕ) : arc modulus st (a + b) =
  arc modulus st a ∪ arc modulus ((st + a) % modulus) b := by
  ext x
  constructor
  · rintro ⟨k, hk, rfl⟩
    rcases lt_or_ge k a with hka | hka
    · exact .inl ⟨k, hka, rfl⟩
    · refine .inr ⟨k - a, by omega, ?_⟩
      rw [Nat.mod_add_mod, show st + a + (k - a) = st + k by omega]
  · rintro (⟨k, hk, rfl⟩ | ⟨k, hk, rfl⟩)
    · exact ⟨k, by omega, rfl⟩
    · exact ⟨a + k, by omega, by rw [Nat.mod_add_mod, add_assoc]⟩

theorem disjoint_arc_add (h : a + b ≤ modulus) :
  Disjoint (arc modulus start a) (arc modulus ((start + a) % modulus) b) := by
  rw [Set.disjoint_left]
  rintro x ⟨k, hk, rfl⟩ ⟨j, hj, heq⟩
  rw [Nat.mod_add_mod, add_assoc] at heq
  have hm : k % modulus = (a + j) % modulus := Nat.ModEq.add_left_cancel' start heq
  rw [Nat.mod_eq_of_lt (by omega), Nat.mod_eq_of_lt (by omega)] at hm
  omega

theorem arc_eq_Ico (h : start + size ≤ modulus) :
  arc modulus start size = Set.Ico start (start + size) := by
  ext x
  constructor
  · rintro ⟨k, hk, rfl⟩
    rw [Nat.mod_eq_of_lt (by omega)]
    exact ⟨by omega, by omega⟩
  · rintro ⟨hl, hh⟩
    exact ⟨x - start, by omega, by rw [Nat.mod_eq_of_lt (by omega)]; omega⟩

theorem add_le_of_dvd (hm : size ∣ modulus) (hs : size ∣ start) (h : start < modulus) :
  start + size ≤ modulus := by
  obtain ⟨m, rfl⟩ := hm
  obtain ⟨k, rfl⟩ := hs
  calc
    size * k + size = size * (k + 1) := (Nat.mul_succ size k).symm
    _ ≤ size * m := Nat.mul_le_mul_left size (Nat.lt_of_mul_lt_mul_left h)

end ReaverOS.Foundation.Arcs
