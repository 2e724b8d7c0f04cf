import Mathlib.Data.Nat.Bitwise
import Mathlib.Tactic.Ring

namespace ReaverOS.Foundation.Words

def andNot (x m : ℕ) : ℕ := x &&& (2 ^ 64 - 1 - m)

theorem andNot_low_bits {x k : ℕ} (hx : x < 2 ^ 64) (hk : k ≤ 64) :
  andNot x (2 ^ k - 1) = x / 2 ^ k * 2 ^ k := by
  have hm : 2 ^ k - 1 < 2 ^ 64 :=
    (Nat.sub_lt (Nat.two_pow_pos k) Nat.one_pos).trans_le (Nat.pow_le_pow_right (by decide) hk)
  rw [← Nat.shiftRight_eq_div_pow, ← Nat.shiftLeft_eq]
  apply Nat.eq_of_testBit_eq
  intro i
  have hc : 2 ^ 64 - 1 - (2 ^ k - 1) = 2 ^ 64 - (2 ^ k - 1 + 1) := by omega
  rw [andNot, hc, Nat.testBit_and, Nat.testBit_two_pow_sub_succ hm, Nat.testBit_two_pow_sub_one,
    Nat.testBit_shiftLeft, Nat.testBit_shiftRight]
  by_cases hik : i < k
  · simp [hik]
  · by_cases hi : i < 64
    · simp [hi, hik, Nat.add_sub_cancel' (Nat.le_of_not_lt hik), Nat.le_of_not_lt hik]
    · have hz : x.testBit i = false := Nat.testBit_lt_two_pow
        (hx.trans_le (Nat.pow_le_pow_right (by decide) (Nat.le_of_not_lt hi)))
      simp [hz, Nat.add_sub_cancel' (Nat.le_of_not_lt hik)]

theorem shiftRight_and_low_bits (x k n : ℕ) : (x >>> k) &&& (2 ^ n - 1) = x / 2 ^ k % 2 ^ n := by
  rw [Nat.and_two_pow_sub_one_eq_mod, Nat.shiftRight_eq_div_pow]

end ReaverOS.Foundation.Words

namespace ReaverOS.Foundation.Flags

open List

variable {α : Type*} {w : ℕ} {bit : α → ℕ} {l p s : List α}

def mask (w : ℕ) (bit : α → ℕ) (l : List α) : BitVec w :=
  l.foldr (fun a m ↦ (1#w <<< bit a) ||| m) 0

theorem getLsbD_mask {k : ℕ} : (mask w bit l).getLsbD k = true ↔ k < w ∧ ∃ a ∈ l, bit a = k := by
  induction l with
  | nil => simp [mask]
  | cons a l ih =>
    rw [mask, foldr_cons, ← mask, ← BitVec.twoPow_eq, BitVec.getLsbD_or, Bool.or_eq_true, ih,
      BitVec.getLsbD_twoPow, Bool.and_eq_true, decide_eq_true_eq, decide_eq_true_eq]
    constructor
    · rintro (⟨hlt, rfl⟩ | ⟨hk, b, hb, rfl⟩)
      · exact ⟨hlt, a, mem_cons_self, rfl⟩
      · exact ⟨hk, b, mem_cons_of_mem a hb, rfl⟩
    · rintro ⟨hk, b, hb, rfl⟩
      rcases mem_cons.mp hb with rfl | hb
      · exact .inl ⟨hk, rfl⟩
      · exact .inr ⟨hk, b, hb, rfl⟩

theorem and_mask_eq_iff : mask w bit p &&& mask w bit s = mask w bit p ↔
  ∀ a ∈ p, bit a < w → ∃ b ∈ s, bit b = bit a := by
  constructor
  · intro h a ha hl
    have hs : (mask w bit p).getLsbD (bit a) = true := getLsbD_mask.mpr ⟨hl, a, ha, rfl⟩
    rw [← h, BitVec.getLsbD_and, Bool.and_eq_true] at hs
    exact (getLsbD_mask.mp hs.2).2
  · intro h
    refine BitVec.eq_of_getLsbD_eq fun k hk ↦ ?_
    rw [BitVec.getLsbD_and, Bool.and_eq_left_iff_imp]
    intro hs
    obtain ⟨-, a, ha, rfl⟩ := getLsbD_mask.mp hs
    exact getLsbD_mask.mpr ⟨hk, h a ha hk⟩

end ReaverOS.Foundation.Flags
