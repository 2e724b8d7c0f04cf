import Mathlib.Algebra.Order.BigOperators.Group.List
import Mathlib.Algebra.Order.Group.Nat

namespace ReaverOS.Foundation.Unfolding

open List

variable {α : Type*} {succ : α → List α} {m n : ℕ} {x y : α}

def unfolding (succ : α → List α) : ℕ → α → List α
  | 0, _ => []
  | n + 1, x => x :: (succ x).flatMap (unfolding succ n)

def Ends (succ : α → List α) : ℕ → α → Prop
  | 0, _ => False
  | n + 1, x => ∀ y ∈ succ x, Ends succ n y

theorem length_le_flatMap {l : List α} (f : α → List α) (h : y ∈ l) :
  (f y).length ≤ (l.flatMap f).length := by
  rw [length_flatMap]
  apply single_le_sum
  · intro k _
    exact Nat.zero_le k
  · exact mem_map_of_mem h

theorem length_unfolding_mono (h : m ≤ n) (x : α) :
  (unfolding succ m x).length ≤ (unfolding succ n x).length := by
  induction m generalizing n x with
  | zero => exact Nat.zero_le _
  | succ m ih =>
    cases n with
    | zero => cases h
    | succ n =>
      rw [unfolding, unfolding, length_cons, length_cons, length_flatMap, length_flatMap]
      apply Nat.succ_le_succ
      apply sum_le_sum
      intro y _
      exact ih (Nat.le_of_succ_le_succ h) y

theorem Ends.unfolding_eq (h : Ends succ n x) (hm : n ≤ m) :
  unfolding succ m x = unfolding succ n x := by
  induction n generalizing m x with
  | zero => cases h
  | succ n ih =>
    cases m with
    | zero => cases hm
    | succ m =>
      rw [unfolding, unfolding]
      refine congrArg _ (flatMap_congr ?_)
      intro y hy
      exact ih (h y hy) (Nat.le_of_succ_le_succ hm)

theorem Ends.mono (h : Ends succ n x) (hm : n ≤ m) : Ends succ m x := by
  induction n generalizing m x with
  | zero => cases h
  | succ n ih =>
    cases m with
    | zero => cases hm
    | succ m =>
      intro y hy
      exact ih (h y hy) (Nat.le_of_succ_le_succ hm)

theorem ends_of_length_lt (h : (unfolding succ n x).length < n) : Ends succ n x := by
  induction n generalizing x with
  | zero => cases h
  | succ n ih =>
    intro y hy
    apply ih
    rw [unfolding, length_cons] at h
    exact (length_le_flatMap _ hy).trans_lt (Nat.lt_of_succ_lt_succ h)

theorem Ends.of_length_lt (h : Ends succ n x) (hm : (unfolding succ n x).length < m) :
  Ends succ m x ∧ unfolding succ m x = unfolding succ n x := by
  obtain hle | hle := Nat.le_total n m
  · exact ⟨h.mono hle, h.unfolding_eq hle⟩
  · have hm' : Ends succ m x := ends_of_length_lt ((length_unfolding_mono hle x).trans_lt hm)
    exact ⟨hm', (hm'.unfolding_eq hle).symm⟩

theorem not_ends {s : Set α} (h : ∀ x ∈ s, ∃ y ∈ succ x, y ∈ s) (n : ℕ) (hx : x ∈ s) :
  ¬ Ends succ n x := by
  induction n generalizing x with
  | zero => exact id
  | succ n ih =>
    intro he
    obtain ⟨y, hy, hs⟩ := h x hx
    exact ih hs (he y hy)

variable {stop : List α → α → Bool} {next : List α → α → List α} {seen ys : List α}

def unfoldings (stop : List α → α → Bool) (next : List α → α → List α) (n : ℕ) :
  List α → List α → List α
  | _, [] => []
  | seen, y :: ys =>
    if stop seen y then unfoldings stop next n seen ys
    else
      unfolding (next seen) n y ++ unfoldings stop next n (seen ++ unfolding (next seen) n y) ys

def AllEnd (stop : List α → α → Bool) (next : List α → α → List α) (n : ℕ) :
  List α → List α → Prop
  | _, [] => True
  | seen, y :: ys =>
    if stop seen y then AllEnd stop next n seen ys
    else Ends (next seen) n y ∧ AllEnd stop next n (seen ++ unfolding (next seen) n y) ys

theorem allEnd_of_length_lt (h : (unfoldings stop next n seen ys).length < n) :
  AllEnd stop next n seen ys := by
  induction ys generalizing seen with
  | nil => trivial
  | cons y ys ih =>
    rw [unfoldings] at h
    rw [AllEnd]
    split
    · next hstop =>
      rw [if_pos hstop] at h
      exact ih h
    · next hstop =>
      rw [if_neg hstop, length_append] at h
      exact ⟨ends_of_length_lt (by omega), ih (by omega)⟩

theorem AllEnd.of_length_lt (h : AllEnd stop next n seen ys)
  (hm : (unfoldings stop next n seen ys).length < m) : AllEnd stop next m seen ys ∧
  unfoldings stop next m seen ys = unfoldings stop next n seen ys := by
  induction ys generalizing seen with
  | nil => exact ⟨trivial, rfl⟩
  | cons y ys ih =>
    rw [AllEnd] at h
    rw [unfoldings] at hm
    rw [AllEnd, unfoldings, unfoldings]
    by_cases hs : stop seen y = true
    · rw [if_pos hs] at h hm
      simp only [if_pos hs]
      exact ih h hm
    · rw [if_neg hs] at h hm
      rw [length_append] at hm
      simp only [if_neg hs]
      obtain ⟨hn, hq⟩ := h.1.of_length_lt (show (unfolding (next seen) n y).length < m by omega)
      rw [hq]
      obtain ⟨hr, he⟩ := ih h.2 (by omega)
      exact ⟨⟨hn, hr⟩, by rw [he]⟩

end ReaverOS.Foundation.Unfolding
