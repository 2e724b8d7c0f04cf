import Mathlib.Data.List.Basic

namespace ReaverOS.Foundation.Buffers

open Function List

variable {α : Type} {b b' : ℕ → α} {i j k n low high count : ℕ} {e f : α} {pr p : List α}

def firsts (b : ℕ → α) (n : ℕ) : List α := (List.range n).map b

def shiftDown : (count low : ℕ) → (ℕ → α) → ℕ → α
  | 0, _, b => b
  | count + 1, low, b => shiftDown count (low + 1) (update b low (b (low + 1)))

def shiftUp : (count high : ℕ) → (ℕ → α) → ℕ → α
  | 0, _, b => b
  | count + 1, high, b => shiftUp count (high - 1) (update b high (b (high - 2)))

@[simp] theorem length_firsts : (firsts b n).length = n := by simp [firsts]

theorem getElem?_firsts (h : j < n) : (firsts b n)[j]? = some (b j) := by
  rw [firsts, getElem?_map, getElem?_range h, Option.map_some]

theorem firsts_congr (h : ∀ j < n, b j = b' j) : firsts b n = firsts b' n :=
  map_congr_left fun j hj ↦ h j (mem_range.mp hj)

theorem mem_firsts : e ∈ firsts b n ↔ ∃ j < n, b j = e := by
  simp [firsts]

theorem pairwise_firsts {r : α → α → Prop} (h : (firsts b n).Pairwise r) (hi : i < j)
  (hj : j < n) : r (b i) (b j) := by
  have hl : (firsts b n).length = n := length_firsts
  have hp := pairwise_iff_getElem.mp h i j (by omega) (by omega) hi
  simpa only [firsts, getElem_map, getElem_range] using hp

theorem firsts_add (b : ℕ → α) (i k : ℕ) :
  firsts b (i + k) = firsts b i ++ firsts (fun j ↦ b (i + j)) k := by
  rw [firsts, range_add, map_append, map_map]
  rfl

theorem firsts_succ (b : ℕ → α) (n : ℕ) :
  firsts b (n + 1) = b 0 :: firsts (fun j ↦ b (j + 1)) n := by
  rw [firsts, range_succ_eq_map, map_cons, map_map]
  rfl

theorem firsts_eq_append_cons (h : firsts b n = pr ++ e :: p) :
  pr = firsts b pr.length ∧ e = b pr.length ∧
  p = firsts (fun j ↦ b (pr.length + (j + 1))) p.length ∧ n = pr.length + (p.length + 1) := by
  have hn : n = pr.length + (p.length + 1) := by
    simpa using congrArg List.length h
  subst hn
  rw [firsts_add, firsts_succ] at h
  obtain ⟨hpr, hr⟩ := append_inj h length_firsts
  obtain ⟨he, hp⟩ := List.cons.inj hr
  exact ⟨hpr.symm, he.symm, hp.symm, rfl⟩

theorem firsts_set (h : firsts b n = pr ++ e :: p) (f : α) :
  firsts (update b pr.length f) n = pr ++ f :: p := by
  obtain ⟨hpr, -, hp, rfl⟩ := firsts_eq_append_cons h
  rw [firsts_add, firsts_succ]
  congr 1
  · rw [firsts_congr fun j hj ↦ update_of_ne (Nat.ne_of_lt hj) _ _]
    exact hpr.symm
  · rw [Nat.add_zero, update_self]
    refine congrArg (f :: ·) ((firsts_congr fun j _ ↦ ?_).trans hp.symm)
    exact update_of_ne (by omega) _ _

theorem shiftDown_apply (c l : ℕ) (b : ℕ → α) (j : ℕ) :
  shiftDown c l b j = if l ≤ j ∧ j < l + c then b (j + 1) else b j := by
  induction c generalizing l b with
  | zero => rw [shiftDown, if_neg (by omega)]
  | succ c ih =>
    rw [shiftDown, ih]
    obtain rfl | hne := eq_or_ne j l
    · rw [if_neg (by omega), if_pos (by omega), update_self]
    · rw [update_of_ne hne]
      by_cases hin : l ≤ j ∧ j < l + (c + 1)
      · rw [if_pos (by omega), if_pos hin, update_of_ne (by omega)]
      · rw [if_neg (by omega), if_neg hin]

theorem shiftUp_apply (hc : count ≤ high) (b : ℕ → α) (j : ℕ) :
  shiftUp count high b j = if high < j + count ∧ j ≤ high then b (j - 2) else b j := by
  induction count generalizing high b with
  | zero => rw [shiftUp, if_neg (by omega)]
  | succ count ih =>
    rw [shiftUp, ih (by omega)]
    obtain rfl | hne := eq_or_ne j high
    · rw [if_neg (by omega), if_pos (by omega), update_self]
    · rw [update_of_ne hne]
      by_cases hin : high < j + (count + 1) ∧ j ≤ high
      · rw [if_pos (by omega), if_pos hin, update_of_ne (by omega)]
      · rw [if_neg (by omega), if_neg hin]

theorem firsts_shiftDown (h : firsts b n = pr ++ e :: p) :
  firsts (shiftDown p.length pr.length b) (n - 1) = pr ++ p := by
  obtain ⟨hpr, -, hp, rfl⟩ := firsts_eq_append_cons h
  rw [Nat.add_succ_sub_one, firsts_add]
  congr 1
  · rw [firsts_congr fun j hj ↦ (shiftDown_apply _ _ b j).trans (if_neg (by omega))]
    exact hpr.symm
  · rw [firsts_congr fun j hj ↦ (shiftDown_apply _ _ b _).trans (if_pos (by omega))]
    exact hp.symm

theorem firsts_shiftUp (h : firsts b n = pr ++ e :: p) (low mid up : α) :
  firsts (update (update (update (shiftUp p.length (n + 1) b) (pr.length + 2) up)
  (pr.length + 1) mid) pr.length low) (n + 2) = pr ++ low :: mid :: up :: p := by
  obtain ⟨hpr, -, hp, rfl⟩ := firsts_eq_append_cons h
  have hs : pr.length + (p.length + 1) + 2 = pr.length + (p.length + 1 + 1 + 1) := by
    omega
  rw [hs, firsts_add, firsts_succ, firsts_succ, firsts_succ]
  congr 1
  · refine (firsts_congr fun j hj ↦ ?_).trans hpr.symm
    rw [update_of_ne (by omega), update_of_ne (by omega), update_of_ne (by omega),
      shiftUp_apply (by omega), if_neg (by omega)]
  · rw [Nat.add_zero pr.length, update_self, Nat.zero_add, update_of_ne (by omega), update_self,
      update_of_ne (by omega), update_of_ne (by omega), update_self]
    refine congrArg (low :: mid :: up :: ·) ((firsts_congr fun j hj ↦ ?_).trans hp.symm)
    rw [update_of_ne (by omega), update_of_ne (by omega), update_of_ne (by omega),
      shiftUp_apply (by omega), if_pos (by omega)]
    rfl

end ReaverOS.Foundation.Buffers
