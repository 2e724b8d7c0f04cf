import Mathlib.Algebra.Order.Group.Nat
import Mathlib.Logic.Equiv.Basic

namespace ReaverOS.Foundation.BinaryHeap

open Function

variable {α : Type*} {less : α → α → Bool} {n k : ℕ} {f : ℕ → α}

structure StrictWeak (less : α → α → Bool) : Prop where
  asymm : ∀ a b, less a b → ¬ less b a
  trans : ∀ a b c, ¬ less a b → ¬ less b c → ¬ less a c

theorem StrictWeak.irrefl (h : StrictWeak less) (a : α) : ¬ less a a :=
  fun ha ↦ h.asymm a a ha ha

theorem StrictWeak.lt_of_lt_of_le (h : StrictWeak less) {a b c : α} (hb : less a b)
  (hc : ¬ less c b) : less a c :=
  Decidable.byContradiction fun ha ↦ h.trans a c b ha hc hb

theorem StrictWeak.lt_of_le_of_lt (h : StrictWeak less) {a b c : α} (hb : ¬ less b a)
  (hbc : less b c) : less a c :=
  Decidable.byContradiction fun ha ↦ h.trans b a c hb ha hbc

theorem StrictWeak.lt_trans (h : StrictWeak less) {a b c : α} (ha : less a b) (hb : less b c) :
  less a c :=
  h.lt_of_lt_of_le ha (h.asymm b c hb)

def Ordered (less : α → α → Bool) (n : ℕ) (f : ℕ → α) : Prop :=
  ∀ i, 2 ≤ i → i ≤ n → ¬ less (f i) (f (i / 2))

structure Rising (less : α → α → Bool) (n : ℕ) (f : ℕ → α) (k : ℕ) : Prop where
  off : ∀ i, 2 ≤ i → i ≤ n → i ≠ k → ¬ less (f i) (f (i / 2))
  across : ∀ i, i ≤ n → i / 2 = k → 2 ≤ k → ¬ less (f i) (f (k / 2))

structure Sinking (less : α → α → Bool) (n : ℕ) (f : ℕ → α) (k : ℕ) : Prop where
  off : ∀ i, 2 ≤ i → i ≤ n → i / 2 ≠ k → ¬ less (f i) (f (i / 2))
  across : ∀ i, i ≤ n → i / 2 = k → 2 ≤ k → ¬ less (f i) (f (k / 2))

theorem Ordered.min (hl : StrictWeak less) (h : Ordered less n f) {i : ℕ} (hi : 1 ≤ i)
  (hn : i ≤ n) : ¬ less (f i) (f 1) := by
  induction i using Nat.strong_induction_on with
  | _ i ih =>
    rcases hi.eq_or_lt with rfl | hi
    · exact hl.irrefl _
    · exact hl.trans _ _ _ (h i hi hn) (ih (i / 2) (by omega) (by omega) (by omega))

theorem Ordered.rising (h : Ordered less n f) (x : α) :
  Rising less (n + 1) (update f (n + 1) x) (n + 1) := by
  refine ⟨fun i hi hin hn ↦ ?_, fun i hin hk hk2 ↦ by omega⟩
  rw [update_of_ne hn, update_of_ne (by omega)]
  exact h i hi (by omega)

theorem Rising.ordered (h : Rising less n f k) (hk : 2 ≤ k → ¬ less (f k) (f (k / 2))) :
  Ordered less n f := by
  intro i hi hn
  rcases eq_or_ne i k with rfl | hne
  · exact hk hi
  · exact h.off i hi hn hne

theorem swap_of_ne {a b i : ℕ} (ha : i ≠ a) (hb : i ≠ b) : (f ∘ Equiv.swap a b) i = f i :=
  congrArg f (Equiv.swap_apply_of_ne_of_ne ha hb)

theorem swap_left (a b : ℕ) : (f ∘ Equiv.swap a b) a = f b :=
  congrArg f (Equiv.swap_apply_left a b)

theorem swap_right (a b : ℕ) : (f ∘ Equiv.swap a b) b = f a :=
  congrArg f (Equiv.swap_apply_right a b)

theorem Rising.swap (hl : StrictWeak less) (h : Rising less n f k) (hk : 2 ≤ k) (hkn : k ≤ n)
  (hlt : less (f k) (f (k / 2))) : Rising less n (f ∘ Equiv.swap (k / 2) k) (k / 2) := by
  have hup (hk2 : 2 ≤ k / 2) : ¬ less (f (k / 2)) (f (k / 2 / 2)) :=
    h.off (k / 2) hk2 (by omega) (by omega)
  refine ⟨fun i hi hin hn ↦ ?_, fun i hin hki hk2 ↦ ?_⟩
  · rcases eq_or_ne i k with rfl | hik
    · rw [swap_left, swap_right]
      exact hl.asymm _ _ hlt
    rw [swap_of_ne hn hik]
    rcases eq_or_ne (i / 2) (k / 2) with hs | hs
    · rw [hs, swap_left]
      have ho := h.off i hi hin hik
      rw [hs] at ho
      exact hl.trans _ _ _ ho (hl.asymm _ _ hlt)
    · rcases eq_or_ne (i / 2) k with hc | hc
      · rw [hc, swap_right]
        exact h.across i hin hc hk
      · rw [swap_of_ne hs hc]
        exact h.off i hi hin hik
  · rw [swap_of_ne (by omega : k / 2 / 2 ≠ k / 2) (by omega)]
    rcases eq_or_ne i k with rfl | hik
    · rw [swap_right]
      exact hup hk2
    · rw [swap_of_ne (by omega) hik]
      have ho := h.off i (by omega) hin hik
      rw [hki] at ho
      exact hl.trans _ _ _ ho (hup hk2)

theorem Ordered.sinking (h : Ordered less (n + 1) f) (x : α) : Sinking less n (update f 1 x) 1 := by
  refine ⟨fun i hi hin hn ↦ ?_, fun i hin hk hk2 ↦ by omega⟩
  rw [update_of_ne (by omega), update_of_ne hn]
  exact h i hi (by omega)

theorem Sinking.ordered (h : Sinking less n f k)
  (hk : ∀ i, 2 ≤ i → i ≤ n → i / 2 = k → ¬ less (f i) (f k)) : Ordered less n f := by
  intro i hi hn
  by_cases hik : i / 2 = k
  · rw [hik]
    exact hk i hi hn hik
  · exact h.off i hi hn hik

theorem Sinking.swap (hle : StrictWeak less) (h : Sinking less n f k) {c : ℕ} (hc : 2 ≤ c)
  (hcn : c ≤ n) (hck : c / 2 = k) (hlt : less (f c) (f k))
  (hl : ∀ i, 2 ≤ i → i ≤ n → i / 2 = k → ¬ less (f i) (f c)) :
  Sinking less n (f ∘ Equiv.swap k c) c := by
  refine ⟨fun i hi hin hn ↦ ?_, fun i hin hic _ ↦ ?_⟩
  · rcases eq_or_ne i c with rfl | hic
    · rw [hck, swap_left, swap_right]
      exact hle.asymm _ _ hlt
    rcases eq_or_ne (i / 2) k with hik | hik
    · rw [hik, swap_left, swap_of_ne (by omega) hic]
      exact hl i hi hin hik
    · rw [swap_of_ne hik hn]
      rcases eq_or_ne i k with rfl | hik'
      · rw [swap_left]
        exact h.across c hcn hck hi
      · rw [swap_of_ne hik' hic]
        exact h.off i hi hin hik
  · rw [hck, swap_left, swap_of_ne (by omega) (by omega)]
    have ho := h.off i (by omega) hin (by omega)
    rwa [hic] at ho

end ReaverOS.Foundation.BinaryHeap
