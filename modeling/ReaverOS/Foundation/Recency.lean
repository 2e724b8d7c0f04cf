import Mathlib.Data.List.Nodup

namespace ReaverOS.Foundation.Recency

open List

variable {α : Type*} [DecidableEq α] {l l' : List α} {x y z : α}

def Before (l : List α) (x y : α) : Prop :=
  l.idxOf x < l.idxOf y

instance (l : List α) (x y : α) : Decidable (Before l x y) :=
  inferInstanceAs (Decidable (_ < _))

def toFront (l : List α) (x : α) : List α :=
  x :: l.erase x

theorem before_cons : Before (z :: l) x y ↔ y ≠ z ∧ (x = z ∨ Before l x y) := by
  unfold Before
  by_cases hy : z = y
  · simp [hy]
  · rw [idxOf_cons_ne _ hy]
    by_cases hx : z = x
    · simp [hx, Ne.symm (hx ▸ hy)]
    · rw [idxOf_cons_ne _ hx]
      simp [Ne.symm hx, Ne.symm hy]

theorem before_append_congr (h : ∀ x y, Before l x y ↔ Before l' x y) (a : List α) :
  Before (a ++ l) x y ↔ Before (a ++ l') x y := by
  induction a with
  | nil => exact h x y
  | cons b a ih => rw [cons_append, cons_append, before_cons, before_cons, ih]

theorem before_erase (hx : x ≠ z) (hy : y ≠ z) : Before (l.erase z) x y ↔ Before l x y := by
  induction l with
  | nil => rfl
  | cons w l ih =>
    by_cases hw : w = z
    · subst hw
      rw [erase_cons_head, before_cons]
      simp [hx, hy]
    · rw [erase_cons_tail (by simpa using hw), before_cons, before_cons, ih]

theorem before_toFront : Before (toFront l z) x y ↔ Before (z :: l) x y := by
  rw [toFront, before_cons, before_cons]
  apply and_congr_right
  intro hy
  by_cases hx : x = z
  · simp [hx]
  · rw [before_erase hx hy]

theorem before_foldl_toFront (ms l : List α) :
  Before (ms.foldl toFront l) x y ↔ Before (ms.reverse ++ l) x y := by
  induction ms generalizing l with
  | nil => rfl
  | cons m ms ih =>
    rw [foldl_cons, ih, reverse_cons, List.append_assoc]
    exact before_append_congr (fun _ _ ↦ before_toFront) _

theorem mem_toFront : x ∈ toFront l z ↔ x = z ∨ x ∈ l := by
  rw [toFront, mem_cons]
  by_cases hx : x = z
  · simp [hx]
  · simp [hx, mem_erase_of_ne hx]

theorem mem_foldl_toFront (ms l : List α) : x ∈ ms.foldl toFront l ↔ x ∈ ms ∨ x ∈ l := by
  induction ms generalizing l with
  | nil => simp
  | cons m ms ih =>
    rw [foldl_cons, ih, mem_toFront, mem_cons, or_left_comm, or_assoc]

theorem nodup_toFront (h : l.Nodup) (z : α) : (toFront l z).Nodup :=
  nodup_cons.mpr ⟨h.not_mem_erase, h.erase z⟩

theorem nodup_foldl_toFront (ms : List α) (h : l.Nodup) : (ms.foldl toFront l).Nodup := by
  induction ms generalizing l with
  | nil => exact h
  | cons m ms ih => exact ih (nodup_toFront h m)

end ReaverOS.Foundation.Recency
