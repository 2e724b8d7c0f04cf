import Mathlib.Logic.Function.Basic

namespace ReaverOS.Foundation

open Function

abbrev Placement (π ρ : Type*) := π → ρ → Prop

namespace Placement

variable {π ρ : Type*} {c : Placement π ρ} {loc : ρ → Option π} {x : π} {r : ρ}

def put (c : Placement π ρ) (x : π) (r : ρ) : Placement π ρ := fun y q ↦ c y q ∨ y = x ∧ q = r

def take (c : Placement π ρ) (x : π) (r : ρ) : Placement π ρ := fun y q ↦ c y q ∧ ¬ (y = x ∧ q = r)

theorem eq_put {c' : Placement π ρ} (h : ∀ y ≠ x, c' y = c y)
  (hx : ∀ q, c' x q ↔ c x q ∨ q = r) : c' = c.put x r := by
  funext y q
  rcases eq_or_ne y x with rfl | hy
  · simp [put, hx]
  · simp [put, h y hy, hy]

theorem eq_take {c' : Placement π ρ} (h : ∀ y ≠ x, c' y = c y)
  (hx : ∀ q, c' x q ↔ c x q ∧ q ≠ r) : c' = c.take x r := by
  funext y q
  rcases eq_or_ne y x with rfl | hy
  · simp [take, hx]
  · simp [take, h y hy, hy]

def Located (c : Placement π ρ) (loc : ρ → Option π) : Prop := ∀ x r, c x r ↔ loc r = some x

theorem Located.existsUnique (h : Located c loc) (hr : loc r ≠ none) : ∃! x, c x r := by
  obtain ⟨x, hx⟩ := Option.ne_none_iff_exists'.mp hr
  refine ⟨x, (h x r).mpr hx, fun y hy ↦ ?_⟩
  exact Option.some.inj (((h y r).mp hy).symm.trans hx)

variable [DecidableEq ρ]

theorem Located.put (h : Located c loc) (hr : loc r = none) :
  Located (put c x r) (update loc r (some x)) := by
  intro y q
  rcases eq_or_ne q r with rfl | hq
  · rw [update_self, Placement.put, h y q, hr, Option.some.injEq]
    exact ⟨fun hy ↦ hy.elim (fun hy ↦ nomatch hy) fun hy ↦ hy.1.symm, fun hy ↦ .inr ⟨hy.symm, rfl⟩⟩
  · rw [update_of_ne hq, Placement.put, h y q]
    exact ⟨fun hy ↦ hy.elim id fun hy ↦ absurd hy.2 hq, .inl⟩

theorem Located.take (h : Located c loc) (hr : c x r) :
  Located (take c x r) (update loc r none) := by
  intro y q
  rcases eq_or_ne q r with rfl | hq
  · rw [update_self, Placement.take, h y q]
    refine ⟨fun ⟨hy, hne⟩ ↦ ?_, fun hy ↦ nomatch hy⟩
    have hx := (h x q).mp hr
    exact absurd ⟨(Option.some.inj (hy.symm.trans hx)), rfl⟩ hne
  · rw [update_of_ne hq, Placement.take, h y q]
    exact ⟨fun hy ↦ hy.1, fun hy ↦ ⟨hy, fun he ↦ hq he.2⟩⟩

theorem Located.move {y : π} (h : Located c loc) (hr : c x r) :
  Located ((c.take x r).put y r) (update loc r (some y)) := by
  have hm := (h.take hr).put (x := y) (update_self ..)
  rwa [update_idem] at hm

end Placement

end ReaverOS.Foundation
