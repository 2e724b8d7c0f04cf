import ReaverOS.Foundation.LinkedQueue

namespace ReaverOS.Kernel

open List

open Function Foundation.LinkedQueue

structure Fifo (α : Type*) where
  head : Option α := none
  tail : Option α := none
  size : ℕ := 0
  deriving DecidableEq

namespace Fifo

variable {α : Type*}

def empty (f : Fifo α) : Bool := f.head.isNone

def pushBack [DecidableEq α] (f : Fifo α) (next : α → Option α) (x : α) :
  Option ((α → Option α) × Fifo α) :=
  match f.head with
  | none => some (update next x none, ⟨some x, some x, f.size + 1⟩)
  | some _ =>
    match f.tail with
    | none => none
    | some last => some (update (update next last (some x)) x none, ⟨f.head, some x, f.size + 1⟩)

def popFront (f : Fifo α) (next : α → Option α) : Option α × Fifo α :=
  match f.head with
  | none => (none, f)
  | some x => (some x, ⟨next x, f.tail, f.size - 1⟩)

structure Holds (next : α → Option α) (f : Fifo α) (xs : List α) : Prop where
  represents : Represents next f.head f.tail xs
  terminated : Terminated next xs
  nodup : xs.Nodup
  size : f.size = xs.length

variable {f : Fifo α} {next next' : α → Option α} {x : α} {xs : List α}

theorem holds_empty (nx : α → Option α) : Holds nx {} [] := by
  refine ⟨represents_nil nx none, ?_, nodup_nil, rfl⟩
  intro x hx
  cases hx

theorem Holds.congr (h : Holds next f xs) (hn : ∀ x ∈ xs, next' x = next x) : Holds next' f xs :=
  ⟨h.represents.congr hn, h.terminated.congr hn, h.nodup, h.size⟩

theorem Holds.empty_iff (h : Holds next f xs) : f.empty = true ↔ xs = [] := by
  rw [empty, h.represents.head_eq, Option.isNone_iff_eq_none, head?_eq_none_iff]

theorem Holds.popFront (h : Holds next f (x :: xs)) :
  ∃ f', f.popFront next = (some x, f') ∧ Holds next f' xs := by
  have hh : f.head = some x := h.represents.head_eq
  refine ⟨⟨next x, f.tail, f.size - 1⟩, by rw [Fifo.popFront, hh], ?_, ?_, ?_, ?_⟩
  · apply h.represents.pop
    rintro rfl
    exact h.terminated x rfl
  · exact h.terminated.pop
  · exact h.nodup.of_cons
  · rw [h.size]
    rfl

variable [DecidableEq α]

theorem Holds.pushBack (h : Holds next f xs) (hx : x ∉ xs) :
  ∃ next' f', f.pushBack next x = some (next', f') ∧ Holds next' f' (xs ++ [x]) ∧
  ∀ y, y ∉ xs → y ≠ x → next' y = next y := by
  cases hh : f.head with
  | none =>
    have hn : xs = [] := by
      have hr := h.represents
      rw [hh] at hr
      exact hr.eq_nil
    subst hn
    refine ⟨_, _, by rw [Fifo.pushBack, hh], ⟨represents_singleton _ x, ?_, ?_, ?_⟩, ?_⟩
    · exact Terminated.concat [] (update_self ..)
    · exact nodup_singleton x
    · rw [h.size]
      rfl
    · intro y _ hy
      exact update_of_ne hy ..
  | some a =>
    have hne : xs ≠ [] := by
      intro hn
      have hr := h.represents.head_eq
      rw [hh, hn] at hr
      cases hr
    obtain ⟨last, hl⟩ : ∃ last, f.tail = some last := by
      rw [h.represents.tail_eq hne]
      exact ⟨_, getLast?_eq_getLast_of_ne_nil hne⟩
    have hm : last ∈ xs := by
      apply mem_of_getLast?
      rw [← h.represents.tail_eq hne, hl]
    have hr := h.represents
    rw [hl] at hr
    have hs : update (update next last (some x)) x none =
      update (update next x none) last (some x) := by
      apply update_comm
      rintro rfl
      exact hx hm
    refine ⟨_, _, by rw [Fifo.pushBack, hh, hl], ⟨?_, ?_, ?_, ?_⟩, ?_⟩
    · rw [hs, ← hh]
      exact (hr.frame hx none).push hne h.nodup
    · exact Terminated.concat xs (update_self ..)
    · rw [← concat_eq_append]
      exact h.nodup.concat hx
    · rw [h.size, length_append]
      rfl
    · intro y hy hyx
      rw [update_of_ne hyx, update_of_ne]
      rintro rfl
      exact hy hm

end Fifo

end ReaverOS.Kernel
