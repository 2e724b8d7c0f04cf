import Mathlib.Data.List.Chain
import Mathlib.Data.List.Nodup

namespace ReaverOS.Foundation.LinkedQueue

open Function List

variable {α : Type*}

/-- An intrusive queue with a head and a tail pointer holds `xs`. The link of its last node is not
looked at, and the tail of an empty queue is not either. -/
structure Represents (next : α → Option α) (head tail : Option α) (xs : List α) : Prop where
  head_eq : head = xs.head?
  tail_eq : xs ≠ [] → tail = xs.getLast?
  links : xs.IsChain fun a b ↦ next a = some b

variable {next : α → Option α} {head tail : Option α} {x y : α} {xs : List α}

theorem represents_nil (nx : α → Option α) (t : Option α) : Represents nx none t [] :=
  ⟨rfl, fun h ↦ absurd rfl h, List.IsChain.nil⟩

theorem represents_singleton (nx : α → Option α) (x : α) : Represents nx (some x) (some x) [x] :=
  ⟨rfl, fun _ ↦ rfl, List.IsChain.singleton x⟩

theorem Represents.eq_nil (h : Represents next none tail xs) : xs = [] :=
  head?_eq_none_iff.mp h.head_eq.symm

theorem Represents.eq_cons (h : Represents next (some x) tail xs) : ∃ ys, xs = x :: ys :=
  head?_eq_some_iff.mp h.head_eq.symm

theorem Represents.pop (h : Represents next head tail (x :: xs)) (hla : xs = [] → next x = none) :
  Represents next (next x) tail xs := by
  cases xs with
  | nil =>
    rw [hla rfl]
    exact represents_nil next tail
  | cons y ys =>
    obtain ⟨hli, hl⟩ := isChain_cons_cons.mp h.links
    exact ⟨hli, fun _ ↦ h.tail_eq (cons_ne_nil _ _), hl⟩

theorem reflTransGen_of_isChain {r : α → α → Prop} (h : (x :: xs).IsChain r) (hy : y ∈ x :: xs) :
  Relation.ReflTransGen r x y := by
  induction xs generalizing x with
  | nil =>
    rw [mem_singleton.mp hy]
  | cons z zs ih =>
    obtain ⟨hz, hs⟩ := isChain_cons_cons.mp h
    rcases mem_cons.mp hy with rfl | hy
    · exact Relation.ReflTransGen.refl
    · exact Relation.ReflTransGen.head hz (ih hs hy)

theorem Represents.reaches (h : Represents next head tail xs) (hx : x ∈ xs) :
  ∃ u, head = some u ∧ Relation.ReflTransGen (fun a b ↦ next a = some b) u x := by
  cases xs with
  | nil => cases hx
  | cons u l => exact ⟨u, h.head_eq, reflTransGen_of_isChain h.links hx⟩

theorem Represents.congr {next' : α → Option α} (h : Represents next head tail xs)
  (hn : ∀ x ∈ xs, next' x = next x) : Represents next' head tail xs := by
  refine ⟨h.head_eq, h.tail_eq, h.links.imp_of_mem_imp fun a b ha _ hab ↦ ?_⟩
  rwa [hn a ha]

def Terminated (next : α → Option α) (xs : List α) : Prop :=
  ∀ x, xs.getLast? = some x → next x = none

theorem Terminated.congr {next' : α → Option α} (h : Terminated next xs)
  (hn : ∀ x ∈ xs, next' x = next x) : Terminated next' xs :=
  fun x hx ↦ (hn x (mem_of_getLast? hx)).trans (h x hx)

theorem Terminated.pop (h : Terminated next (x :: xs)) : Terminated next xs := by
  intro y hy
  cases xs with
  | nil => cases hy
  | cons z zs => exact h y (by rwa [getLast?_cons_cons])

theorem Terminated.concat (xs : List α) (h : next x = none) : Terminated next (xs ++ [x]) := by
  intro y hy
  rw [getLast?_append, getLast?_singleton, Option.some_or] at hy
  cases hy
  exact h

variable [DecidableEq α]

theorem Represents.frame (h : Represents next head tail xs) (hy : y ∉ xs) (v : Option α) :
  Represents (update next y v) head tail xs := by
  refine h.congr fun x hx ↦ update_of_ne ?_ ..
  rintro rfl
  exact hy hx

theorem Represents.push (h : Represents next head (some y) xs) (hne : xs ≠ []) (hn : xs.Nodup) :
  Represents (update next y (some x)) head (some x) (xs ++ [x]) := by
  have hl : xs.getLast? = some y := (h.tail_eq hne).symm
  obtain ⟨ys, rfl⟩ := getLast?_eq_some_iff.mp hl
  refine ⟨?_, fun _ ↦ by simp, ?_⟩
  · rw [h.head_eq, head?_append_of_ne_nil _ hne]
  · have hy : y ∉ ys := fun hm ↦ (nodup_append.mp hn).2.2 y hm y (mem_singleton_self y) rfl
    have ho (a : α) (ha : a ∈ ys) : update next y (some x) a = next a := by
      have hne : a ≠ y := fun h ↦ hy (h ▸ ha)
      exact update_of_ne hne ..
    obtain ⟨hs, -, hj⟩ := isChain_append.mp h.links
    refine isChain_append.mpr ⟨isChain_append.mpr ⟨?_, List.IsChain.singleton y, ?_⟩,
      List.IsChain.singleton x, ?_⟩
    · exact hs.imp_of_mem_imp fun a b ha _ hab ↦ by rwa [ho a ha]
    · intro a ha b hb
      rw [ho a (mem_of_mem_getLast? ha)]
      exact hj a ha b hb
    · intro a ha b hb
      simp only [getLast?_append, getLast?_singleton, Option.some_or,
        Option.mem_some_iff, head?_cons] at ha hb
      rw [← ha, ← hb, update_self]

end ReaverOS.Foundation.LinkedQueue
