import Mathlib.Data.Char
import Mathlib.Data.List.Infix
import Mathlib.Data.List.Lex

namespace ReaverOS.Bootinit

abbrev Name := List Char

namespace StringView

def traitsCompare : Name → Name → ℕ → ℤ
  | c :: s, d :: t, n + 1 =>
    if c.toNat < d.toNat then -1 else if d.toNat < c.toNat then 1 else traitsCompare s t n
  | _, _, _ => 0

/-- `basic_string_view::compare`: behind a common beginning only the emptiness of the two counts,
not their lengths. -/
def compare (s t : Name) : ℤ :=
  let rlen := if s.length < t.length then s.length else t.length
  let traitsResult := traitsCompare s t rlen
  if traitsResult = 0 then (if s.length = 0 then 0 else 1) - (if t.length = 0 then 0 else 1)
  else traitsResult

def equal (s t : Name) : Bool :=
  compare s t = 0

def Lexicographic (s t : Name) : Prop :=
  (compare s t < 0 ↔ s < t) ∧ (compare s t = 0 ↔ s = t) ∧ (0 < compare s t ↔ t < s)

theorem traitsCompare_cases (s t : Name) :
  (traitsCompare s t (if s.length < t.length then s.length else t.length) = 0 ∧
  (s <+: t ∨ t <+: s)) ∨
  ((traitsCompare s t (if s.length < t.length then s.length else t.length) = -1 ∧ s < t ∨
  traitsCompare s t (if s.length < t.length then s.length else t.length) = 1 ∧ t < s) ∧
  ¬ s <+: t ∧ ¬ t <+: s) := by
  induction s generalizing t with
  | nil => exact .inl ⟨by cases t <;> rfl, .inl (List.nil_prefix)⟩
  | cons c s ih =>
    cases t with
    | nil => exact .inl ⟨rfl, .inr (List.nil_prefix)⟩
    | cons d t =>
      have hl : (if (c :: s).length < (d :: t).length then (c :: s).length
          else (d :: t).length) = (if s.length < t.length then s.length else t.length) + 1 := by
        simp only [List.length_cons]
        split_ifs <;> omega
      rw [hl, traitsCompare, List.cons_prefix_cons, List.cons_prefix_cons,
        List.cons_lt_cons_iff, List.cons_lt_cons_iff]
      rcases lt_trichotomy c d with hlt | rfl | hgt
      · have hn : c.toNat < d.toNat := UInt32.lt_iff_toNat_lt.mp hlt
        simp [hn, hlt, hlt.ne, hlt.ne']
      · simpa using ih t
      · have hn : d.toNat < c.toNat := UInt32.lt_iff_toNat_lt.mp hgt
        simp [hn, hn.not_gt, hgt, hgt.ne, hgt.ne', hgt.not_gt]

theorem compare_lexicographic_iff (s t : Name) :
    Lexicographic s t ↔ s = t ∨ s = [] ∨ t = [] ∨ ¬ s <+: t ∧ ¬ t <+: s := by
  rcases traitsCompare_cases s t with ⟨hz, hp⟩ | ⟨hs, hn⟩
  · rw [Lexicographic, compare, hz]
    cases s with
    | nil => cases t <;> simp
    | cons c s =>
      cases t with
      | nil => simp
      | cons d t =>
        rcases eq_or_ne (c :: s) (d :: t) with he | hne
        · simp [he]
        · refine iff_of_false (fun h ↦ hne (h.2.1.mp (by simp))) ?_
          simp only [hne, reduceCtorEq, false_or]
          exact fun h ↦ hp.elim h.1 h.2
  · refine iff_of_true ?_ (.inr (.inr (.inr hn)))
    have hne : s ≠ t := fun he ↦ hn.1 (he ▸ List.prefix_rfl)
    rw [Lexicographic, compare]
    rcases hs with ⟨hr, hlt⟩ | ⟨hr, hlt⟩
    · simp [hr, hlt, hne, hlt.not_gt]
    · simp [hr, hlt, hne, hlt.not_gt]

theorem equal_iff (s t : Name) : equal s t = true ↔ (s = [] ↔ t = []) ∧ (s <+: t ∨ t <+: s) := by
  rw [equal, decide_eq_true_iff, compare]
  rcases traitsCompare_cases s t with ⟨hz, hp⟩ | ⟨hs, hn⟩
  · simp only [hz, hp, and_true, if_true, List.length_eq_zero_iff]
    split_ifs <;> simp_all
  · rcases hs with ⟨hr, -⟩ | ⟨hr, -⟩ <;> simp [hr, hn]

theorem equal_not_equivalence : ¬ Lexicographic ['a'] ['a', 'b'] ∧
    ¬ Equivalence fun s t : List Char ↦ equal s t = true := by
  refine ⟨fun h ↦ absurd (h.2.1.mp (by decide)) (by decide), fun h ↦ ?_⟩
  have ht : equal ['a', 'b'] ['a', 'c'] = true := h.trans (y := ['a']) (by decide) (by decide)
  exact absurd ht (by decide)

end StringView

end ReaverOS.Bootinit
