import Mathlib.Data.List.Basic
import Mathlib.Data.Nat.GCD.Basic

namespace ReaverOS.Rosestd.Rotate

open List

variable {α : Type}

inductive Category
  | forward
  | randomAccess
  deriving DecidableEq

def iterSwap (l : List α) (i j : ℕ) : List α :=
  match l[i]?, l[j]? with
  | some a, some b => (l.set i b).set j a
  | _, _ => l

def swapLoop (origMid last : ℕ) :
  (rounds : ℕ) → List α → (first middle : ℕ) → Option (List α × ℕ × ℕ)
  | 0, _, _, _ => none
  | rounds + 1, l, first, middle =>
    let l := iterSwap l first middle
    let first := first + 1
    let middle := middle + 1
    if first = origMid then some (l, first, middle)
    else if middle = last then some (l, first, origMid)
    else swapLoop origMid last rounds l first middle

def followCycle (total tail first currLoc : ℕ) : (fuel : ℕ) → List α → (curr : ℕ) → Option (List α)
  | 0, _, _ => none
  | fuel + 1, l, curr =>
    let target := if curr + tail ≥ total then curr + tail - total else curr + tail
    if curr = target then some l
    else followCycle total tail first currLoc fuel (iterSwap l (first + currLoc) (first + target))
      target

def rotateRandomAccess (fuel : ℕ) (l : List α) (first middle last : ℕ) : Option (List α × ℕ) :=
  let total := last - first
  let tail := last - middle
  let divisor := Nat.gcd total tail
  ((List.range divisor).foldlM (fun l i ↦ followCycle total tail first i fuel l i) l).map fun l ↦
    (l, first + (last - middle))

/-- `rotate`, with the sequence and the iterator it returns. A call that takes more rounds or
nested calls than `fuel` is `none`. -/
def rotate (category : Category) : (fuel : ℕ) → List α → (first middle last : ℕ) →
  Option (List α × ℕ)
  | 0, _, _, _, _ => none
  | fuel + 1, l, first, middle, last =>
    if first = middle then some (l, last)
    else if middle = last then some (l, first)
    else match category with
      | .randomAccess => rotateRandomAccess fuel l first middle last
      | .forward =>
        (swapLoop middle last (middle - first) l first middle).bind fun s ↦
          (rotate category fuel s.1 s.2.1 s.2.2 last).map fun r ↦ (r.1, s.2.1)

def rotateBlocks (category : Category) (fuel : ℕ) (pre a b post : List α) : Option (List α × ℕ) :=
  rotate category fuel (pre ++ (a ++ (b ++ post))) pre.length (pre.length + a.length)
    (pre.length + a.length + b.length)

def Rotates (category : Category) (pre a b post : List α) : Prop :=
  ∃ fuel, rotateBlocks category fuel pre a b post =
    some (pre ++ (b ++ (a ++ post)), pre.length + b.length)

theorem iterSwap_append (p q r : List α) (a b : α) :
  iterSwap (p ++ a :: (q ++ b :: r)) p.length (p.length + 1 + q.length) =
  p ++ b :: (q ++ a :: r) := by
  have hj : p.length + 1 + q.length - p.length = q.length + 1 := by omega
  have hn : ¬ p.length + 1 + q.length < p.length := by omega
  simp [iterSwap, getElem?_append, set_append, hj, hn]

/-- No place is its own target, so the loop does not end. -/
theorem followCycle_eq_none {t tail : ℕ} (ht : 0 < tail) (h : tail < t)
  (x c n : ℕ) (l : List α) (cu : ℕ) : followCycle t tail x c n l cu = none := by
  induction n generalizing l cu with
  | zero => rfl
  | succ n ih =>
    have hne : cu ≠ if cu + tail ≥ t then cu + tail - t else cu + tail := by
      split <;> omega
    rw [followCycle, if_neg hne, ih]

theorem rotateRandomAccess_eq_none {x m y : ℕ} (hf : x < m) (hm : m < y) (k : ℕ) (l : List α) :
  rotateRandomAccess k l x m y = none := by
  have hp : 0 < Nat.gcd (y - x) (y - m) := Nat.gcd_pos_of_pos_left _ (by omega)
  obtain ⟨n, hn⟩ := Nat.exists_eq_succ_of_ne_zero (Nat.pos_iff_ne_zero.mp hp)
  rw [rotateRandomAccess, hn, range_succ_eq_map, foldlM_cons,
    followCycle_eq_none (by omega) (by omega)]
  rfl

theorem swapLoop_append {pr a m b p l : List α} {origMid last u mi n : ℕ}
  (ha : a ≠ []) (hb : b ≠ []) (hl : l = pr ++ (a ++ (m ++ (b ++ p))))
  (hf : u = pr.length) (hmi : origMid = u + a.length)
  (hm : mi = origMid + m.length) (h : last = mi + b.length) (hr : a.length ≤ n) :
  (∃ b₁ b₂, b = b₁ ++ b₂ ∧ b₁.length = a.length ∧ swapLoop origMid last n l u mi =
  some (pr ++ (b₁ ++ (m ++ (a ++ (b₂ ++ p)))), origMid, mi + a.length)) ∨
  (∃ a₁ a₂, a = a₁ ++ a₂ ∧ a₁.length = b.length ∧ a₂ ≠ [] ∧ swapLoop origMid last n l u mi =
  some (pr ++ (b ++ (a₂ ++ (m ++ (a₁ ++ p)))), u + b.length, origMid)) := by
  induction n generalizing pr a m b l u mi with
  | zero => simp_all
  | succ n ih =>
    obtain ⟨x, a, rfl⟩ := exists_cons_of_ne_nil ha
    obtain ⟨y, b, rfl⟩ := exists_cons_of_ne_nil hb
    have hsw : iterSwap l u mi = pr ++ y :: (a ++ m ++ x :: (b ++ p)) := by
      have hp : mi = pr.length + 1 + (a ++ m).length := by
        simp only [length_cons, length_append] at hmi ⊢
        omega
      rw [hp, hf, hl]
      simpa using iterSwap_append pr (a ++ m) (b ++ p) x y
    simp only [length_cons] at hmi h hr
    rw [swapLoop, hsw]
    rcases eq_or_ne a [] with rfl | ha'
    · refine .inl ⟨[y], b, rfl, rfl, ?_⟩
      rw [length_nil, zero_add] at hmi
      simp [hmi]
    · have hap := length_pos_iff.mpr ha'
      have hn : u + 1 ≠ origMid := by omega
      rcases eq_or_ne b [] with rfl | hb'
      · refine .inr ⟨[x], a, rfl, rfl, ha', ?_⟩
        have he : mi + 1 = last := by
          rw [length_nil] at h
          omega
        simp [hn, he]
      · have hbp := length_pos_iff.mpr hb'
        have hgo : mi + 1 ≠ last := by omega
        rw [if_neg hn, if_neg hgo]
        have hno : pr ++ y :: (a ++ m ++ x :: (b ++ p)) =
          (pr ++ [y]) ++ (a ++ ((m ++ [x]) ++ (b ++ p))) := by simp
        have hf' : u + 1 = (pr ++ [y]).length := by simp [hf]
        have hm' : mi + 1 = origMid + (m ++ [x]).length := by
          simp [hm, add_assoc]
        rcases ih ha' hb' hno hf' (by omega) hm' (by omega) (by omega) with
          ⟨b₁, b₂, hs, hle, hru⟩ | ⟨a₁, a₂, hs, hle, hne, hru⟩
        · refine .inl ⟨y :: b₁, b₂, by rw [hs, cons_append], by simp [hle], ?_⟩
          rw [hru]
          simp only [append_assoc, cons_append, nil_append, length_cons]
          congr 3
          omega
        · refine .inr ⟨x :: a₁, a₂, by rw [hs, cons_append], by simp [hle], hne, ?_⟩
          rw [hru]
          simp only [append_assoc, cons_append, nil_append, length_cons]
          congr 3
          omega

theorem rotateBlocks_forward_step (pr p : List α) {a b : List α} (ha : a ≠ []) (hb : b ≠ []) :
  ∃ c a' b' : List α, c ++ (b' ++ a') = b ++ a ∧ c ≠ [] ∧ ∀ n,
  rotateBlocks .forward (n + 1) pr a b p = (rotateBlocks .forward n (pr ++ c) a' b' p).map fun r ↦
  (r.1, pr.length + min a.length b.length) := by
  have hap := length_pos_iff.mpr ha
  have hbp := length_pos_iff.mpr hb
  have hs (n : ℕ) : rotateBlocks .forward (n + 1) pr a b p =
    (swapLoop (pr.length + a.length) (pr.length + a.length + b.length) a.length
    (pr ++ (a ++ (b ++ p))) pr.length (pr.length + a.length)).bind fun s ↦
    (rotate .forward n s.1 s.2.1 s.2.2 (pr.length + a.length + b.length)).map fun r ↦
    (r.1, s.2.1) := by
    rw [rotateBlocks, rotate, if_neg (by omega), if_neg (by omega), Nat.add_sub_cancel_left]
  have hbl : pr ++ (a ++ (b ++ p)) = pr ++ (a ++ ([] ++ (b ++ p))) := rfl
  have hm : pr.length + a.length = pr.length + a.length + ([] : List α).length := rfl
  rcases swapLoop_append ha hb hbl rfl rfl hm rfl le_rfl with
    ⟨b₁, b₂, rfl, hl, hr⟩ | ⟨a₁, a₂, rfl, hl, hne, hr⟩
  · refine ⟨b₁, a, b₂, by simp, ?_, fun n ↦ ?_⟩
    · exact length_pos_iff.mp (hl ▸ hap)
    · rw [hs, hr, rotateBlocks]
      simp [hl, add_assoc]
  · refine ⟨b, a₂, a₁, by simp, hb, fun n ↦ ?_⟩
    rw [hs, hr, rotateBlocks]
    simp [hl, add_assoc, add_comm]

theorem rotateBlocks_forward (pr a b p : List α) (n : ℕ)
  (hf : a.length + b.length < n) : rotateBlocks .forward n pr a b p = some (pr ++ (b ++ (a ++ p)),
  pr.length + if a = [] then b.length else min a.length b.length) := by
  induction n generalizing pr a b with
  | zero => omega
  | succ n ih =>
    rcases eq_or_ne a [] with rfl | ha
    · simp [rotateBlocks, rotate]
    · rcases eq_or_ne b [] with rfl | hb
      · simp [rotateBlocks, rotate, ha]
      · obtain ⟨c, a', b', hc, h, hs⟩ := rotateBlocks_forward_step pr p ha hb
        have hle := congrArg List.length hc
        have hp := length_pos_iff.mpr h
        simp only [length_append] at hle
        have hl : pr ++ c ++ (b' ++ (a' ++ p)) = pr ++ (b ++ (a ++ p)) := by
          rw [← append_assoc b a, ← hc]
          simp
        rw [hs, ih _ _ _ (by omega), Option.map_some, hl, if_neg ha]

/-- The random access version only returns when there is nothing to do. The forward version
returns where its first pass of swaps ended, which is not where `a` begins if `b` is longer. -/
theorem rotates_iff (category : Category) (pre a b post : List α) : Rotates category pre a b post ↔
      a = [] ∨ b = [] ∨ category = .forward ∧ b.length ≤ a.length := by
  rcases eq_or_ne a [] with rfl | ha
  · refine iff_of_true ⟨1, ?_⟩ (.inl rfl)
    simp [rotateBlocks, rotate]
  rcases eq_or_ne b [] with rfl | hb
  · refine iff_of_true ⟨1, ?_⟩ (.inr (.inl rfl))
    simp [rotateBlocks, rotate, ha]
  have hap := length_pos_iff.mpr ha
  have hbp := length_pos_iff.mpr hb
  simp only [ha, hb, false_or]
  cases category with
  | forward =>
    constructor
    · rintro ⟨n, hru⟩
      cases n with
      | zero => cases hru
      | succ n =>
        obtain ⟨c, a', b', -, -, hs⟩ := rotateBlocks_forward_step pre post ha hb
        rw [hs] at hru
        obtain ⟨r, -, hr⟩ := Option.map_eq_some_iff.mp hru
        have hp := congrArg Prod.snd hr
        dsimp only at hp
        exact ⟨rfl, by omega⟩
    · rintro ⟨-, hle⟩
      refine ⟨_, (rotateBlocks_forward pre a b post _ (Nat.lt_succ_self _)).trans ?_⟩
      rw [if_neg ha, min_eq_right hle]
  | randomAccess =>
    refine iff_of_false ?_ (fun h ↦ Category.noConfusion h.1)
    rintro ⟨n, hru⟩
    cases n with
    | zero => cases hru
    | succ n =>
      rw [rotateBlocks, rotate, if_neg (by omega), if_neg (by omega)] at hru
      rw [rotateRandomAccess_eq_none (by omega) (by omega)] at hru
      cases hru

theorem not_rotates : rotate .forward 9 [1, 2, 3] 0 1 3 = some ([2, 3, 1], 1) ∧
      ∀ fuel, rotate .randomAccess fuel [1, 2] 0 1 2 = none := by
  refine ⟨by decide, fun fuel ↦ ?_⟩
  cases fuel with
  | zero => rfl
  | succ fuel => exact rotateRandomAccess_eq_none (by decide) (by decide) fuel _

end ReaverOS.Rosestd.Rotate
