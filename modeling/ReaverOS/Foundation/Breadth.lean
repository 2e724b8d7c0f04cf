import Mathlib.Data.List.Basic

namespace ReaverOS.Foundation.Breadth

open List

variable {α β : Type*} [DecidableEq α] {succ : α → List α} {l m seen seen' front : List α} {x : α}

def fresh : List α → List α → List α
  | [], _ => []
  | x :: l, seen => if x ∈ seen then fresh l seen else x :: fresh l (x :: seen)

def breadth (succ : α → List α) : ℕ → List α → List α → List α
  | 0, seen, _ => seen
  | n + 1, seen, front =>
    let next := fresh (front.flatMap succ) seen
    breadth succ n (seen ++ next) next

def walks (succ : α → List α) : ℕ → α → List α
  | 0, a => [a]
  | n + 1, a => (succ a).flatMap (walks succ n)

def rings (succ : α → List α) : ℕ → List α → List α
  | 0, _ => []
  | n + 1, row => row ++ rings succ n (row.flatMap succ)

theorem fresh_congr (h : ∀ x, x ∈ seen ↔ x ∈ seen') : fresh l seen = fresh l seen' := by
  induction l generalizing seen seen' with
  | nil => rfl
  | cons y l ih =>
    have hc : fresh l (y :: seen) = fresh l (y :: seen') := by
      apply ih
      intro x
      rw [mem_cons, mem_cons, h]
    simp only [fresh, h, ih h, hc]

theorem mem_fresh : x ∈ fresh l seen ↔ x ∈ l ∧ x ∉ seen := by
  induction l generalizing seen with
  | nil => simp [fresh]
  | cons y l ih =>
    rw [fresh]
    by_cases hxy : x = y
    · subst hxy
      split <;> simp_all
    · split <;> simp [ih, hxy]

theorem fresh_append : fresh (l ++ m) seen = fresh l seen ++ fresh m (seen ++ fresh l seen) := by
  induction l generalizing seen with
  | nil => simp [fresh]
  | cons y l ih =>
    rw [cons_append, fresh, fresh]
    split
    · exact ih
    · rw [ih, cons_append]
      refine congrArg _ (congrArg _ (fresh_congr ?_))
      intro x
      simp only [mem_append, mem_cons]
      tauto

theorem fresh_eq_nil (h : l ⊆ seen) : fresh l seen = [] := by
  induction l with
  | nil => rfl
  | cons y l ih =>
    obtain ⟨hy, hl⟩ := cons_subset.mp h
    rw [fresh, if_pos hy, ih hl]

theorem fresh_flatMap_fresh (h : ∀ y ∈ seen, succ y ⊆ seen') :
  fresh (l.flatMap succ) seen' = fresh ((fresh l seen).flatMap succ) seen' := by
  induction l generalizing seen seen' with
  | nil => rfl
  | cons y l ih =>
    rw [flatMap_cons, fresh, fresh_append]
    split
    · rename_i hy
      rw [fresh_eq_nil (h y hy), nil_append, append_nil]
      exact ih h
    · rw [flatMap_cons, fresh_append]
      refine congrArg _ (ih ?_)
      intro z hz w hw
      rw [mem_append, mem_fresh]
      obtain rfl | hz := mem_cons.mp hz
      · exact (em (w ∈ seen')).imp id fun h' ↦ ⟨hw, h'⟩
      · exact .inl (h z hz hw)

omit [DecidableEq α] in
theorem walks_succ (n : ℕ) (a : α) : walks succ (n + 1) a = (walks succ n a).flatMap succ := by
  induction n generalizing a with
  | zero => simp [walks]
  | succ n ih =>
    rw [walks, flatMap_congr fun b _ ↦ ih b, ← flatMap_assoc, ← walks]

theorem append_fresh_rings (n : ℕ) {r : List α} (hc : ∀ y ∈ seen, y ∉ front → succ y ⊆ seen)
  (hr : fresh (r.flatMap succ) seen = fresh (front.flatMap succ) seen) :
  seen ++ fresh (rings succ n (r.flatMap succ)) seen = breadth succ n seen front := by
  induction n generalizing seen front r with
  | zero => simp [rings, fresh, breadth]
  | succ n ih =>
    have hn : ∀ y ∈ seen, succ y ⊆ seen ++ fresh (front.flatMap succ) seen := by
      intro y hy z hz
      rw [mem_append, mem_fresh, mem_flatMap]
      by_cases hz' : z ∈ seen
      · exact .inl hz'
      · refine .inr ⟨⟨y, ?_, hz⟩, hz'⟩
        by_contra hf
        exact hz' (hc y hy hf hz)
    rw [rings, fresh_append, hr, breadth, ← append_assoc]
    apply ih
    · intro y hy h
      exact hn y ((mem_append.mp hy).resolve_right h)
    · rw [← hr] at hn ⊢
      exact fresh_flatMap_fresh hn

theorem breadth_eq_fresh (n : ℕ) (a : α) :
  breadth succ n [a] [a] = fresh (rings succ (n + 1) [a]) [] := by
  rw [rings, singleton_append, fresh, if_neg not_mem_nil]
  have h : [a] ++ fresh (rings succ n ([a].flatMap succ)) [a] = breadth succ n [a] [a] :=
    append_fresh_rings n (fun y hy hf ↦ absurd hy hf) rfl
  rw [← h]
  rfl

theorem findSome?_fresh {f : α → Option β} (h : ∀ y ∈ seen, f y = none) :
  (fresh l seen).findSome? f = l.findSome? f := by
  induction l generalizing seen with
  | nil => rfl
  | cons y l ih =>
    rw [fresh, findSome?_cons]
    split
    · rename_i hy
      rw [h y hy]
      exact ih h
    · rw [findSome?_cons]
      cases hy : f y with
      | some b => rfl
      | none =>
        apply ih
        intro z hz
        obtain rfl | hz := mem_cons.mp hz
        · exact hy
        · exact h z hz

omit [DecidableEq α] in
theorem findSome?_flatMap {γ : Type*} (f : α → Option β) (g : γ → List α) (l : List γ) :
  (l.flatMap g).findSome? f = l.findSome? fun x ↦ (g x).findSome? f := by
  induction l with
  | nil => rfl
  | cons x l ih =>
    rw [flatMap_cons, findSome?_append, ih, findSome?_cons]
    cases (g x).findSome? f <;> rfl

theorem findSome?_rings (f : α → Option β) (n : ℕ) (a : α) :
  (rings succ (n + 1) [a]).findSome? f = (breadth succ n [a] [a]).findSome? f := by
  rw [breadth_eq_fresh, findSome?_fresh]
  intro y hy
  cases hy

omit [DecidableEq α] in
theorem rings_eq_flatMap_walks (n : ℕ) (a : α) :
  rings succ n [a] = (List.range n).flatMap fun i ↦ walks succ i a := by
  have hf (k : ℕ) : rings succ n (walks succ k a) =
    (List.range n).flatMap fun i ↦ walks succ (k + i) a := by
    induction n generalizing k with
    | zero => rfl
    | succ n ih =>
      rw [rings, ← walks_succ, ih, range_succ_eq_map, flatMap_cons, flatMap_map, Nat.add_zero]
      refine congrArg _ (flatMap_congr fun i _ ↦ ?_)
      rw [Nat.succ_eq_add_one, Nat.add_right_comm, Nat.add_assoc]
  simpa only [Nat.zero_add, walks] using hf 0

theorem breadth_of_closed (n : ℕ) (h : front.flatMap succ ⊆ seen) :
  breadth succ n seen front = seen := by
  induction n generalizing front with
  | zero => rfl
  | succ n ih =>
    rw [breadth, fresh_eq_nil h, append_nil]
    exact ih (by simp)

theorem breadth_add (k n : ℕ) (ha : ∀ y, succ y ⊆ breadth succ n seen front) :
  breadth succ (n + k) seen front = breadth succ n seen front := by
  induction n generalizing seen front with
  | zero =>
    rw [Nat.zero_add]
    apply breadth_of_closed
    intro x hx
    obtain ⟨y, -, hx⟩ := mem_flatMap.mp hx
    exact ha y hx
  | succ n ih =>
    rw [Nat.add_right_comm, breadth, breadth]
    exact ih ha

end ReaverOS.Foundation.Breadth
