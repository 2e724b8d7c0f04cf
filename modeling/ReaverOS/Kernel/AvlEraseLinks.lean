import ReaverOS.Kernel.AvlRotate

namespace ReaverOS.Kernel.AvlLinks

open Function Foundation SearchTree Links List Option

variable {α : Type} [DecidableEq α] {s : Links ℤ α} {path : List (Crumb ℤ α)} {f g : ℤ}
  {a b x : α} {t u l r : Tree ℤ α}

def beginsLeft : List (Crumb ℤ α) → Bool
  | [] => false
  | .left _ _ _ :: _ => true
  | .right _ _ _ :: _ => false

omit [DecidableEq α] in
theorem ne_other_child_right (ha : Apart (.right f l a :: path) t)
  (hr : t.root = some x) : l.root ≠ some x := by
  intro h
  refine ha.disjoint x (mem_toList_of_root hr) ?_
  exact mem_cons_of_mem _ (mem_append_left _ (mem_toList_of_root h))

theorem left_eq_some_iff (h : At s path t) (hp : Apart path t) (hr : t.root = some x)
  (ha : owner path = some a) : decide (s.left a = some x) = beginsLeft path := by
  cases path with
  | nil => cases ha
  | cons c path =>
    cases c with
    | left f a r =>
      cases ha
      obtain ⟨-, -, hl, -⟩ := h.1.1
      rw [hl, hr]
      exact decide_eq_true rfl
    | right f l a =>
      cases ha
      obtain ⟨-, -, hl, -⟩ := h.1.1
      rw [hl]
      exact decide_eq_false (ne_other_child_right hp hr)

omit [DecidableEq α] in
theorem parent_eq_owner (h : At s path t) (hr : t.root = some x) : s.parent x = owner path := by
  cases t with
  | nil => cases hr
  | node f l a r =>
    cases hr
    exact h.2.1.1

theorem rebalance_right_gives {b : ℤ} (h : At s path (.node f l a r))
  (ha : Apart path (.node f l a r)) (ht : (if b < 0 then AvlTree.rebalanceRightLeft (.node f l a r)
  else AvlTree.rebalanceLeft (.node f l a r)) = some t) :
  Gives (if b < 0 then rebalanceRightLeft s a else rebalanceLeft s a) path t := by
  by_cases hb : b < 0
  · rw [if_pos hb] at ht ⊢
    exact rebalanceRightLeft_gives h ha ht
  · rw [if_neg hb] at ht ⊢
    exact rebalanceLeft_gives h ha ht

theorem rebalance_left_gives {b : ℤ} (h : At s path (.node f l a r))
  (ha : Apart path (.node f l a r)) (ht : (if b > 0 then AvlTree.rebalanceLeftRight (.node f l a r)
  else AvlTree.rebalanceRight (.node f l a r)) = some t) :
  Gives (if b > 0 then rebalanceLeftRight s a else rebalanceRight s a) path t := by
  by_cases hb : b > 0
  · rw [if_pos hb] at ht ⊢
    exact rebalanceLeftRight_gives h ha ht
  · rw [if_neg hb] at ht ⊢
    exact rebalanceRight_gives h ha ht

/-- Whatever has the two branches of the source's step to the parent ends in `u`. -/
def Climbs (fuel : ℕ) (path : List (Crumb ℤ α)) (u : Tree ℤ α) : Prop :=
  ∀ {s : Links ℤ α} {t : Tree ℤ α} {x : α} {o : Option (Links ℤ α)}, At s path t → Apart path t →
    t.root = some x → AvlTree.eraseRebalance t path = some u → (s.parent x = none → o = some s) →
    (∀ p, s.parent x = some p → o = eraseRebalance fuel s p (s.left p = some x)) →
    ∃ s', o = some s' ∧ At s' [] u

theorem climbs_of_owner {n : ℕ} (ih : ∀ {s : Links ℤ α} {t : Tree ℤ α} {a : α}, At s path t →
  Apart path t → owner path = some a → AvlTree.eraseRebalance t path = some u →
  ∃ s', eraseRebalance n s a (beginsLeft path) = some s' ∧ At s' [] u) :
  Climbs n path u := by
  intro s t x o h ha hr hu he hs
  rw [parent_eq_owner h hr] at he hs
  cases how : owner path with
  | none =>
    cases path with
    | nil =>
      cases hu
      exact ⟨s, he rfl, h⟩
    | cons c path => cases c <;> cases how
  | some a =>
    rw [hs a how, left_eq_some_iff h ha hr how]
    exact ih h ha how hu

theorem eraseRebalance_left {n : ℕ} {b : α} {r : Tree ℤ α} (ho : Climbs n path u)
  (h : At s (.left f b r :: path) t) (hap : Apart (.left f b r :: path) t)
  (hu : AvlTree.eraseRebalance t (.left f b r :: path) = some u) :
  ∃ s', eraseRebalance (n + 1) s b (beginsLeft (.left f b r :: path)) = some s' ∧ At s' [] u := by
  have h' := at_left.mp h
  have hap' := (apart_cons _).mp hap
  obtain ⟨-, hta, -, hri⟩ := h.1.1
  rw [AvlTree.eraseRebalance] at hu
  rw [eraseRebalance, beginsLeft, if_pos rfl, hta]
  by_cases hpo : f > 0
  · rw [if_pos hpo] at hu ⊢
    cases r with
    | nil => cases hu
    | node g rl c rr =>
      have ht := h.1.2.1.1.2.1
      rw [AvlTree.balanceFactor, bind_some] at hu
      obtain ⟨cu, hc, hu⟩ := bind_eq_some_iff.mp hu
      obtain ⟨s', y, hop, hr, ha, hap⟩ := rebalance_right_gives h' hap' hc
      rw [hri, Tree.root, bind_some]
      dsimp only
      rw [ht, hop, bind_some]
      by_cases hg : g = 0
      · rw [if_pos hg] at hu ⊢
        cases hu
        exact ⟨s', rfl, at_nil_fill.mpr ha⟩
      · rw [if_neg hg] at hu ⊢
        exact ho ha hap hr hu (fun hp ↦ by simp only [hp]) fun p hp ↦ by simp only [hp]
  · rw [if_neg hpo] at hu ⊢
    by_cases hz : f = 0
    · rw [if_pos hz] at hu ⊢
      cases hu
      exact ⟨_, rfl, at_nil_fill.mpr (setTag_at h' hap' 1)⟩
    · rw [if_neg hz] at hu ⊢
      exact ho (setTag_at h' hap' 0) (hap'.of_toList rfl) rfl hu
        (fun hp ↦ by simp only [hp]) fun p hp ↦ by simp only [hp]

theorem eraseRebalance_right {n : ℕ} {b : α} {l : Tree ℤ α} (ho : Climbs n path u)
  (h : At s (.right f l b :: path) t) (hap : Apart (.right f l b :: path) t)
  (hu : AvlTree.eraseRebalance t (.right f l b :: path) = some u) :
  ∃ s', eraseRebalance (n + 1) s b (beginsLeft (.right f l b :: path)) = some s' ∧ At s' [] u := by
  have h' := at_right.mp h
  have hap' := (apart_cons _).mp hap
  obtain ⟨-, hta, hl, -⟩ := h.1.1
  rw [AvlTree.eraseRebalance] at hu
  rw [eraseRebalance, beginsLeft, if_neg (by decide), hta]
  by_cases hn : f < 0
  · rw [if_pos hn] at hu ⊢
    cases l with
    | nil => cases hu
    | node g ll c lr =>
      have ht := h.1.2.1.1.2.1
      rw [AvlTree.balanceFactor, bind_some] at hu
      obtain ⟨cu, hc, hu⟩ := bind_eq_some_iff.mp hu
      obtain ⟨s', y, hop, hr, ha, hap⟩ := rebalance_left_gives h' hap' hc
      rw [hl, Tree.root, bind_some]
      dsimp only
      rw [ht, hop, bind_some]
      by_cases hg : g = 0
      · rw [if_pos hg] at hu ⊢
        cases hu
        exact ⟨s', rfl, at_nil_fill.mpr ha⟩
      · rw [if_neg hg] at hu ⊢
        exact ho ha hap hr hu (fun hp ↦ by simp only [hp]) fun p hp ↦ by simp only [hp]
  · rw [if_neg hn] at hu ⊢
    by_cases hz : f = 0
    · rw [if_pos hz] at hu ⊢
      cases hu
      exact ⟨_, rfl, at_nil_fill.mpr (setTag_at h' hap' (-1))⟩
    · rw [if_neg hz] at hu ⊢
      exact ho (setTag_at h' hap' 0) (hap'.of_toList rfl) rfl hu
        (fun hp ↦ by simp only [hp]) fun p hp ↦ by simp only [hp]

theorem eraseRebalance_at (p : List (Crumb ℤ α))
  {k : ℕ} (h : At s p t) (hp : Apart p t) (ha : owner p = some a)
  (hu : AvlTree.eraseRebalance t p = some u) (hf : p.length ≤ k) :
  ∃ s', eraseRebalance k s a (beginsLeft p) = some s' ∧ At s' [] u := by
  induction p generalizing s t a k with
  | nil => cases ha
  | cons c p ih =>
    rw [length_cons] at hf
    obtain ⟨k, rfl⟩ : ∃ n, k = n + 1 := Nat.exists_eq_succ_of_ne_zero (by omega)
    have ho : Climbs k p u := climbs_of_owner fun h hp hw hu ↦ ih h hp hw hu (by omega)
    cases c with
    | left fa b r =>
      cases ha
      exact eraseRebalance_left ho h hp hu
    | right fa l b =>
      cases ha
      exact eraseRebalance_right ho h hp hu

end ReaverOS.Kernel.AvlLinks

namespace ReaverOS.Kernel.AvlLinks

open Foundation SearchTree Links List

variable {α : Type} [DecidableEq α] {s : Links ℤ α} {path : List (Crumb ℤ α)} {t : Tree ℤ α}
  {x : α} {fuel : ℕ}

omit [DecidableEq α] in
theorem leftmost_eq {p : Option α} (h : TreeAt s p t) (hx : t.root = some x)
  (hf : t.toList.length ≤ fuel) : ∃ i k n nr, fill i (.node k .nil n nr) = t ∧ before i = [] ∧
  leftmost s fuel x = some n := by
  induction t generalizing p x fuel with
  | nil => cases hx
  | node k l a r ih =>
    obtain rfl : a = x := Option.some.inj hx
    obtain ⟨⟨-, -, hle, -⟩, hl, -⟩ := h
    cases fuel with
    | zero => simp [Tree.toList] at hf
    | succ fuel =>
      rw [leftmost, hle]
      cases l with
      | nil => exact ⟨[], k, a, r, rfl, rfl, rfl⟩
      | node k' l' b r' =>
        have hln : (Foundation.SearchTree.Tree.node k' l' b r').toList.length ≤ fuel := by
          rw [Tree.toList, length_append, length_cons] at hf
          omega
        obtain ⟨i, k'', n, nr, hfi, hb, hlf⟩ := ih hl rfl hln
        refine ⟨i ++ [.left k a r], k'', n, nr, ?_, ?_, hlf⟩
        · rw [fill_append, hfi]
          rfl
        · rw [before_append, hb]
          rfl

theorem climb_eq (h : At s path t) (ha : Apart path t) (hx : t.root = some x)
  (hf : path.length < fuel) : climb s fuel x = some (after path).head? := by
  induction path generalizing t x fuel with
  | nil =>
    cases fuel with
    | zero => exact absurd hf (Nat.not_lt_zero _)
    | succ fuel =>
      have hp : s.parent x = none := parent_eq_owner h hx
      rw [climb, hp]
      rfl
  | cons c path ih =>
    cases fuel with
    | zero => exact absurd hf (Nat.not_lt_zero _)
    | succ fuel =>
      cases c with
      | left f a r =>
        have hp : s.parent x = some a := parent_eq_owner h hx
        have hs := left_eq_some_iff h ha hx rfl
        rw [climb, hp]
        simp only [beginsLeft, decide_eq_true_eq] at hs
        simp only [if_pos hs]
        rfl
      | right f l a =>
        have hp : s.parent x = some a := parent_eq_owner h hx
        have hs := left_eq_some_iff h ha hx rfl
        simp only [beginsLeft, decide_eq_false_iff_not] at hs
        rw [climb, hp]
        simp only [if_neg hs]
        exact ih (at_cons _ |>.mp h) (apart_cons _ |>.mp ha) rfl (Nat.lt_of_succ_lt_succ hf)

theorem next_eq {s : AvlLinks α} {f : ℤ} {l r : Tree ℤ α}
  (h : At s.toLinks path (.node f l x r)) (ha : Apart path (.node f l x r))
  (hs : s.size = (fill path (.node f l x r)).toList.length) :
  s.next x = some (r.toList ++ after path).head? := by
  obtain ⟨-, -, -, hr⟩ := h.2.1
  have hp := (perm_outer path (.node f l x r)).length_eq
  simp only [Tree.toList, length_append, length_cons] at hp
  cases r with
  | nil =>
    have hle := length_le_outer path
    rw [next, hr]
    exact climb_eq h ha rfl (by omega)
  | node g rl b rr =>
    have hf : (Foundation.SearchTree.Tree.node g rl b rr).toList.length ≤ s.size + 1 := by omega
    obtain ⟨i, k, n, nr, hfi, hb, hl⟩ := leftmost_eq h.2.2.2 rfl hf
    rw [next, hr]
    simp only [Tree.root, hl, Option.map_some]
    rw [← hfi, toList_fill, hb]
    rfl

end ReaverOS.Kernel.AvlLinks
