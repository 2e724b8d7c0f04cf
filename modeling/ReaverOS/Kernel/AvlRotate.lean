import ReaverOS.Foundation.TreeSurgery
import ReaverOS.Kernel.AvlTree
import ReaverOS.Kernel.AvlLinks

namespace ReaverOS.Kernel.AvlLinks

open Function Foundation SearchTree Links List Option

section

variable {α : Type} [DecidableEq α] {s : Links ℤ α} {path : List (Crumb ℤ α)} {f g : ℤ} {a b : α}
  {l r ll lr rl rr : Tree ℤ α}

theorem rotateLeft_at (h : At s path (.node f l a (.node g rl b rr)))
  (ha : Apart path (.node f l a (.node g rl b rr))) :
  ∃ s', rotateLeft s a = some (s', b) ∧ At s' path (.node g (.node f l a rl) b rr) := by
  obtain ⟨hpa, ⟨hp, hta, hle, hri⟩, hl, ⟨-, ht, hlf, hr⟩, hrl, hrr⟩ := h
  let s₁ := ((((s.setRight a rl.root).adopt rl.root (some a)).setParent a (some b)).setLeft b
    (some a)).setParent b (owner path)
  have hs₁ : rotateLeft s a = some (s₁.replace (owner path) a (some b), b) := by
    rw [rotateLeft, hri, hp]
    simp only [Tree.root, map_some, hlf]
    rfl
  have hs₁left (x : α) : s₁.left x = if x = b then some a else s.left x := by
    simp [s₁, setParent, setLeft, setRight, adopt_left, update_apply]
  have hs₁right (x : α) : s₁.right x = if x = a then rl.root else s.right x := by
    simp [s₁, setParent, setLeft, setRight, adopt_right, update_apply]
  have hs₁tag (x : α) : s₁.tag x = s.tag x := by
    simp [s₁, setParent, setLeft, setRight, adopt_tag]
  have hs₁parent (x : α) : s₁.parent x = if x = b then owner path else if x = a then some b
      else if rl.root = some x then some a else s.parent x := by
    simp [s₁, setParent, setLeft, setRight, adopt_parent, update_apply]
  have hsa (x : α) (hxa : x ≠ a) (hxb : x ≠ b) (hx : x ∉ rl.toList) : SameAt s s₁ x := by
    have hro : rl.root ≠ some x := fun he ↦ hx (mem_toList_of_root he)
    simp [SameAt, hs₁left, hs₁right, hs₁tag, hs₁parent, hxa, hxb, hro]
  have hn := ha.tree
  have ho := ha.disjoint
  simp only [Tree.toList, nodup_append, nodup_cons, mem_append, mem_cons] at hn ho
  have hab : a ≠ b := by grind
  refine ⟨_, hs₁, At.replace (u := .node g (.node f l a rl) b rr) ?_ (ho a (by simp)) ?_ ?_⟩
  · refine hpa.congr (by simp [s₁, setParent, setLeft, setRight, adopt_root]) ?_
    intro x hx
    exact hsa x (by grind) (by grind) (by grind)
  · have hne : s₁.parent b = owner path ∧ s₁.tag b = g ∧ s₁.left b = some a ∧
      s₁.right b = rr.root := by
      simp [hs₁left, hs₁right, hs₁tag, hs₁parent, hab.symm, ht, hr]
    have hnw : s₁.parent a = some b ∧ s₁.tag a = f ∧ s₁.left a = l.root ∧ s₁.right a = rl.root := by
      simp [hs₁left, hs₁right, hs₁tag, hs₁parent, hab, hta, hle]
    refine ⟨hne, ⟨hnw, hl.congr fun x hx ↦ ?_, hrl.reparent (by grind) fun x hx ↦ ?_⟩,
      hrr.congr fun x hx ↦ ?_⟩
    · exact hsa x (by grind) (by grind) (by grind)
    · have hxa : x ≠ a := by grind
      have hxb : x ≠ b := by grind
      simp [hs₁left, hs₁right, hs₁tag, hs₁parent, hxa, hxb]
    · exact hsa x (by grind) (by grind) (by grind)
  · exact ha.of_toList (by simp [Tree.toList])

theorem rotateRight_at (h : At s path (.node f (.node g ll b lr) a r))
  (ha : Apart path (.node f (.node g ll b lr) a r)) :
  ∃ s', rotateRight s a = some (s', b) ∧ At s' path (.node g ll b (.node f lr a r)) := by
  obtain ⟨hpa, ⟨hp, hta, hle, hri⟩, ⟨⟨-, ht, hl, hrg⟩, hll, hlr⟩, hr⟩ := h
  let s₁ := ((((s.setLeft a lr.root).adopt lr.root (some a)).setParent a (some b)).setRight b
    (some a)).setParent b (owner path)
  have hs₁ : rotateRight s a = some (s₁.replace (owner path) a (some b), b) := by
    rw [rotateRight, hle, hp]
    simp only [Tree.root, map_some, hrg]
    rfl
  have hs₁left (x : α) : s₁.left x = if x = a then lr.root else s.left x := by
    simp [s₁, setParent, setLeft, setRight, adopt_left, update_apply]
  have hs₁right (x : α) : s₁.right x = if x = b then some a else s.right x := by
    simp [s₁, setParent, setLeft, setRight, adopt_right, update_apply]
  have hs₁tag (x : α) : s₁.tag x = s.tag x := by
    simp [s₁, setParent, setLeft, setRight, adopt_tag]
  have hs₁parent (x : α) : s₁.parent x = if x = b then owner path else if x = a then some b
      else if lr.root = some x then some a else s.parent x := by
    simp [s₁, setParent, setLeft, setRight, adopt_parent, update_apply]
  have hsa (x : α) (hxa : x ≠ a) (hxb : x ≠ b) (hx : x ∉ lr.toList) : SameAt s s₁ x := by
    have hro : lr.root ≠ some x := fun he ↦ hx (mem_toList_of_root he)
    simp [SameAt, hs₁left, hs₁right, hs₁tag, hs₁parent, hxa, hxb, hro]
  have hn := ha.tree
  have ho := ha.disjoint
  simp only [Tree.toList, nodup_append, nodup_cons, mem_append, mem_cons] at hn ho
  have hab : a ≠ b := by grind
  refine ⟨_, hs₁, At.replace (u := .node g ll b (.node f lr a r)) ?_ (ho a (by simp)) ?_ ?_⟩
  · refine hpa.congr (by simp [s₁, setParent, setLeft, setRight, adopt_root]) ?_
    intro x hx
    exact hsa x (by grind) (by grind) (by grind)
  · have hne : s₁.parent b = owner path ∧ s₁.tag b = g ∧ s₁.left b = ll.root ∧
      s₁.right b = some a := by
      simp [hs₁left, hs₁right, hs₁tag, hs₁parent, hab.symm, ht, hl]
    have hnw : s₁.parent a = some b ∧ s₁.tag a = f ∧ s₁.left a = lr.root ∧ s₁.right a = r.root := by
      simp [hs₁left, hs₁right, hs₁tag, hs₁parent, hab, hta, hri]
    refine ⟨hne, hll.congr fun x hx ↦ ?_, hnw, hlr.reparent (by grind) fun x hx ↦ ?_,
      hr.congr fun x hx ↦ ?_⟩
    · exact hsa x (by grind) (by grind) (by grind)
    · have hxa : x ≠ a := by grind
      have hxb : x ≠ b := by grind
      simp [hs₁left, hs₁right, hs₁tag, hs₁parent, hxa, hxb]
    · exact hsa x (by grind) (by grind) (by grind)
  · exact ha.of_toList (by simp [Tree.toList])

theorem setTag_at (h : At s path (.node f l a r)) (ha : Apart path (.node f l a r)) (g : ℤ) :
  At (s.setTag a g) path (.node g l a r) := by
  obtain ⟨hpa, ⟨hp, -, hle, hri⟩, hl, hr⟩ := h
  have hs (x : α) (hx : x ≠ a) : SameAt s (s.setTag a g) x := ⟨rfl, rfl, rfl, update_of_ne hx ..⟩
  have hn := ha.tree
  have ho := ha.disjoint
  simp only [Tree.toList, nodup_append, nodup_cons, mem_append, mem_cons] at hn ho
  refine ⟨hpa.congr rfl fun x hx ↦ hs x (by grind), ⟨hp, update_self .., hle, hri⟩,
    hl.congr fun x hx ↦ hs x (by grind), hr.congr fun x hx ↦ hs x (by grind)⟩

theorem setTag_right_at (h : At s path (.node f l a (.node g rl b rr)))
  (ha : Apart path (.node f l a (.node g rl b rr))) (f' g' : ℤ) :
  At ((s.setTag a f').setTag b g') path (.node f' l a (.node g' rl b rr)) := by
  have hn := setTag_at h ha f'
  have ha' : Apart path (.node f' l a (.node g rl b rr)) := ha.of_toList rfl
  exact at_right.mp (setTag_at (at_right.mpr hn) ((apart_cons (.right f' l a)).mpr ha') g')

theorem setTag_left_at (h : At s path (.node f (.node g ll b lr) a r))
  (ha : Apart path (.node f (.node g ll b lr) a r)) (f' g' : ℤ) :
  At ((s.setTag a f').setTag b g') path (.node f' (.node g' ll b lr) a r) := by
  have hn := setTag_at h ha f'
  have ha' : Apart path (.node f' (.node g ll b lr) a r) := ha.of_toList rfl
  exact at_left.mp (setTag_at (at_left.mpr hn) ((apart_cons (.left f' a r)).mpr ha') g')

def Gives (op : Option (Links ℤ α × α)) (path : List (Crumb ℤ α)) (t : Tree ℤ α) : Prop :=
  ∃ s' b, op = some (s', b) ∧ t.root = some b ∧ At s' path t ∧ Apart path t

theorem rotateLeft_gives (h : At s path (.node f l a (.node g rl b rr)))
  (ha : Apart path (.node f l a (.node g rl b rr))) :
  Gives (rotateLeft s a) path (.node g (.node f l a rl) b rr) := by
  obtain ⟨s', hs', ht⟩ := rotateLeft_at h ha
  exact ⟨s', b, hs', rfl, ht, ha.of_toList (by simp [Tree.toList])⟩

theorem rotateRight_gives (h : At s path (.node f (.node g ll b lr) a r))
  (ha : Apart path (.node f (.node g ll b lr) a r)) :
  Gives (rotateRight s a) path (.node g ll b (.node f lr a r)) := by
  obtain ⟨s', hs', ht⟩ := rotateRight_at h ha
  exact ⟨s', b, hs', rfl, ht, ha.of_toList (by simp [Tree.toList])⟩

variable {t : Tree ℤ α}

theorem rebalanceLeft_gives (h : At s path (.node f l a r)) (ha : Apart path (.node f l a r))
  (ht : AvlTree.rebalanceLeft (.node f l a r) = some t) : Gives (rebalanceLeft s a) path t := by
  cases r with
  | nil => cases ht
  | node g rl b rr =>
    have hr : s.right a = some b := h.2.1.2.2.2
    have htg : s.tag b = g := h.2.2.2.1.2.1
    have hta (f' g' : ℤ) := rotateLeft_gives (setTag_right_at h ha f' g') (ha.of_toList rfl)
    rw [rebalanceLeft, hr]
    simp only [bind_eq_bind, bind_some, htg]
    by_cases hg : g = 0
    · rw [if_pos hg]
      simp only [AvlTree.rebalanceLeft, AvlTree.balanceFactor, AvlTree.setBalanceFactor,
        bind_eq_bind, bind_some, if_pos hg] at ht
      cases ht
      exact hta 1 (-1)
    · rw [if_neg hg]
      simp only [AvlTree.rebalanceLeft, AvlTree.balanceFactor, AvlTree.setBalanceFactor,
        bind_eq_bind, bind_some, if_neg hg] at ht
      cases ht
      exact hta 0 0

theorem rebalanceRight_gives (h : At s path (.node f l a r)) (ha : Apart path (.node f l a r))
  (ht : AvlTree.rebalanceRight (.node f l a r) = some t) : Gives (rebalanceRight s a) path t := by
  cases l with
  | nil => cases ht
  | node g ll b lr =>
    have hl : s.left a = some b := h.2.1.2.2.1
    have htg : s.tag b = g := h.2.2.1.1.2.1
    have hta (f' g' : ℤ) := rotateRight_gives (setTag_left_at h ha f' g') (ha.of_toList rfl)
    rw [rebalanceRight, hl]
    simp only [bind_eq_bind, bind_some, htg]
    by_cases hg : g = 0
    · rw [if_pos hg]
      simp only [AvlTree.rebalanceRight, AvlTree.balanceFactor, AvlTree.setBalanceFactor,
        bind_eq_bind, bind_some, if_pos hg] at ht
      cases ht
      exact hta (-1) 1
    · rw [if_neg hg]
      simp only [AvlTree.rebalanceRight, AvlTree.balanceFactor, AvlTree.setBalanceFactor,
        bind_eq_bind, bind_some, if_neg hg] at ht
      cases ht
      exact hta 0 0

theorem rotateLeft_rotateRight_at {k : ℤ} {c : α} {lrl lrr : Tree ℤ α}
  (h : At s path (.node f (.node g ll b (.node k lrl c lrr)) a r))
  (ha : Apart path (.node f (.node g ll b (.node k lrl c lrr)) a r)) :
  ∃ s₁ s₂, rotateLeft s b = some (s₁, c) ∧ rotateRight s₁ a = some (s₂, c) ∧
  At (s₂.setTag c 0) path (.node 0 (.node g ll b lrl) c (.node f lrr a r)) := by
  obtain ⟨s₁, hs, ht⟩ := rotateLeft_at (at_left.mpr h) ((apart_cons (.left f a r)).mpr ha)
  have ha₁ : Apart path (.node f (.node k (.node g ll b lrl) c lrr) a r) :=
    ha.of_toList (by simp [Tree.toList])
  obtain ⟨s₂, hs₂, hat⟩ := rotateRight_at (at_left.mp ht) ha₁
  exact ⟨s₁, s₂, hs, hs₂, setTag_at hat (ha.of_toList (by simp [Tree.toList])) 0⟩

theorem rotateRight_rotateLeft_at {k : ℤ} {c : α} {rll rlr : Tree ℤ α}
  (h : At s path (.node f l a (.node g (.node k rll c rlr) b rr)))
  (ha : Apart path (.node f l a (.node g (.node k rll c rlr) b rr))) :
  ∃ s₁ s₂, rotateRight s b = some (s₁, c) ∧ rotateLeft s₁ a = some (s₂, c) ∧
  At (s₂.setTag c 0) path (.node 0 (.node f l a rll) c (.node g rlr b rr)) := by
  obtain ⟨s₁, hs, ht⟩ := rotateRight_at (at_right.mpr h) ((apart_cons (.right f l a)).mpr ha)
  have ha₁ : Apart path (.node f l a (.node k rll c (.node g rlr b rr))) :=
    ha.of_toList (by simp [Tree.toList])
  obtain ⟨s₂, hs₂, hat⟩ := rotateLeft_at (at_right.mp ht) ha₁
  exact ⟨s₁, s₂, hs, hs₂, setTag_at hat (ha.of_toList (by simp [Tree.toList])) 0⟩

theorem rebalanceLeftRight_gives (h : At s path (.node f l a r)) (ha : Apart path (.node f l a r))
  (ht : AvlTree.rebalanceLeftRight (.node f l a r) = some t) :
  Gives (rebalanceLeftRight s a) path t := by
  cases l with
  | nil => cases ht
  | node g ll b lr =>
    cases lr with
    | nil => cases ht
    | node k lrl c lrr =>
      have hl : s.left a = some b := h.2.1.2.2.1
      have hr : s.right b = some c := h.2.2.1.1.2.2.2
      have hta : s.tag c = k := h.2.2.1.2.2.1.2.1
      have hg (f' g' : ℤ) : Gives ((rotateLeft ((s.setTag a f').setTag b g') b).bind fun x ↦
        (rotateRight x.1 a).bind fun y ↦ some (y.1.setTag y.2 0, y.2)) path
        (.node 0 (.node g' ll b lrl) c (.node f' lrr a r)) := by
        obtain ⟨s₁, s₂, hs, hs₂, hat⟩ := rotateLeft_rotateRight_at
          (setTag_left_at h ha f' g') (ha.of_toList rfl)
        rw [hs, bind_some, hs₂]
        exact ⟨_, c, rfl, rfl, hat, ha.of_toList (by simp [Tree.toList])⟩
      rw [rebalanceLeftRight, hl]
      simp only [bind_eq_bind, bind_some, hr, hta]
      simp only [AvlTree.rebalanceLeftRight, AvlTree.balanceFactor, AvlTree.rotateLeft,
        AvlTree.rotateRight, AvlTree.setBalanceFactor, bind_eq_bind, bind_some, some.injEq] at ht
      subst ht
      obtain hk | hk | hk := lt_trichotomy k 0
      · simp only [if_neg hk.ne, if_pos hk]
        exact hg 1 0
      · simp only [if_pos hk]
        exact hg 0 0
      · simp only [if_neg hk.ne', if_neg hk.not_gt]
        exact hg 0 (-1)

theorem rebalanceRightLeft_gives (h : At s path (.node f l a r)) (ha : Apart path (.node f l a r))
  (ht : AvlTree.rebalanceRightLeft (.node f l a r) = some t) :
  Gives (rebalanceRightLeft s a) path t := by
  cases r with
  | nil => cases ht
  | node g rl b rr =>
    cases rl with
    | nil => cases ht
    | node k rll c rlr =>
      have hr : s.right a = some b := h.2.1.2.2.2
      have hl : s.left b = some c := h.2.2.2.1.2.2.1
      have hta : s.tag c = k := h.2.2.2.2.1.1.2.1
      have hg (f' g' : ℤ) : Gives ((rotateRight ((s.setTag a f').setTag b g') b).bind fun x ↦
        (rotateLeft x.1 a).bind fun y ↦ some (y.1.setTag y.2 0, y.2)) path
        (.node 0 (.node f' l a rll) c (.node g' rlr b rr)) := by
        obtain ⟨s₁, s₂, hs, hs₂, hat⟩ := rotateRight_rotateLeft_at
          (setTag_right_at h ha f' g') (ha.of_toList rfl)
        rw [hs, bind_some, hs₂]
        exact ⟨_, c, rfl, rfl, hat, ha.of_toList (by simp [Tree.toList])⟩
      rw [rebalanceRightLeft, hr]
      simp only [bind_eq_bind, bind_some, hl, hta]
      simp only [AvlTree.rebalanceRightLeft, AvlTree.balanceFactor, AvlTree.rotateLeft,
        AvlTree.rotateRight, AvlTree.setBalanceFactor, bind_eq_bind, bind_some, some.injEq] at ht
      subst ht
      obtain hk | hk | hk := lt_trichotomy k 0
      · simp only [if_neg hk.ne, if_neg hk.not_gt]
        exact hg 0 1
      · simp only [if_pos hk]
        exact hg 0 0
      · simp only [if_neg hk.ne', if_pos hk]
        exact hg (-1) 0

end

variable {α : Type} [DecidableEq α] {s : Links ℤ α} {path : List (Crumb ℤ α)} {f g : ℤ} {a b : α}
  {t u l r : Tree ℤ α}

omit [DecidableEq α] in
theorem Gives.at_fill {op : Option (Links ℤ α × α)} (h : Gives op path t) :
  ∃ s', op.map Prod.fst = some s' ∧ At s' [] (fill path t) := by
  obtain ⟨s', b, rfl, -, ha, -⟩ := h
  exact ⟨s', rfl, at_nil_fill.mpr ha⟩

variable {x : α}

omit [DecidableEq α] in
theorem ne_other_child (ha : Apart (.left f a r :: path) t) (hr : t.root = some x) :
  r.root ≠ some x := by
  intro h
  refine ha.disjoint x (mem_toList_of_root hr) ?_
  exact mem_cons_of_mem _ (mem_append_left _ (mem_toList_of_root h))

variable {fu : ℕ}

theorem insertRebalance_at (p : List (Crumb ℤ α)) (h : At s p t) (ha : Apart p t)
  (hro : t.root = some x) (hu : AvlTree.insertRebalance t p = some u)
  (hf : p.length < fu) : ∃ s', insertRebalance fu s x = some s' ∧ At s' [] u := by
  obtain ⟨fu, rfl⟩ : ∃ n, fu = n + 1 := Nat.exists_eq_succ_of_ne_zero (by omega)
  induction p generalizing s t x fu with
  | nil =>
    cases t with
    | nil => cases hro
    | node ft tl y tr =>
      cases hro
      cases hu
      have hp : s.parent x = none := h.2.1.1
      rw [insertRebalance, hp]
      exact ⟨s, rfl, h⟩
  | cons c p ih =>
    rw [length_cons] at hf
    obtain ⟨fu, rfl⟩ : ∃ n, fu = n + 1 := Nat.exists_eq_succ_of_ne_zero (by omega)
    cases t with
    | nil => cases hro
    | node ft tl y tr =>
      cases hro
      have hta : s.tag x = ft := h.2.1.2.1
      have ha' := (apart_cons c).mp ha
      cases c with
      | right fa l a =>
        have h' := at_right.mp h
        obtain ⟨⟨-, ht, -, hr⟩, -, -⟩ := h.1
        have hr : s.right a = some x := hr
        have hp : s.parent x = some a := h.2.1.1
        rw [insertRebalance, hp]
        dsimp only
        rw [if_pos hr, ht, hta]
        rw [AvlTree.insertRebalance] at hu
        by_cases hpo : fa > 0
        · rw [if_pos hpo] at hu ⊢
          simp only [AvlTree.balanceFactor, bind_eq_bind, bind_some] at hu
          by_cases hn : ft < 0
          · rw [if_pos hn] at hu ⊢
            obtain ⟨t', ht', hu⟩ := bind_eq_some_iff.mp hu
            cases hu
            exact (rebalanceRightLeft_gives h' ha' ht').at_fill
          · rw [if_neg hn] at hu ⊢
            obtain ⟨t', ht', hu⟩ := bind_eq_some_iff.mp hu
            cases hu
            exact (rebalanceLeft_gives h' ha' ht').at_fill
        · rw [if_neg hpo] at hu ⊢
          by_cases hn : fa < 0
          · rw [if_pos hn] at hu ⊢
            cases hu
            exact ⟨_, rfl, at_nil_fill.mpr (setTag_at h' ha' 0)⟩
          · rw [if_neg hn] at hu ⊢
            exact ih (setTag_at h' ha' 1) (ha'.of_toList rfl) rfl hu fu (by omega)
      | left fa a r =>
        have h' := at_left.mp h
        obtain ⟨⟨-, ht, -, hr⟩, -, -⟩ := h.1
        have ho : s.right a ≠ some x := by
          rw [hr]
          exact ne_other_child ha rfl
        have hp : s.parent x = some a := h.2.1.1
        rw [insertRebalance, hp]
        dsimp only
        rw [if_neg ho, ht, hta]
        rw [AvlTree.insertRebalance] at hu
        by_cases hn : fa < 0
        · rw [if_pos hn] at hu ⊢
          simp only [AvlTree.balanceFactor, bind_eq_bind, bind_some] at hu
          by_cases hpo : ft > 0
          · rw [if_pos hpo] at hu ⊢
            obtain ⟨t', ht', hu⟩ := bind_eq_some_iff.mp hu
            cases hu
            exact (rebalanceLeftRight_gives h' ha' ht').at_fill
          · rw [if_neg hpo] at hu ⊢
            obtain ⟨t', ht', hu⟩ := bind_eq_some_iff.mp hu
            cases hu
            exact (rebalanceRight_gives h' ha' ht').at_fill
        · rw [if_neg hn] at hu ⊢
          by_cases hpo : fa > 0
          · rw [if_pos hpo] at hu ⊢
            cases hu
            exact ⟨_, rfl, at_nil_fill.mpr (setTag_at h' ha' 0)⟩
          · rw [if_neg hpo] at hu ⊢
            exact ih (setTag_at h' ha' (-1)) (ha'.of_toList rfl) rfl hu fu (by omega)

theorem attach_left_at (h : At s (.left f a r :: path) .nil)
  (hap : Apart (.left f a r :: path) (.node 0 .nil x .nil)) (hl : s.left x = none)
  (hri : s.right x = none) (hta : s.tag x = 0) :
  At ((s.setLeft a (some x)).setParent x (some a)) (.left f a r :: path) (.node 0 .nil x .nil) := by
  obtain ⟨⟨⟨hp, ht, -, hrg⟩, hr, hpa⟩, -⟩ := h
  have hx := hap.disjoint x (by simp [Tree.toList])
  have ha := hap.outer
  simp only [outer, nodup_cons, mem_cons, mem_append, not_or] at hx ha
  have hs (y : α) (hya : y ≠ a) (hyx : y ≠ x) :
    SameAt s ((s.setLeft a (some x)).setParent x (some a)) y :=
    ⟨update_of_ne hya .., rfl, update_of_ne hyx .., rfl⟩
  refine ⟨⟨⟨?_, ht, update_self .., hrg⟩, ?_, ?_⟩, ⟨update_self .., hta, ?_, hri⟩,
    trivial, trivial⟩
  · exact (update_of_ne (Ne.symm hx.1) ..).trans hp
  · exact hr.congr fun y hy ↦ hs y (by grind) (by grind)
  · exact hpa.congr rfl fun y hy ↦ hs y (by grind) (by grind)
  · exact (update_of_ne hx.1 ..).trans hl

theorem attach_right_at (h : At s (.right f l a :: path) .nil)
  (hap : Apart (.right f l a :: path) (.node 0 .nil x .nil)) (hle : s.left x = none)
  (hr : s.right x = none) (hta : s.tag x = 0) :
  At ((s.setRight a (some x)).setParent x (some a)) (.right f l a :: path)
  (.node 0 .nil x .nil) := by
  obtain ⟨⟨⟨hp, ht, hlf, -⟩, hl, hpa⟩, -⟩ := h
  have hx := hap.disjoint x (by simp [Tree.toList])
  have ha := hap.outer
  simp only [outer, nodup_cons, mem_cons, mem_append, not_or] at hx ha
  have hs (y : α) (hya : y ≠ a) (hyx : y ≠ x) :
    SameAt s ((s.setRight a (some x)).setParent x (some a)) y :=
    ⟨rfl, update_of_ne hya .., update_of_ne hyx .., rfl⟩
  refine ⟨⟨⟨?_, ht, hlf, update_self ..⟩, ?_, ?_⟩, ⟨update_self .., hta, hle, ?_⟩,
    trivial, trivial⟩
  · exact (update_of_ne (Ne.symm hx.1) ..).trans hp
  · exact hl.congr fun y hy ↦ hs y (by grind) (by grind)
  · exact hpa.congr rfl fun y hy ↦ hs y (by grind) (by grind)
  · exact (update_of_ne hx.1 ..).trans hr

def attach (s : Links ℤ α) (x : α) : List (Crumb ℤ α) → Links ℤ α
  | [] => s
  | .left _ a _ :: _ => (s.setLeft a (some x)).setParent x (some a)
  | .right _ _ a :: _ => (s.setRight a (some x)).setParent x (some a)

variable {m : AvlLinks α}

theorem insertLoop_eq (co : α → α → Bool) (x : α) {c : α} (h : At m.toLinks path t)
  (hro : t.root = some c) (hf : t.toList.length < fu) :
  (∃ y, t.search (AvlTree.way (co x) (co · x)) = some y ∧
  m.insertLoop co x fu c = some (m, y, false)) ∨
  ∃ path', vacancy (AvlTree.way (co x) (co · x)) t path = some path' ∧
  m.insertLoop co x fu c = m.finishInsert (attach m.toLinks x path') x := by
  induction fu generalizing t path c with
  | zero => omega
  | succ fu ih =>
    cases t with
    | nil => cases hro
    | node f l a r =>
      cases hro
      obtain ⟨-, -, hl, hr⟩ := h.2.1
      rw [Tree.toList, length_append, length_cons] at hf
      rw [insertLoop, Tree.search, vacancy]
      by_cases hlt : co x c = true
      · have hw : AvlTree.way (co x) (co · x) c = .lt := if_pos hlt
        rw [if_pos hlt, hw]
        cases l with
        | nil =>
          rw [hl]
          exact .inr ⟨_, rfl, rfl⟩
        | node g ll b lr =>
          rw [hl]
          exact ih (at_left.mpr h) rfl (by omega)
      · rw [if_neg hlt]
        by_cases hgt : co c x = true
        · have hw : AvlTree.way (co x) (co · x) c = .gt := by
            rw [AvlTree.way, if_neg hlt, if_pos hgt]
          rw [if_pos hgt, hw]
          cases r with
          | nil =>
            rw [hr]
            exact .inr ⟨_, rfl, rfl⟩
          | node g rl b rr =>
            rw [hr]
            exact ih (at_right.mpr h) rfl (by omega)
        · have hw : AvlTree.way (co x) (co · x) c = .eq := by
            rw [AvlTree.way, if_neg hlt, if_neg hgt]
          rw [if_neg hgt, hw]
          exact .inl ⟨c, rfl, rfl⟩

omit [DecidableEq α] in
theorem findLoop_eq {les gr : α → Bool} {c : α} (h : At m.toLinks path t)
  (hro : t.root = some c) (hf : t.toList.length < fu) :
  m.findLoop les gr fu c = some (t.search (AvlTree.way les gr)) := by
  induction fu generalizing t path c with
  | zero => omega
  | succ fu ih =>
    cases t with
    | nil => cases hro
    | node f l a r =>
      cases hro
      obtain ⟨-, -, hl, hr⟩ := h.2.1
      rw [Tree.toList, length_append, length_cons] at hf
      rw [findLoop, Tree.search, AvlTree.way]
      cases hlt : les c with
      | true =>
        simp only [Bool.not_true, Bool.false_and, Bool.false_eq_true, if_false, if_true]
        cases l with
        | nil =>
          rw [hl]
          rfl
        | node g ll b lr =>
          rw [hl]
          exact ih (at_left.mpr h) rfl (by omega)
      | false =>
        cases hgt : gr c with
        | true =>
          simp only [Bool.not_true, Bool.and_false, Bool.false_eq_true, if_false, if_true]
          cases r with
          | nil =>
            rw [hr]
            rfl
          | node g rl b rr =>
            rw [hr]
            exact ih (at_right.mpr h) rfl (by omega)
        | false => rfl

end ReaverOS.Kernel.AvlLinks
