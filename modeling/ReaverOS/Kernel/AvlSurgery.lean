import ReaverOS.Kernel.AvlEraseLinks

namespace ReaverOS.Kernel.AvlLinks

open Function Foundation SearchTree Links List Option

section

variable {α : Type} [DecidableEq α] {s s₀ : Links ℤ α} {path : List (Crumb ℤ α)} {f g k : ℤ}
  {e n : α} {l r rr nr : Tree ℤ α}

theorem adjacent_at (h : At s path (.node f l e (.node g .nil n rr)))
  (ha : Apart path (.node f l e (.node g .nil n rr)))
  (hs : ∀ y ∉ outer path, SameAt s s₀ y) (hp : PathAt s₀ path (some n)) :
  At ((((s₀.setTag n f).setLeft n l.root).adopt l.root (some n)).setParent n (owner path)) path
  (.node f l n rr) := by
  obtain ⟨-, -, hl, ⟨-, -, -, hr⟩, -, hrr⟩ := h
  have hn := ha.tree
  have ho := ha.disjoint
  simp only [Tree.toList, nodup_append, nodup_cons, mem_append, mem_cons] at hn ho
  let m := (((s₀.setTag n f).setLeft n l.root).adopt l.root (some n)).setParent n (owner path)
  have hml (y : α) : m.left y = if y = n then l.root else s₀.left y := by
    simp [m, setParent, setLeft, setTag, adopt_left, update_apply]
  have hmr (y : α) : m.right y = s₀.right y := by
    simp [m, setParent, setLeft, setTag, adopt_right]
  have hmt (y : α) : m.tag y = if y = n then f else s₀.tag y := by
    simp [m, setParent, setLeft, setTag, adopt_tag, update_apply]
  have hm (y : α) : m.parent y = if y = n then owner path else
      if l.root = some y then some n else s₀.parent y := by
    simp [m, setParent, setLeft, setTag, adopt_parent, update_apply]
  have hms (y : α) (hyn : y ≠ n) (hy : y ∉ l.toList) : SameAt s₀ m y := by
    have hro : l.root ≠ some y := fun he ↦ hy (mem_toList_of_root he)
    simp [SameAt, hml, hmr, hmt, hm, hyn, hro]
  refine ⟨hp.congr ?_ fun y hy ↦ ?_, ⟨?_, ?_, ?_, ?_⟩, ?_, ?_⟩
  · simp [setParent, setLeft, setTag, adopt_root]
  · exact hms y (by grind) (by grind)
  · exact (hm n).trans (if_pos rfl)
  · exact (hmt n).trans (if_pos rfl)
  · exact (hml n).trans (if_pos rfl)
  · exact (hmr n).trans ((hs n (ho n (by simp))).2.1.trans hr)
  · refine hl.reparent (by grind) fun y hy ↦ ?_
    have hyn : y ≠ n := by grind
    obtain ⟨h', hr', hp', ht'⟩ := hs y (ho y (.inl hy))
    refine ⟨(hml y).trans ?_, (hmr y).trans hr', (hm y).trans ?_, (hmt y).trans ?_⟩
    · rwa [if_neg hyn]
    · rw [if_neg hyn, hp']
    · rwa [if_neg hyn]
  · refine hrr.congr fun y hy ↦ ?_
    exact (hs y (ho y (by simp [hy]))).trans (hms y (by grind) (by grind))

omit [DecidableEq α] in
theorem root_fill_cons (c : Crumb ℤ α) (i : List (Crumb ℤ α)) (t u : Tree ℤ α) :
  (fill (c :: i) t).root = (fill (c :: i) u).root := by
  induction i generalizing c t u with
  | nil => cases c <;> rfl
  | cons d i ih => exact ih d _ _

theorem takeOut_at {i : List (Crumb ℤ α)} {b : α}
  (h : At s path (.node f l e (fill (.left g b rr :: i) (.node k .nil n nr))))
  (ha : Apart path (.node f l e (fill (.left g b rr :: i) (.node k .nil n nr)))) :
  TreeAt ((s.setLeft b nr.root).adopt nr.root (some b)) (some e) (fill (.left g b rr :: i) nr) := by
  rw [← at_right, ← at_fill] at h
  have ha' : Apart (.left g b rr :: i ++ .right f l e :: path) (.node k .nil n nr) := by
    rw [apart_iff] at ha ⊢
    rw [fill_append]
    exact ha
  have hl : s.left b = some n := h.1.1.2.2.1
  have hs := h.splice ha' (u := nr) (.inr rfl)
  have hr : s.replace (owner (.left g b rr :: i ++ .right f l e :: path)) n nr.root =
    s.setLeft b nr.root := if_pos hl
  rw [hr, at_fill, at_right] at hs
  exact hs.2.2.2

/-- `n` with the tag `f` and the children `l` and `v` below `p`, and its old child below `b`. -/
def splice (s : Links ℤ α) (n b : α) (f : ℤ) (l nr v p : Option α) : Links ℤ α :=
  (((((((s.setTag n f).setLeft b nr).adopt nr (some b)).setLeft n l).adopt l (some n)).setRight
    n v).adopt v (some n)).setParent n p

section Splice

variable (s : Links ℤ α) (n b : α) (f : ℤ) (l nr v p : Option α) (y : α)

theorem splice_left : (splice s n b f l nr v p).left y =
  if y = n then l else if y = b then nr else s.left y := by
  simp [splice, setParent, setLeft, setRight, setTag, adopt_left, update_apply]

theorem splice_right : (splice s n b f l nr v p).right y = if y = n then v else s.right y := by
  simp [splice, setParent, setLeft, setRight, setTag, adopt_right, update_apply]

theorem splice_tag : (splice s n b f l nr v p).tag y = if y = n then f else s.tag y := by
  simp [splice, setParent, setLeft, setRight, setTag, adopt_tag, update_apply]

theorem splice_parent : (splice s n b f l nr v p).parent y =
  if y = n then p else if v = some y then some n else if l = some y then some n
  else if nr = some y then some b else s.parent y := by
  simp [splice, setParent, setLeft, setRight, setTag, adopt_parent, update_apply]

end Splice

theorem deep_at {i : List (Crumb ℤ α)} {b : α} {v : Option α}
  (h : At s path (.node f l e (fill (.left g b rr :: i) (.node k .nil n nr))))
  (ha : Apart path (.node f l e (fill (.left g b rr :: i) (.node k .nil n nr))))
  (hs : ∀ y ∉ outer path, SameAt s s₀ y) (hpa : PathAt s₀ path (some n))
  (hv : v = (fill (.left g b rr :: i) nr).root) :
  At (splice s₀ n b f l.root nr.root v (owner path)) path
  (.node f l n (fill (.left g b rr :: i) nr)) := by
  have ht := takeOut_at h ha
  have hl := h.2.2.1
  generalize hr : fill (.left g b rr :: i) (.node k .nil n nr) = r at h ha
  generalize hr' : fill (.left g b rr :: i) nr = r' at ht hv
  have hp : r.toList.Perm (n :: (nr.toList ++ outer (.left g b rr :: i))) :=
    hr ▸ perm_outer (.left g b rr :: i) (.node k .nil n nr)
  have hp' : r'.toList.Perm (nr.toList ++ outer (.left g b rr :: i)) :=
    hr' ▸ perm_outer (.left g b rr :: i) nr
  have hnd := ha.tree
  have ho := ha.disjoint
  simp only [Tree.toList, nodup_append, nodup_cons, mem_append, mem_cons] at hnd ho
  have hrn := nodup_cons.mp (hp.nodup_iff.mp hnd.2.1.2)
  have hn := hp.mem_iff.mpr mem_cons_self
  have hsu (y : α) (hy : y ∈ r'.toList) : y ∈ r.toList ∧ y ≠ n := by
    have hme := hp'.mem_iff.mp hy
    exact ⟨hp.mem_iff.mpr (mem_cons_of_mem _ hme), fun he ↦ hrn.1 (he ▸ hme)⟩
  have hb := hp'.mem_iff.mpr (mem_append_right _ mem_cons_self)
  -- Outside of the right subtree no link to its nodes is changed.
  have hyr (y : α) (hy : y ∉ r'.toList) : y ≠ b ∧ nr.root ≠ some y ∧ v ≠ some y := by
    refine ⟨fun he ↦ hy (he ▸ hb), fun he ↦ hy (hp'.mem_iff.mpr ?_), fun he ↦ hy ?_⟩
    · exact mem_append_left _ (mem_toList_of_root he)
    · exact mem_toList_of_root (hv ▸ he)
  refine ⟨hpa.congr ?_ fun y hy ↦ ?_, ⟨?_, ?_, ?_, ?_⟩, ?_, ?_⟩
  · simp [splice, setParent, setLeft, setRight, setTag, adopt_root]
  · have hyn : y ≠ n := by grind
    have hlr : l.root ≠ some y := fun he ↦ by
      have := mem_toList_of_root he
      grind
    obtain ⟨hyb, hnr, hvr⟩ := hyr y (by grind)
    simp [SameAt, splice_left, splice_right, splice_tag, splice_parent, hyn, hyb, hlr, hnr, hvr]
  · exact (splice_parent ..).trans (if_pos rfl)
  · exact (splice_tag ..).trans (if_pos rfl)
  · exact (splice_left ..).trans (if_pos rfl)
  · exact (splice_right ..).trans ((if_pos rfl).trans hv)
  · -- The nodes on the left keep all their links but that of the root to its parent.
    refine hl.reparent hnd.1 fun y hy ↦ ?_
    have hyn : y ≠ n := by grind
    obtain ⟨hyb, hnr, hvr⟩ := hyr y (by grind)
    obtain ⟨hl', h', hpr', ht'⟩ := hs y (ho y (.inl hy))
    rw [splice_left, splice_right, splice_parent, splice_tag, if_neg hyn, if_neg hyb, if_neg hyn,
      if_neg hyn, if_neg hvr, if_neg hnr, if_neg hyn, hpr']
    exact ⟨hl', h', rfl, ht'⟩
  · -- The nodes on the right are linked as they were with the next element taken out.
    refine ht.reparent (hp'.nodup_iff.mpr hrn.2) fun y hy ↦ ?_
    obtain ⟨hyr, hyn⟩ := hsu y hy
    have hno : l.root ≠ some y := fun he ↦ by
      have := mem_toList_of_root he
      grind
    obtain ⟨hl', h', hpr', ht'⟩ := hs y (ho y (.inr (.inr hyr)))
    refine ⟨(splice_left ..).trans ?_, (splice_right ..).trans ?_, (splice_parent ..).trans ?_,
      (splice_tag ..).trans ?_⟩
    · rw [if_neg hyn, adopt_left, hl']
      exact (update_apply ..).symm
    · rwa [if_neg hyn, adopt_right]
    · rw [if_neg hyn, if_neg hno, adopt_parent, hpr', hv]
      rfl
    · rwa [if_neg hyn, adopt_tag]

end

variable {α : Type} [DecidableEq α] {s : Links ℤ α} {path : List (Crumb ℤ α)} {f g : ℤ}
  {a b e n x : α} {t u v l r rr : Tree ℤ α} {fu : ℕ}

theorem eraseSingle_at (h : At s path (.node f l e r)) (hap : Apart path (.node f l e r))
  (hu : u = l ∨ u = r) (hv : AvlTree.eraseRebalance u path = some v) (hf : path.length ≤ fu) :
  ∃ s', eraseSingle fu s e u.root = some s' ∧ At s' [] v := by
  have hs := h.splice hap hu
  have he := hap.disjoint e (by simp [Tree.toList])
  cases path with
  | nil =>
    cases hv
    have hr : s.root = some e := h.1
    rw [eraseSingle, if_pos hr]
    exact ⟨_, rfl, hs⟩
  | cons c path =>
    obtain ⟨y, hy, hr⟩ := root_mem_outer h.1
    have hne : s.root ≠ some e := by
      intro heq
      cases hr.symm.trans heq
      exact he hy
    obtain ⟨a, ha⟩ : ∃ a, owner (c :: path) = some a := by
      cases c <;> exact ⟨_, rfl⟩
    have hp : s.parent e = some a := (parent_eq_owner h rfl).trans ha
    have hsi := left_eq_some_iff h hap rfl ha
    have hap' : Apart (c :: path) u := by
      apply hap.of_sublist
      obtain rfl | rfl := hu
      · exact sublist_append_left _ _
      · exact (sublist_cons_self _ _).trans (sublist_append_right _ _)
    rw [eraseSingle, if_neg hne, hp]
    simp only [bind_eq_bind, bind_some, hsi]
    rw [ha] at hs
    exact eraseRebalance_at (c :: path) hs hap' ha hv hf

theorem sameAt_relinkParent (h : At s path (.node f l e r)) {y : α} (hy : y ∉ outer path) :
  SameAt s (relinkParent s e n) y := by
  rw [relinkParent, parent_eq_owner h rfl]
  cases ho : owner path with
  | none => exact ⟨rfl, rfl, rfl, rfl⟩
  | some a =>
    have hne : some a ≠ some y := fun he ↦ hy (owner_mem (ho.trans he))
    exact sameAt_replace s e (some n) hne

theorem pathAt_relinkParent (h : At s path (.node f l e r)) (hp : Apart path (.node f l e r))
  (ha : owner path = some a) : PathAt (relinkParent s e n) path (some n) := by
  have hr := h.1.replace hp.outer (hp.disjoint e (by simp [Tree.toList])) (some n)
  rw [relinkParent, parent_eq_owner h rfl, ha]
  rwa [ha] at hr

theorem eraseAdjacent_at (h : At s path (.node f l e (.node g .nil n rr)))
  (hap : Apart path (.node f l e (.node g .nil n rr))) (ha : owner path = some a)
  (hv : AvlTree.eraseRebalance rr (.right f l n :: path) = some v) (hf : path.length < fu) :
  ∃ s', eraseAdjacent fu s e n = some s' ∧ At s' [] v := by
  have ho := hap.disjoint
  have hn := hap.tree
  simp only [Tree.toList, nodup_append, nodup_cons, mem_append, mem_cons] at ho hn
  have hen : e ≠ n := by grind
  have hle : l.root ≠ some e := fun he ↦ by
    have := mem_toList_of_root he
    grind
  obtain ⟨hl₀, hr₀, hp₀, ht₀⟩ := sameAt_relinkParent (n := n) h (ho e (by simp))
  obtain ⟨hp, ht, hl, hr⟩ := h.2.1
  have hat := at_right.mpr (adjacent_at h hap (fun y hy ↦ sameAt_relinkParent (n := n) h hy)
    (pathAt_relinkParent h hap ha))
  have hc : eraseAdjacent fu s e n = eraseRebalance fu
    (((((relinkParent s e n).setTag n f).setLeft n l.root).adopt l.root (some n)).setParent n
    (owner path)) n false := by
    have hl₁ : ((relinkParent s e n).setTag n f).left e = l.root := hl₀.trans hl
    have hl₂ : (((relinkParent s e n).setTag n f).setLeft n l.root).left n = l.root :=
      update_self ..
    have hp₁ : ((((relinkParent s e n).setTag n f).setLeft n l.root).adopt l.root
      (some n)).parent e = owner path := by
      rw [adopt_parent, if_neg hle]
      exact hp₀.trans hp
    have hp₂ : (((((relinkParent s e n).setTag n f).setLeft n l.root).adopt l.root
      (some n)).setParent n (owner path)).parent n = some a := (update_self ..).trans ha
    rw [eraseAdjacent]
    simp only [ht₀.trans ht, hl₁, hl₂, hp₁, hp₂]
  rw [hc]
  refine eraseRebalance_at (.right f l n :: path) hat ?_ rfl hv hf
  rw [apart_cons]
  apply hap.of_sublist
  simp [Crumb.fill, Tree.toList]

theorem eraseAdjacent_root_at (h : At s [] (.node f l e (.node g .nil n rr)))
  (ha : Apart [] (.node f l e (.node g .nil n rr))) (hv : AvlTree.eraseRoot f l n rr = some v) :
  ∃ s', eraseAdjacent fu s e n = some s' ∧ At s' [] v := by
  have hn := ha.tree
  simp only [Tree.toList, nodup_append, nodup_cons, mem_append, mem_cons] at hn
  have hen : e ≠ n := by grind
  have hle : l.root ≠ some e := fun he ↦ by
    have := mem_toList_of_root he
    grind
  obtain ⟨hp, ht, hl, -⟩ := h.2.1
  have hp : s.parent e = none := hp
  let m := (((s.setTag n f).setLeft n l.root).adopt l.root (some n)).setParent n none
  have hat : At { m with root := some n } [] (.node f l n rr) := by
    have hs (y : α) (_ : y ∉ outer ([] : List (Crumb ℤ α))) :
      SameAt s { s with root := some n } y := ⟨rfl, rfl, rfl, rfl⟩
    have hat := adjacent_at h ha hs rfl
    cases l <;> exact hat
  have ha' : Apart [] (.node f l n rr) := ha.of_sublist (by simp [Tree.toList])
  have hat' := setTag_at hat ha' (f - 1)
  have hc : eraseAdjacent fu s e n =
      if f < 0 then (rebalanceRight { m.setTag n (f - 1) with root := some n } n).map Prod.fst
      else some { m.setTag n (f - 1) with root := some n } := by
    have hr : relinkParent s e n = s := by rw [relinkParent, hp]
    have hl₁ : (s.setTag n f).left e = l.root := hl
    have hl₂ : ((s.setTag n f).setLeft n l.root).left n = l.root := update_self ..
    have hp₁ : (((s.setTag n f).setLeft n l.root).adopt l.root (some n)).parent e = none := by
      rw [adopt_parent, if_neg hle]
      exact hp
    have hp₂ : m.parent n = none := update_self ..
    have ht₁ : m.tag e = f := by
      simp [m, setParent, setLeft, setTag, adopt_tag, hen, ht]
    have ht₂ : (m.setTag n (f - 1)).tag e = f := (update_of_ne hen ..).trans ht₁
    rw [eraseAdjacent]
    simp only [hr, ht, hl₁, hl₂, hp₁]
    rw [show (((s.setTag n f).setLeft n l.root).adopt l.root (some n)).setParent n none = m
      from rfl, hp₂]
    simp only [ht₁, ht₂]
  rw [hc]
  rw [AvlTree.eraseRoot] at hv
  by_cases hf : f < 0
  · rw [if_pos hf] at hv ⊢
    exact (rebalanceRight_gives hat' (ha'.of_toList rfl) hv).at_fill
  · rw [if_neg hf] at hv ⊢
    cases hv
    exact ⟨_, rfl, hat'⟩

omit [DecidableEq α] in
theorem owner_eq_none (h : owner path = none) : path = [] := by
  cases path with
  | nil => rfl
  | cons c path => cases c <;> cases h

def deepLinks (s : Links ℤ α) (path : List (Crumb ℤ α)) (f : ℤ) (n a b c : α)
  (child : Option α) : Links ℤ α :=
  (((((((s.setTag n f).setLeft b child).adopt child (some b)).setLeft n (some a)).setParent a
    (some n)).setRight n (some c)).setParent c (some n)).setParent n (owner path)

theorem eraseDeep_eq (s : Links ℤ α) {child : Option α} {c : α}
  (hle : leftmost s fu x = some n) (hpa : s.parent e = owner path)
  (ht : s.tag e = f) (hl : s.left e = some a) (hri : s.right e = some c)
  (hp : s.parent n = some b) (hr : s.right n = child)
  (hs : ∀ y, y = e ∨ y = n → SameAt s (relinkParent s e n) y) (he : e ≠ b) (hec : e ≠ c)
  (hea : e ≠ a) (hc : child ≠ some e) :
  eraseDeep fu s e x = eraseRebalance fu (if owner path = none then
  { deepLinks (relinkParent s e n) path f n a b c child with root := some n }
  else deepLinks (relinkParent s e n) path f n a b c child) b true := by
  obtain ⟨hl₀, h, hpa₀, ht₀⟩ := hs e (.inl rfl)
  obtain ⟨-, hr₀, hp₀, -⟩ := hs n (.inr rfl)
  rw [eraseDeep, hle, bind_eq_bind, bind_some]
  generalize relinkParent s e n = s₀ at *
  have h₁ : (s₀.setTag n f).parent n = some b := hp₀.trans hp
  have h₂ : (s₀.setTag n f).right n = child := hr₀.trans hr
  have h₃ : ((s₀.setTag n f).setLeft b child).right n = child := h₂
  have h₄ : (((s₀.setTag n f).setLeft b child).adopt child (some b)).left e = some a := by
    rw [adopt_left]
    exact (update_of_ne he ..).trans (hl₀.trans hl)
  have h₅ : ((((s₀.setTag n f).setLeft b child).adopt child (some b)).setLeft n
    (some a)).left n = some a := update_self ..
  have h₆ : (((((s₀.setTag n f).setLeft b child).adopt child (some b)).setLeft n
    (some a)).setParent a (some n)).right e = some c := by
    simp only [setParent, setLeft, adopt_right]
    exact h.trans hri
  have h₇ : ((((((s₀.setTag n f).setLeft b child).adopt child (some b)).setLeft n
    (some a)).setParent a (some n)).setRight n (some c)).right n = some c := update_self ..
  have h₈ : (((((((s₀.setTag n f).setLeft b child).adopt child (some b)).setLeft n
    (some a)).setParent a (some n)).setRight n (some c)).setParent c (some n)).parent e =
        owner path := by
    refine (update_of_ne hec ..).trans ((update_of_ne hea ..).trans ?_)
    simp only [setLeft, adopt_parent, if_neg hc]
    exact hpa₀.trans hpa
  have h₉ : (deepLinks s₀ path f n a b c child).parent n = owner path := update_self ..
  simp only [bind_some, ht₀.trans ht, h₁, h₂, h₃, h₄, h₅, h₆, h₇, h₈]
  change eraseRebalance fu (if (deepLinks s₀ path f n a b c child).parent n = none then _ else _)
    b true = _
  rw [h₉]
  rfl

theorem eraseDeep_at {inner : List (Crumb ℤ α)} {k : ℤ} {nr : Tree ℤ α}
  (h : At s path (.node f l e (fill (.left g b rr :: inner) (.node k .nil n nr))))
  (ha : Apart path (.node f l e (fill (.left g b rr :: inner) (.node k .nil n nr))))
  (hl : l.root = some a) (hfi : before (.left g b rr :: inner) = [])
  (hlf : leftmost s fu x = some n)
  (hv : AvlTree.eraseRebalance nr (.left g b rr :: inner ++ .right f l n :: path) = some v)
  (hfu : (.left g b rr :: inner ++ .right f l n :: path).length ≤ fu) :
  ∃ s', eraseDeep fu s e x = some s' ∧ At s' [] v := by
  obtain ⟨hpr, ht, hle, hrg⟩ := h.2.1
  have hi := at_fill (.left g b rr :: inner) (.right f l e :: path) |>.mpr (at_right.mpr h)
  have hpa := hi.2.1.1
  have hri := hi.2.1.2.2.2
  have hr := root_fill_cons (.left g b rr) inner nr (.node k .nil n nr)
  have hp := perm_outer (.left g b rr :: inner) (.node k .nil n nr)
  obtain ⟨c, hc⟩ : ∃ c, (fill (.left g b rr :: inner) nr).root = some c := by
    cases hf : fill (.left g b rr :: inner) (.node k .nil n nr) with
    | nil =>
      rw [hf] at hp
      exact absurd hp.length_eq (by simp [Tree.toList])
    | node k' l' c' r' =>
      rw [hf] at hr
      exact ⟨c', hr⟩
  have hd (s₀ : Links ℤ α) (hs : ∀ y ∉ outer path, SameAt s s₀ y)
    (hpt : PathAt s₀ path (some n)) := deep_at h ha hs hpt hc.symm
  rw [hl] at hd
  rw [← hr, hc] at hrg
  have hli : (fill (.left g b rr :: inner) (.node k .nil n nr)).toList =
    n :: (fill (.left g b rr :: inner) nr).toList := by
    rw [toList_fill, toList_fill, hfi]
    rfl
  have hcm := mem_toList_of_root (hr.symm.trans hc)
  generalize fill (.left g b rr :: inner) (.node k .nil n nr) = r at *
  have hn := ha.tree
  have hou := ha.disjoint
  simp only [Tree.toList, nodup_append, nodup_cons, mem_append, mem_cons] at hn hou
  have hnm : n ∈ r.toList := hp.mem_iff.mpr (by simp [Tree.toList])
  have hb : b ∈ r.toList := hp.mem_iff.mpr (by simp [Tree.toList, outer])
  have ham := mem_toList_of_root hl
  have hen : e ≠ n := by grind
  have heb : e ≠ b := by grind
  have hec : e ≠ c := by grind
  have hea : e ≠ a := by grind
  have hnr : nr.root ≠ some e := by
    intro heq
    have : e ∈ r.toList := hp.mem_iff.mpr (by simp [Tree.toList, mem_toList_of_root heq])
    grind
  have hs (y : α) (hy : y ∉ outer path) : SameAt s (relinkParent s e n) y :=
    sameAt_relinkParent h hy
  rw [eraseDeep_eq s hlf hpr ht (hle.trans hl) hrg hpa hri ?_ heb hec hea hnr]
  · have hat : At (if owner path = none then
        { deepLinks (relinkParent s e n) path f n a b c nr.root with root := some n }
        else deepLinks (relinkParent s e n) path f n a b c nr.root) path
        (.node f l n (fill (.left g b rr :: inner) nr)) := by
      cases ho : owner path with
      | none =>
        obtain rfl := owner_eq_none ho
        have hat := hd { s with root := some n } (fun _ _ ↦ ⟨rfl, rfl, rfl, rfl⟩) rfl
        have hre : relinkParent s e n = s := by rw [relinkParent, hpr, ho]
        rw [if_pos rfl, hre]
        cases nr <;> exact hat
      | some d =>
        rw [if_neg (by simp)]
        exact hd _ hs (pathAt_relinkParent h ha ho)
    rw [← at_right, ← at_fill] at hat
    refine eraseRebalance_at (.left g b rr :: inner ++ .right f l n :: path) hat ?_ rfl hv hfu
    rw [apart_iff, fill_append, ← apart_iff, apart_cons]
    apply ha.of_sublist
    simp [Crumb.fill, Tree.toList, hli]
  · rintro y (rfl | rfl)
    · exact hs y (hou y (by simp))
    · exact hs y (hou y (by simp [hnm]))

end ReaverOS.Kernel.AvlLinks
