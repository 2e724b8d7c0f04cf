import ReaverOS.Foundation.BinaryHeap
import ReaverOS.Kernel.AvlSurgery

namespace ReaverOS.Kernel.AvlLinks

open Foundation BinaryHeap SearchTree Links

section

open Foundation

variable {γ α : Type} {lt : γ → γ → Bool} {k : γ} {x : α}

def Equivalent (lt : γ → γ → Bool) (a b : γ) : Prop := lt a b = false ∧ lt b a = false

variable {les gr : α → Bool} {a : α}

theorem way_eq_eq_iff : AvlTree.way les gr a = .eq ↔ les a = false ∧ gr a = false := by
  rw [AvlTree.way]
  cases les a <;> cases gr a <;> simp

theorem way_eq_lt_iff : AvlTree.way les gr a = .lt ↔ les a = true := by
  rw [AvlTree.way]
  cases les a <;> cases gr a <;> simp

theorem way_eq_gt_iff : AvlTree.way les gr a = .gt ↔ les a = false ∧ gr a = true := by
  rw [AvlTree.way]
  cases les a <;> cases gr a <;> simp

theorem directed_of_pairwise (pl : α → γ) (hl : StrictWeak lt) (k : γ) {xs : List α}
  (hs : xs.Pairwise fun a b ↦ lt (pl a) (pl b) = true) :
  Directed (AvlTree.way (fun a ↦ lt k (pl a)) fun a ↦ lt (pl a) k) xs := by
  refine hs.imp fun {a b} hab ↦ ?_
  rw [way_eq_lt_iff, way_eq_lt_iff, way_eq_gt_iff, way_eq_gt_iff]
  constructor
  · intro hk
    exact hl.lt_trans hk hab
  · intro h
    have hak := hl.lt_trans hab h.2
    exact ⟨Bool.eq_false_iff.mpr (hl.asymm _ _ hak), hak⟩

theorem search_spec (pl : α → γ) (hl : StrictWeak lt) {t : Tree ℤ α}
  (ht : t.toList.Pairwise fun a b ↦ lt (pl a) (pl b) = true) (k : γ) :
  ((t.search (AvlTree.way (fun a ↦ lt k (pl a)) fun a ↦ lt (pl a) k)).isSome ↔
  ∃ z ∈ t.toList, Equivalent lt k (pl z)) ∧
  ∀ z, t.search (AvlTree.way (fun a ↦ lt k (pl a)) fun a ↦ lt (pl a) k) = some z →
  z ∈ t.toList ∧ Equivalent lt k (pl z) := by
  have hs (z : α) (h : t.search (AvlTree.way (fun a ↦ lt k (pl a)) fun a ↦ lt (pl a) k) = some z) :
    z ∈ t.toList ∧ Equivalent lt k (pl z) := by
    obtain ⟨hm, hw⟩ := search_eq_some h
    exact ⟨hm, way_eq_eq_iff.mp hw⟩
  refine ⟨⟨fun h ↦ ?_, fun h ↦ ?_⟩, hs⟩
  · obtain ⟨z, hz⟩ := Option.isSome_iff_exists.mp h
    exact ⟨z, hs z hz⟩
  · obtain ⟨z, hm, he⟩ := h
    obtain ⟨y, hy⟩ := search_isSome (directed_of_pairwise pl hl k ht) ⟨z, hm, way_eq_eq_iff.mpr he⟩
    exact Option.isSome_iff_exists.mpr ⟨y, hy⟩

structure Valid (comp : α → α → Bool) (s : AvlLinks α) (t : Tree ℤ α) : Prop where
  links : At s.toLinks [] t
  balanced : AvlTree.Balanced t
  sorted : t.toList.Pairwise fun a b ↦ comp a b = true
  size : s.size = t.toList.length

theorem nodup_of_pairwise {c : α → α → Bool} (hc : StrictWeak c) {xs : List α}
  (h : xs.Pairwise fun a b ↦ c a b = true) : xs.Nodup := by
  refine h.imp fun {a b} hab heq ↦ ?_
  subst heq
  exact hc.irrefl a hab

variable [DecidableEq α] {comp : α → α → Bool} {s : AvlLinks α} {t : Tree ℤ α}

omit [DecidableEq α] in
theorem Valid.find_eq (v : Valid comp s t) (ls gr : α → Bool) :
  s.find ls gr = some (t.search (AvlTree.way ls gr)) := by
  rw [find, v.links.1]
  cases t with
  | nil => rfl
  | node f l a r => exact findLoop_eq v.links rfl (by rw [v.size]; omega)

structure Fresh (s : AvlLinks α) (x : α) : Prop where
  left : s.left x = none
  right : s.right x = none
  parent : s.parent x = none
  factor : s.tag x = 0

omit [DecidableEq α] in
theorem balanced_leaf (x : α) : AvlTree.Balanced (.node 0 .nil x .nil) :=
  ⟨rfl, by decide, by decide, trivial, trivial⟩

variable {p : List (Crumb ℤ α)}

theorem attach_at (h : At s.toLinks p .nil) (hn : p ≠ [])
  (ha : Apart p (.node 0 .nil x .nil)) (hx : s.Fresh x) :
  At (attach s.toLinks x p) p (.node 0 .nil x .nil) := by
  cases p with
  | nil => exact absurd rfl hn
  | cons c p =>
    cases c with
    | left f a r => exact attach_left_at h ha hx.left hx.right hx.factor
    | right f l a => exact attach_right_at h ha hx.left hx.right hx.factor

omit [DecidableEq α] in
theorem divides_of_vacancy (hc : StrictWeak comp) (ht : t.toList.Pairwise fun a b ↦ comp a b = true)
  (hp : vacancy (AvlTree.way (comp x) (comp · x)) t [] = some p) :
  (∀ a ∈ before p, comp x a = false ∧ comp a x = true) ∧ ∀ a ∈ after p, comp x a = true := by
  have hd : Directed (AvlTree.way (comp x) (comp · x)) t.toList := directed_of_pairwise id hc x ht
  obtain ⟨hb, h⟩ := vacancy_divides hd hp (by simp [before]) (by simp [after])
  exact ⟨fun a ha ↦ way_eq_gt_iff.mp (hb a ha), fun a ha ↦ way_eq_lt_iff.mp (h a ha)⟩

omit [DecidableEq α] in
theorem pairwise_insert (hco : StrictWeak comp) (ht : t.toList.Pairwise fun a b ↦ comp a b = true)
  (hp : vacancy (AvlTree.way (comp x) (comp · x)) t [] = some p)
  (hl : t.toList = before p ++ after p) :
  (before p ++ x :: after p).Pairwise fun a b ↦ comp a b = true := by
  obtain ⟨hbe, h⟩ := divides_of_vacancy hco ht hp
  rw [hl, List.pairwise_append] at ht
  obtain ⟨hpr, hpo, hc⟩ := ht
  refine List.pairwise_append.mpr ⟨hpr, List.pairwise_cons.mpr ⟨?_, hpo⟩, ?_⟩
  · exact h
  · intro a ha b hb
    obtain rfl | hb := List.mem_cons.mp hb
    · exact (hbe a ha).2
    · exact hc a ha b hb

theorem insert_vacant (hc : StrictWeak comp) (v : Valid comp s t) (hx : s.Fresh x)
  (hn : x ∉ t.toList) (hp : vacancy (AvlTree.way (comp x) (comp · x)) t [] = some p)
  (hne : p ≠ []) : ∃ s' t', s.finishInsert (attach s.toLinks x p) x = some (s', x, true) ∧
  Valid comp s' t' ∧ t.toList = before p ++ after p ∧ t'.toList = before p ++ x :: after p := by
  have hf : fill p .nil = t := fill_vacancy hp
  have hl : t.toList = before p ++ after p := by
    rw [← hf, toList_fill]
    rfl
  have hpe : t.toList.Perm (outer p) := by
    rw [← hf]
    exact perm_outer p .nil
  have ha : Apart p (.node 0 .nil x .nil) := by
    refine ⟨hpe.nodup_iff.mp (nodup_of_pairwise hc v.sorted), by simp [Tree.toList], ?_⟩
    intro y hy
    rw [Tree.toList, Tree.toList, List.nil_append, List.mem_singleton] at hy
    subst hy
    rwa [← hpe.mem_iff]
  have hat : At s.toLinks p .nil := by
    rw [← at_nil_fill, hf]
    exact v.links
  have hr : AvlTree.PathBalanced (AvlTree.height t) ([] : List (Crumb ℤ α)) := trivial
  obtain ⟨t', ht', hb, hl'⟩ := AvlTree.insertRebalance_settles p (balanced_leaf x) rfl
    (fun _ ↦ rfl) (AvlTree.pathBalanced_vacancy v.balanced hr hp)
  have hfu : p.length < s.size + 1 := by
    rw [v.size, hpe.length_eq]
    exact Nat.lt_succ_of_le (length_le_outer p)
  obtain ⟨ls, h, hat'⟩ := insertRebalance_at p (attach_at hat hne ha hx) ha rfl ht' hfu
  refine ⟨{ s with toLinks := ls, size := s.size + 1 }, t', ?_, ⟨hat', hb, ?_, ?_⟩, hl, hl'⟩
  · rw [finishInsert, h]
    rfl
  · rw [hl']
    exact pairwise_insert hc v.sorted hp hl
  · rw [hl', v.size, hl]
    simp [Tree.toList, add_assoc]

def onElements {κ : Type} (lt : κ ⊕ α → κ ⊕ α → Bool) (a b : α) : Bool := lt (.inr a) (.inr b)

omit [DecidableEq α] in
theorem strictWeak_onElements {κ : Type} {lt : κ ⊕ α → κ ⊕ α → Bool} (h : StrictWeak lt) :
  StrictWeak (onElements lt) :=
  ⟨fun a b ↦ h.asymm (.inr a) (.inr b), fun a b c ↦ h.trans (.inr a) (.inr b) (.inr c)⟩

omit [DecidableEq α] in
theorem eq_of_equivalent (hc : StrictWeak comp) (v : Valid comp s t) {y z : α}
  (hy : y ∈ t.toList) (hz : z ∈ t.toList) (hx : Equivalent comp x y)
  (hxz : Equivalent comp x z) : y = z := by
  by_contra hne
  have hp : t.toList.Pairwise fun a b ↦ comp a b = true ∨ comp b a = true := v.sorted.imp .inl
  have : Std.Symm fun a b ↦ comp a b = true ∨ comp b a = true := ⟨fun _ _ h ↦ h.symm⟩
  obtain h | h := hp.forall hy hz hne
  · exact hc.trans y x z (Bool.eq_false_iff.mp hx.2) (Bool.eq_false_iff.mp hxz.1) h
  · exact hc.trans z x y (Bool.eq_false_iff.mp hxz.2) (Bool.eq_false_iff.mp hx.1) h

theorem insert_outcome (hc : StrictWeak comp) (v : Valid comp s t) (hx : s.Fresh x)
  (hn : x ∉ t.toList) :
  (∃ y ∈ t.toList, Equivalent comp x y ∧ s.insert comp x = some (s, y, false)) ∨
  (∀ y ∈ t.toList, ¬ Equivalent comp x y) ∧ ∃ s' t' as bs,
  s.insert comp x = some (s', x, true) ∧ Valid comp s' t' ∧ t.toList = as ++ bs ∧
  t'.toList = as ++ x :: bs ∧ s'.size = s.size + 1 := by
  cases t with
  | nil =>
    have hr : s.root = none := v.links.1
    refine .inr ⟨fun y hy ↦ absurd hy List.not_mem_nil,
      { s with root := some x, size := s.size + 1 }, .node 0 .nil x .nil, [], [], ?_, ?_, rfl, rfl,
      rfl⟩
    · rw [insert, hr]
    · refine ⟨⟨rfl, ⟨hx.parent, hx.factor, hx.left, hx.right⟩, trivial, trivial⟩, balanced_leaf x,
        by simp [Tree.toList], ?_⟩
      exact congrArg (· + 1) v.size
  | node f l a r =>
    have hr : s.root = some a := v.links.1
    have hse := search_spec id hc v.sorted x
    rw [insert, hr]
    have hf : (Foundation.SearchTree.Tree.node f l a r).toList.length < s.size + 1 :=
      v.size ▸ Nat.lt_succ_self _
    obtain ⟨y, hy, hlo⟩ | ⟨p, hp, hlo⟩ := insertLoop_eq comp x v.links rfl hf
    · obtain ⟨hm, he⟩ := hse.2 y hy
      exact .inl ⟨y, hm, he, hlo⟩
    · have hne : p ≠ [] := by
        intro h
        subst h
        have hfi := fill_vacancy hp
        cases hfi
      obtain ⟨s', t', hs', v', hl, hl'⟩ := insert_vacant hc v hx hn hp hne
      refine .inr ⟨?_, s', t', _, _, hlo.trans hs', v', hl, hl', ?_⟩
      · obtain ⟨hb, ha⟩ := divides_of_vacancy hc v.sorted hp
        intro y hy he
        rw [hl] at hy
        obtain hy | hy := List.mem_append.mp hy
        · exact Bool.eq_false_iff.mp he.2 (hb y hy).2
        · exact Bool.eq_false_iff.mp he.1 (ha y hy)
      · rw [v'.size, v.size, hl, hl']
        simp [add_assoc]

/-- A lookup returns, and finds an element if and only if one is equivalent to the key. -/
def Finds {κ : Type} (lt : κ ⊕ α → κ ⊕ α → Bool) (s : AvlLinks α) (t : Tree ℤ α) : Prop :=
  ∀ k : κ, ∃ found, s.find (fun a ↦ lt (.inl k) (.inr a)) (fun a ↦ lt (.inr a) (.inl k)) =
    some found ∧ (found.isSome ↔ ∃ z ∈ t.toList, Equivalent lt (.inl k) (.inr z)) ∧
    ∀ z, found = some z → z ∈ t.toList ∧ Equivalent lt (.inl k) (.inr z)

omit [DecidableEq α] in
theorem Valid.finds {κ : Type} {lt : κ ⊕ α → κ ⊕ α → Bool} (h : StrictWeak lt)
  (v : Valid (onElements lt) s t) : Finds lt s t := by
  intro k
  obtain ⟨hi, hs⟩ := search_spec Sum.inr h v.sorted (.inl k)
  exact ⟨_, v.find_eq _ _, hi, hs⟩

theorem insert_balanced_ordered {κ α : Type} [DecidableEq α] (lt : κ ⊕ α → κ ⊕ α → Bool)
    (hlt : StrictWeak lt) (s : AvlLinks α) (t : Tree ℤ α) (v : Valid (onElements lt) s t) (x : α)
    (hnew : x ∉ t.toList) (hx : s.Fresh x) :
    ∃ s' t' y inserted, s.insert (onElements lt) x = some (s', y, inserted) ∧
      Valid (onElements lt) s' t' ∧ Finds lt s' t' ∧
      ((∀ z ∈ t.toList, ¬ Equivalent (onElements lt) x z) → y = x ∧ inserted = true ∧
        s'.size = s.size + 1 ∧ ∃ as bs, t.toList = as ++ bs ∧ t'.toList = as ++ x :: bs) ∧
      ∀ z ∈ t.toList, Equivalent (onElements lt) x z →
        y = z ∧ inserted = false ∧ s' = s ∧ t' = t := by
  have hc := strictWeak_onElements hlt
  obtain ⟨y, hy, h, hi⟩ | ⟨hn, s', t', as, bs, hi, v', hl, hl', hs⟩ := insert_outcome hc v hx hnew
  · refine ⟨s, t, y, false, hi, v, v.finds hlt, fun hn ↦ absurd h (hn y hy), ?_⟩
    intro z hz hxz
    exact ⟨eq_of_equivalent hc v hy hz h hxz, rfl, rfl, rfl⟩
  · refine ⟨s', t', x, true, hi, v', v'.finds hlt, fun _ ↦ ?_, ?_⟩
    · exact ⟨rfl, rfl, hs, as, bs, hl, hl'⟩
    · intro z hz hxz
      exact absurd hxz (hn z hz)

def byValue (a b : ℕ ⊕ ℕ) : Bool := a.elim id id < b.elim id id

theorem strictWeak_byValue : StrictWeak byValue := by
  refine ⟨fun a b h ↦ ?_, fun a b c h h' ↦ ?_⟩
  all_goals simp only [byValue, decide_eq_true_eq] at *
  all_goals omega

def twoElements : AvlLinks ℕ where
  left x := if x = 10 then some 5 else none
  right _ := none
  parent x := if x = 5 then some 10 else none
  tag x := if x = 10 then -1 else 0
  root := some 10
  size := 2

theorem valid_twoElements :
  Valid (onElements byValue) twoElements (.node (-1) (.node 0 .nil 5 .nil) 10 .nil) where
  links := ⟨rfl, ⟨rfl, rfl, rfl, rfl⟩, ⟨⟨rfl, rfl, rfl, rfl⟩, trivial, trivial⟩, trivial⟩
  balanced := ⟨rfl, by decide, by decide, balanced_leaf 5, trivial⟩
  sorted := by decide
  size := rfl

theorem insert_twoElements : ∃ s' t' y inserted,
  twoElements.insert (onElements byValue) 7 = some (s', y, inserted) ∧
  Valid (onElements byValue) s' t' ∧ Finds byValue s' t' ∧ y = 7 ∧ inserted = true ∧
  s'.size = 3 := by
  obtain ⟨s', t', y, inserted, h, v, hf, hn, -⟩ := insert_balanced_ordered byValue
    strictWeak_byValue twoElements _ valid_twoElements 7 (by decide) ⟨rfl, rfl, rfl, rfl⟩
  obtain ⟨hy, hi, hs, -⟩ := hn (by simp [Tree.toList, Equivalent, onElements, byValue])
  exact ⟨s', t', y, inserted, h, v, hf, hy, hi, hs⟩

end

section

variable {α : Type} [DecidableEq α] {s : Links ℤ α} {p : List (Crumb ℤ α)} {f g : ℤ}
  {a b e n x : α} {l r rl rr : Tree ℤ α} {fuel : ℕ}

def Erases (fuel : ℕ) (s : Links ℤ α) (e : α) (as : List α) (ok : Prop) : Prop :=
  ∃ s' t, eraseLinks fuel s e = some s' ∧ At s' [] t ∧ t.toList = as ∧ (AvlTree.Balanced t ↔ ok)

theorem eraseLinks_single (h : At s p (.node f l e r)) (ha : Apart p (.node f l e r))
  (hb : AvlTree.Balanced (.node f l e r))
  (hp : AvlTree.PathBalanced (AvlTree.height (.node f l e r)) p)
  (hn : l = .nil ∨ r = .nil) (hf : p.length ≤ fuel) :
  Erases fuel s e (before p ++ (l.toList ++ r.toList ++ after p)) True := by
  obtain ⟨-, -, hle, hri⟩ := h.2.1
  obtain ⟨-, -, -, hl, hr⟩ := hb
  obtain ⟨u, hu, hli, hub, hh, hc⟩ : ∃ u, (u = l ∨ u = r) ∧
    u.toList = l.toList ++ r.toList ∧ AvlTree.Balanced u ∧
    AvlTree.height (.node f l e r) = AvlTree.height u + 1 ∧
    eraseLinks fuel s e = eraseSingle fuel s e u.root := by
    obtain rfl | rfl := hn
    · refine ⟨r, .inr rfl, rfl, hr, by simp [AvlTree.height], ?_⟩
      rw [eraseLinks, hle, hri]
      rfl
    · refine ⟨l, .inl rfl, (List.append_nil _).symm, hl, by simp [AvlTree.height], ?_⟩
      rw [eraseLinks, hle, hri]
      cases l <;> rfl
  rw [hh] at hp
  obtain ⟨t, ht, htb, htl⟩ := AvlTree.eraseRebalance_settles p hub rfl hp
  obtain ⟨s', hs', hat⟩ := eraseSingle_at h ha hu ht hf
  exact ⟨s', t, hc.trans hs', hat, by rw [htl, hli], iff_of_true htb trivial⟩

theorem eraseLinks_adjacent (h : At s p (.node f l e (.node g .nil n rr)))
  (hap : Apart p (.node f l e (.node g .nil n rr)))
  (hb : AvlTree.Balanced (.node f l e (.node g .nil n rr)))
  (hp : AvlTree.PathBalanced (AvlTree.height (.node f l e (.node g .nil n rr))) p)
  (ha : l.root = some a) (hfu : p.length < fuel) :
  Erases fuel s e (before p ++ (l.toList ++ n :: rr.toList ++ after p))
  (¬ (p = [] ∧ f = -1 ∧ AvlTree.balanceFactor l = some 1)) := by
  obtain ⟨-, -, hle, hri⟩ := h.2.1
  have hlf : s.left n = none := h.2.2.2.1.2.2.1
  have hc : eraseLinks fuel s e = eraseAdjacent fuel s e n := by
    rw [eraseLinks, hle, hri, ha]
    simp only [Tree.root, hlf]
  cases p with
  | nil =>
    obtain ⟨t, ht, hli, hi⟩ := AvlTree.eraseRoot_spec hb
    obtain ⟨s', hs', hat⟩ := eraseAdjacent_root_at h hap ht
    refine ⟨s', t, hc.trans hs', hat, ?_, hi.trans (by simp)⟩
    simp [hli, before, after]
  | cons c p =>
    obtain ⟨d, hd⟩ : ∃ d, owner (c :: p) = some d := by
      cases c <;> exact ⟨_, rfl⟩
    obtain ⟨hf, hlo, hhi, hl, hr⟩ := hb
    have hh : AvlTree.height (.node g .nil n rr) = AvlTree.height rr + 1 := by
      simp [AvlTree.height]
    have hp' : AvlTree.PathBalanced (AvlTree.height rr + 1) (.right f l n :: c :: p) := by
      rw [← hh]
      exact ⟨⟨hf, hlo, hhi, hl⟩, hp⟩
    obtain ⟨t, ht, htb, hli⟩ := AvlTree.eraseRebalance_settles _ hr.2.2.2.2 rfl hp'
    obtain ⟨s', hs', hat⟩ := eraseAdjacent_at h hap hd ht hfu
    refine ⟨s', t, hc.trans hs', hat, ?_, iff_of_true htb (by simp)⟩
    simp [hli, before, after]

omit [DecidableEq α] in
theorem begins_left {i : List (Crumb ℤ α)} (h : before i = []) (hn : i ≠ []) :
  ∃ g b rr inner', i = .left g b rr :: inner' := by
  cases i with
  | nil => exact absurd rfl hn
  | cons c i =>
    cases c with
    | left g b rr => exact ⟨g, b, rr, i, rfl⟩
    | right g l b => simp [before] at h

theorem eraseLinks_deep (h : At s p (.node f l e (.node g rl b rr)))
  (hap : Apart p (.node f l e (.node g rl b rr)))
  (hba : AvlTree.Balanced (.node f l e (.node g rl b rr)))
  (hp : AvlTree.PathBalanced (AvlTree.height (.node f l e (.node g rl b rr))) p)
  (ha : l.root = some a) (hx : rl.root = some x)
  (hfu : (fill p (.node f l e (.node g rl b rr))).toList.length ≤ fuel) : Erases fuel s e
  (before p ++ (l.toList ++ (Foundation.SearchTree.Tree.node g rl b rr).toList ++
  after p)) True := by
  obtain ⟨-, -, hlf, hri⟩ := h.2.1
  obtain ⟨⟨-, -, hlef, -⟩, hrl, -⟩ := h.2.2.2
  have hco : eraseLinks fuel s e = eraseDeep fuel s e x := by
    rw [hx] at hlef
    rw [eraseLinks, hlf, hri, ha]
    simp only [Tree.root, hlef]
  have hfu' : rl.toList.length ≤ fuel := by
    simp only [toList_fill, Tree.toList, List.length_append, List.length_cons] at hfu
    omega
  obtain ⟨i, k, n, nr, hfi, hb, hle⟩ := leftmost_eq hrl hx hfu'
  have hfi' : fill (i ++ [.left g b rr]) (.node k .nil n nr) = .node g rl b rr := by
    rw [fill_append, hfi]
    rfl
  have hfr : before (i ++ [.left g b rr]) = [] := by
    rw [before_append, hb]
    rfl
  generalize hin : i ++ [.left g b rr] = whole at hfi' hfr
  obtain ⟨g', b', rr', i', rfl⟩ := begins_left hfr (by rw [← hin]; simp)
  rw [← hfi'] at h hap hba hp hfu ⊢
  obtain ⟨hf, hlo, hh, hl, hr⟩ := hba
  obtain ⟨hn, hi⟩ := AvlTree.balanced_of_fill _ hr
  have hne : AvlTree.PathBalanced _ (.right f l n :: p) := ⟨⟨hf, hlo, hh, hl⟩, hp⟩
  have hc := AvlTree.pathBalanced_append _ hi hne
  rw [AvlTree.height, AvlTree.height, Nat.zero_max] at hc
  obtain ⟨t, ht, htb, hli⟩ := AvlTree.eraseRebalance_settles _ hn.2.2.2.2 rfl hc
  have hln : (.left g' b' rr' :: i' ++ .right f l n :: p).length ≤ fuel := by
    have ho := length_le_outer (.left g' b' rr' :: i' ++ .right f l e :: p)
    have hpe := (perm_outer (.left g' b' rr' :: i' ++ .right f l e :: p)
      (.node k .nil n nr)).length_eq
    rw [fill_append] at hpe
    refine le_trans ?_ (hpe.symm.le.trans hfu)
    simp only [List.length_append, List.length_cons] at ho ⊢
    omega
  obtain ⟨s', hs', hat⟩ := eraseDeep_at h hap ha hfr hle ht hln
  refine ⟨s', t, hco.trans hs', hat, ?_, iff_of_true htb trivial⟩
  rw [hli, before_append, after_append, toList_fill, hfr]
  simp [before, after, Tree.toList]

theorem Erases.congr {as : List α} {ok ok' : Prop} (h : Erases fuel s e as ok) (ho : ok ↔ ok') :
  Erases fuel s e as ok' := by
  obtain ⟨s', t, hs', ha, hl, hi⟩ := h
  exact ⟨s', t, hs', ha, hl, hi.trans ho⟩

theorem eraseLinks_spec (h : At s p (.node f l e r)) (ha : Apart p (.node f l e r))
  (hb : AvlTree.Balanced (.node f l e r))
  (hp : AvlTree.PathBalanced (AvlTree.height (.node f l e r)) p)
  (hf : (fill p (.node f l e r)).toList.length ≤ fuel) :
  Erases fuel s e (before p ++ (l.toList ++ r.toList ++ after p))
  (¬ (p = [] ∧ f = -1 ∧ AvlTree.balanceFactor l = some 1 ∧ ∃ g n rr, r = .node g .nil n rr)) := by
  have hpe := (perm_outer p (.node f l e r)).length_eq
  have hl := length_le_outer p
  simp only [Tree.toList, List.length_append, List.length_cons] at hpe
  cases l with
  | nil =>
    refine (eraseLinks_single h ha hb hp (.inl rfl) (by omega)).congr ?_
    simp [AvlTree.balanceFactor]
  | node fl ll a lr =>
    cases r with
    | nil =>
      refine (eraseLinks_single h ha hb hp (.inr rfl) (by omega)).congr ?_
      simp
    | node g rl b rr =>
      cases rl with
      | nil =>
        refine (eraseLinks_adjacent h ha hb hp rfl (by omega)).congr ?_
        simp
      | node k rll c rlr =>
        refine (eraseLinks_deep h ha hb hp rfl rfl hf).congr ?_
        simp

/-- The case in which `erase` gets the balance wrong. -/
def Lopsided (s : AvlLinks α) (e : α) : Prop :=
  s.root = some e ∧ s.tag e = -1 ∧ ∃ l r, s.left e = some l ∧ s.tag l = 1 ∧
    s.right e = some r ∧ s.left r = none

omit [DecidableEq α] in
theorem lopsided_iff {s : AvlLinks α} (h : At s.toLinks p (.node f l e r))
  (ha : Apart p (.node f l e r)) :
  s.Lopsided e ↔ p = [] ∧ f = -1 ∧ AvlTree.balanceFactor l = some 1 ∧
  ∃ g n rr, r = .node g .nil n rr := by
  obtain ⟨-, hta, hle, hri⟩ := h.2.1
  have hr : s.root = some e ↔ p = [] := by
    constructor
    · intro he
      cases p with
      | nil => rfl
      | cons c p =>
        obtain ⟨y, hy, hr⟩ := root_mem_outer h.1
        cases hr.symm.trans he
        exact absurd hy (ha.disjoint e (by simp [Tree.toList]))
    · rintro rfl
      exact h.1
  have hl (b : α) (hb : l.root = some b) : AvlTree.balanceFactor l = some (s.tag b) := by
    cases l with
    | nil => cases hb
    | node fl ll a lr =>
      cases hb
      exact congrArg some h.2.2.1.1.2.1.symm
  rw [Lopsided, hr, hta, hle, hri]
  refine and_congr_right fun _ ↦ and_congr_right fun _ ↦ ⟨?_, ?_⟩
  · rintro ⟨b, n, hb, hbt, hn, hnl⟩
    refine ⟨by rw [hl b hb, hbt], ?_⟩
    cases r with
    | nil => cases hn
    | node g rl c rr =>
      cases hn
      have hrl : s.left n = rl.root := h.2.2.2.1.2.2.1
      rw [hnl] at hrl
      cases rl with
      | nil => exact ⟨g, n, rr, rfl⟩
      | node k rll d rlr => cases hrl
  · rintro ⟨hf, g, n, rr, rfl⟩
    cases l with
    | nil => cases hf
    | node fl ll a lr =>
      have ht := hl a rfl
      rw [hf] at ht
      exact ⟨a, n, rfl, (Option.some.inj ht).symm, rfl, h.2.2.2.1.2.2.1⟩

omit [DecidableEq α] in
theorem Valid.exists_path {c : α → α → Bool} (hc : StrictWeak c) {s : AvlLinks α}
  {t : Tree ℤ α} (v : Valid c s t) (he : e ∈ t.toList) :
  ∃ p f l r, fill p (.node f l e r) = t ∧ At s.toLinks p (.node f l e r) ∧
  Apart p (.node f l e r) := by
  obtain ⟨p, f, l, r, hf⟩ := exists_fill he
  refine ⟨p, f, l, r, hf, ?_, ?_⟩
  · rw [← at_nil_fill, hf]
    exact v.links
  · rw [apart_iff, hf]
    exact nodup_of_pairwise hc v.sorted

theorem erase_outcome {c : α → α → Bool} (hc : StrictWeak c) {s : AvlLinks α}
  {t : Tree ℤ α} (v : Valid c s t) (he : e ∈ t.toList) :
  ∃ s' t' as bs, s.erase e = some (s', bs.head?) ∧ At s'.toLinks [] t' ∧
  t.toList = as ++ e :: bs ∧ t'.toList = as ++ bs ∧ s'.size + 1 = s.size ∧
  s'.released = e :: s.released ∧ (AvlTree.Balanced t' ↔ ¬ s.Lopsided e) := by
  obtain ⟨p, f, l, r, rfl, h, ha⟩ := v.exists_path hc he
  obtain ⟨hb, hp⟩ := AvlTree.balanced_of_fill p v.balanced
  have hn := next_eq h ha v.size
  have hf : (fill p (.node f l e r)).toList.length ≤ s.size + 1 := by
    rw [v.size]
    exact Nat.le_succ _
  obtain ⟨ls, t', hl, h', hl', hi⟩ := eraseLinks_spec h ha hb hp hf
  refine ⟨{ toLinks := ls, size := s.size - 1, released := e :: s.released }, t',
    before p ++ l.toList, r.toList ++ after p, ?_, h', ?_, ?_, ?_, rfl, ?_⟩
  · rw [erase, hn, hl]
    rfl
  · simp [toList_fill, Tree.toList]
  · simp [hl']
  · have hpo : 0 < s.size := by
      rw [v.size]
      exact List.length_pos_of_mem he
    exact Nat.sub_add_cancel hpo
  · rw [hi, lopsided_iff h ha]

theorem erase_removes {α : Type} [DecidableEq α] (comp : α → α → Bool) (hcomp : StrictWeak comp)
    (s : AvlLinks α) (t : Tree ℤ α) (v : Valid comp s t) (e : α) (he : e ∈ t.toList) :
    ∃ s' t' as bs, s.erase e = some (s', bs.head?) ∧ At s'.toLinks [] t' ∧
      t.toList = as ++ e :: bs ∧ t'.toList = as ++ bs ∧ s'.size + 1 = s.size ∧
      s'.released = e :: s.released := by
  obtain ⟨s', t', as, bs, h, ha, hl, hl', hs, hr, -⟩ := erase_outcome hcomp v he
  exact ⟨s', t', as, bs, h, ha, hl, hl', hs, hr⟩

theorem erase_twoElements : ∃ s' t', twoElements.erase 5 = some (s', some 10) ∧
  At s'.toLinks [] t' ∧ t'.toList = [10] ∧ s'.size = 1 ∧ s'.released = [5] := by
  obtain ⟨s', t', as, bs, he, h, hl, hl', hs, hr⟩ :=
    erase_removes _ (strictWeak_onElements strictWeak_byValue) twoElements _ valid_twoElements 5
      (by decide)
  obtain ⟨rfl, rfl⟩ : as = [] ∧ bs = [10] := by
    cases as with
    | nil => exact ⟨rfl, (List.cons.inj hl).2.symm⟩
    | cons a as =>
      simp [Tree.toList, List.cons_eq_append_iff] at hl
  exact ⟨s', t', he, h, hl', Nat.succ.inj hs, hr⟩

theorem erase_balanced_iff {α : Type} [DecidableEq α] (comp : α → α → Bool)
    (hcomp : StrictWeak comp) (s : AvlLinks α) (t : Tree ℤ α) (v : Valid comp s t) (e : α)
    (he : e ∈ t.toList) : ∃ s' t' next, s.erase e = some (s', next) ∧ At s'.toLinks [] t' ∧
      (AvlTree.Balanced t' ↔ ¬ s.Lopsided e) := by
  obtain ⟨s', t', as, bs, h, ha, -, -, -, -, hi⟩ := erase_outcome hcomp v he
  exact ⟨s', t', bs.head?, h, ha, hi⟩

theorem erase_twoElements_balanced : ∃ s' t' next, twoElements.erase 10 = some (s', next) ∧
  At s'.toLinks [] t' ∧ AvlTree.Balanced t' := by
  obtain ⟨s', t', next, he, h, hi⟩ := erase_balanced_iff _
    (strictWeak_onElements strictWeak_byValue) twoElements _ valid_twoElements 10 (by decide)
  refine ⟨s', t', next, he, h, hi.mpr ?_⟩
  rintro ⟨-, -, -, r, -, -, hr, -⟩
  cases hr

def fourElements : AvlLinks ℕ where
  left x := if x = 10 then some 5 else none
  right x := if x = 10 then some 20 else if x = 5 then some 7 else none
  parent x := if x = 5 ∨ x = 20 then some 10 else if x = 7 then some 5 else none
  tag x := if x = 10 then -1 else if x = 5 then 1 else 0
  root := some 10
  size := 4

def fourTree : Tree ℤ ℕ :=
  .node (-1) (.node 1 .nil 5 (.node 0 .nil 7 .nil)) 10 (.node 0 .nil 20 .nil)

theorem valid_fourElements : Valid (onElements byValue) fourElements fourTree where
  links := ⟨rfl, ⟨rfl, rfl, rfl, rfl⟩, ⟨⟨rfl, rfl, rfl, rfl⟩, trivial, ⟨rfl, rfl, rfl, rfl⟩,
    trivial, trivial⟩, ⟨rfl, rfl, rfl, rfl⟩, trivial, trivial⟩
  balanced := ⟨rfl, by decide, by decide, ⟨rfl, by decide, by decide, trivial, balanced_leaf 7⟩,
    balanced_leaf 20⟩
  sorted := by decide
  size := rfl

def leaningTree : Tree ℤ ℕ :=
  .node 0 .nil 5 (.node 0 (.node 0 .nil 7 .nil) 20 .nil)

theorem erase_fourElements_unbalanced : Valid (onElements byValue) fourElements fourTree ∧
    ∃ s', fourElements.erase 10 = some (s', some 20) ∧ At s'.toLinks [] leaningTree ∧
      ¬ AvlTree.Balanced leaningTree := by
  refine ⟨valid_fourElements, _, rfl, ?_, ?_⟩
  · exact ⟨rfl, ⟨rfl, rfl, rfl, rfl⟩, trivial, ⟨rfl, rfl, rfl, rfl⟩, ⟨⟨rfl, rfl, rfl, rfl⟩,
      trivial, trivial⟩, trivial⟩
  · rintro ⟨hf, -⟩
    exact absurd hf (by decide)

end

open Function

variable {α : Type} [DecidableEq α]

def flatten : (fuel : ℕ) → Links ℤ α → Option (Links ℤ α)
  | 0, _ => none
  | fuel + 1, s =>
    s.root.bind fun root ↦
      match s.left root with
      | none => some s
      | some _ => (rotateRight s root).bind fun out ↦ flatten fuel out.1

def destroyLoop : (fuel : ℕ) → AvlLinks α → Option (AvlLinks α)
  | 0, _ => none
  | fuel + 1, s =>
    match s.root with
    | none => some s
    | some _ =>
      (flatten (s.size + 1) s.toLinks).bind fun links ↦
        links.root.bind fun oldRoot ↦
          match links.right oldRoot with
          | none => some { s with toLinks := { links with root := none } }
          | some root => destroyLoop fuel { s with
            toLinks := ({ links with root := some root } : Links ℤ α).setParent root none
            released := oldRoot :: s.released }

def destroy (s : AvlLinks α) : Option (AvlLinks α) := destroyLoop (s.size + 1) s

theorem flatten_at {s : Links ℤ α} {f : ℤ} {l r : Tree ℤ α} {a : α} {m : ℕ}
  (h : At s [] (.node f l a r)) (ha : Apart [] (.node f l a r)) (hf : l.toList.length < m) :
  ∃ s' g b r', flatten m s = some s' ∧ At s' [] (.node g .nil b r') ∧
  b :: r'.toList = l.toList ++ a :: r.toList := by
  induction m generalizing s f l r a with
  | zero => omega
  | succ m ih =>
    have hr : s.root = some a := h.1
    obtain ⟨-, -, hl, -⟩ := h.2.1
    rw [flatten, hr, Option.bind_some, hl]
    cases l with
    | nil => exact ⟨s, f, a, r, rfl, h, rfl⟩
    | node g ll b lr =>
      obtain ⟨s', hs', ht⟩ := rotateRight_at h ha
      rw [Tree.toList, List.length_append, List.length_cons] at hf
      obtain ⟨s'', g', b', r', hfl, ht', hli⟩ := ih ht (ha.of_toList
        (by simp [Tree.toList])) (by omega)
      refine ⟨s'', g', b', r', ?_, ht', by rw [hli]; simp [Tree.toList]⟩
      simp only [Tree.root, hs', Option.bind_some, hfl]

theorem dropRoot_at {s : Links ℤ α} {f g : ℤ} {rl rr : Tree ℤ α} {a b : α}
  (h : At s [] (.node f .nil a (.node g rl b rr)))
  (ha : Apart [] (.node f .nil a (.node g rl b rr))) :
  At (({ s with root := some b } : Links ℤ α).setParent b none) [] (.node g rl b rr) := by
  have hr : TreeAt s (some a) (.node g rl b rr) := h.2.2.2
  have hn := ha.tree
  rw [Tree.toList, Tree.toList, List.nil_append, List.nodup_cons] at hn
  refine ⟨rfl, hr.reparent hn.2 fun x _ ↦ ⟨rfl, rfl, ?_, rfl⟩⟩
  simp [Links.setParent, update_apply, Tree.root, eq_comm, owner]

theorem destroyLoop_eq {s : AvlLinks α} {t : Tree ℤ α} {m : ℕ} (h : At s.toLinks [] t)
  (ha : Apart [] t) (hs : t.toList.length ≤ s.size) (hf : t.toList.length < m) :
  ∃ s', destroyLoop m s = some s' ∧ s'.root = none ∧
  s'.released = t.toList.dropLast.reverse ++ s.released := by
  induction m generalizing s t with
  | zero => omega
  | succ m ih =>
    have hr : s.root = t.root := h.1
    cases t with
    | nil => exact ⟨s, by rw [destroyLoop, hr]; rfl, hr, rfl⟩
    | node f l a r =>
      have hle : l.toList.length < s.size + 1 := by
        rw [Tree.toList, List.length_append] at hs
        omega
      obtain ⟨ls, g, b, r', hfl, ht, hl⟩ := flatten_at h ha hle
      have hl' : (Foundation.SearchTree.Tree.node g .nil b r').toList =
        (Foundation.SearchTree.Tree.node f l a r).toList := hl
      have ha' : Apart [] (.node g .nil b r') := ha.of_toList hl'
      obtain ⟨-, -, -, hri⟩ := ht.2.1
      have hr' : ls.root = some b := ht.1
      rw [← hl', Tree.toList, Tree.toList, List.nil_append] at hs hf ⊢
      rw [destroyLoop, hr]
      simp only [Tree.root, hfl, hr', Option.bind_some, hri]
      cases r' with
      | nil => exact ⟨_, rfl, rfl, rfl⟩
      | node k rl c rr =>
        simp only
        rw [List.length_cons] at hs hf
        obtain ⟨s', hs', hn, hre⟩ := ih (s := { s with
            toLinks := ({ ls with root := some c } : Links ℤ α).setParent c none
            released := b :: s.released }) (dropRoot_at ht ha')
          ⟨List.nodup_nil, (List.nodup_cons.mp ha'.tree).2, fun _ _ ↦ List.not_mem_nil⟩
          (Nat.le_of_succ_le hs) (Nat.lt_of_succ_lt_succ hf)
        refine ⟨s', hs', hn, ?_⟩
        have hne : (Foundation.SearchTree.Tree.node k rl c rr).toList ≠ [] := by simp [Tree.toList]
        rw [hre, List.dropLast_cons_of_ne_nil hne, List.reverse_cons, List.append_assoc]
        rfl

def ReleasesAll (s : AvlLinks α) (t : Tree ℤ α) : Prop :=
  ∃ s' handed, s.destroy = some s' ∧ s'.released = handed ++ s.released ∧ handed.Perm t.toList

theorem destroy_eq {c : α → α → Bool} (hc : StrictWeak c) {s : AvlLinks α} {t : Tree ℤ α}
  (v : Valid c s t) :
  ∃ s', s.destroy = some s' ∧ s'.released = t.toList.dropLast.reverse ++ s.released := by
  have ha : Apart [] t := apart_iff.mpr (nodup_of_pairwise hc v.sorted)
  obtain ⟨s', hs', -, hr⟩ := destroyLoop_eq v.links ha v.size.ge (Nat.lt_succ_of_le v.size.ge)
  exact ⟨s', hs', hr⟩

theorem releasesAll_iff {α : Type} [DecidableEq α] (comp : α → α → Bool) (hcomp : StrictWeak comp)
    (s : AvlLinks α) (t : Tree ℤ α) (v : Valid comp s t) :
    (∃ s', s.destroy = some s' ∧ s'.released = t.toList.dropLast.reverse ++ s.released) ∧
      (ReleasesAll s t ↔ t.toList = []) := by
  obtain ⟨s', hs', hr⟩ := destroy_eq hcomp v
  refine ⟨⟨s', hs', hr⟩, ?_, fun hn ↦ ⟨s', [], hs', ?_, ?_⟩⟩
  · rintro ⟨s'', ha, hs'', hr', hp⟩
    cases hs'.symm.trans hs''
    have hh := List.append_cancel_right (hr.symm.trans hr')
    have hl := hp.length_eq
    rw [← hh, List.length_reverse, List.length_dropLast] at hl
    exact List.length_eq_zero_iff.mp (by omega)
  · rw [hr, hn]
    rfl
  · rw [hn]

def noElements : AvlLinks ℕ where
  left _ := none
  right _ := none
  parent _ := none
  tag _ := 0
  root := none
  size := 0

theorem valid_noElements : Valid (onElements byValue) noElements .nil where
  links := ⟨rfl, trivial⟩
  balanced := trivial
  sorted := List.Pairwise.nil
  size := rfl

theorem releasesAll_noElements : ReleasesAll noElements .nil :=
  (releasesAll_iff _ (strictWeak_onElements strictWeak_byValue) _ _ valid_noElements).2.mpr rfl

theorem destroy_twoElements_keeps :
    Valid (onElements byValue) twoElements (.node (-1) (.node 0 .nil 5 .nil) 10 .nil) ∧
      (twoElements.destroy.map AvlLinks.released) = some [5] ∧
      ¬ ReleasesAll twoElements (.node (-1) (.node 0 .nil 5 .nil) 10 .nil) := by
  have hd : twoElements.destroy.map AvlLinks.released = some [5] := by decide
  refine ⟨valid_twoElements, hd, ?_⟩
  rintro ⟨s', ha, hs', hr, hp⟩
  rw [hs', Option.map_some, hr, Option.some.injEq] at hd
  have hl := hp.length_eq
  rw [show ha = [5] from (List.append_nil ha).symm.trans hd] at hl
  cases hl

end ReaverOS.Kernel.AvlLinks
