import ReaverOS.Kernel.AvlSet

namespace ReaverOS.Kernel.AvlLinks

section

open List Option

open Foundation BinaryHeap SearchTree
  Foundation.SearchTree.Links

variable {α : Type} [DecidableEq α]

def begin (s : AvlLinks α) : Option (Option α) :=
  match s.root with
  | none => some none
  | some root => (leftmost s.toLinks (s.size + 1) root).map some

def rightmost (s : Links ℤ α) : (fuel : ℕ) → (x : α) → Option α
  | 0, _ => none
  | fuel + 1, x =>
    match s.right x with
    | none => some x
    | some right => rightmost s fuel right

def climbBack (s : Links ℤ α) : (fuel : ℕ) → (x : α) → Option (Option α)
  | 0, _ => none
  | fuel + 1, x =>
    match s.parent x with
    | none => some none
    | some parent => if s.left parent = some x then climbBack s fuel parent else some (some x)

def prev (s : AvlLinks α) (x : α) : Option (Option α) :=
  match s.left x with
  | some left => (rightmost s.toLinks (s.size + 1) left).map some
  | none => climbBack s.toLinks (s.size + 1) x

def increments (s : AvlLinks α) : (n : ℕ) → (it : Option α) → Option (List α × Option α)
  | 0, it => some ([], it)
  | _ + 1, none => none
  | n + 1, some x => (s.next x).bind fun it ↦ (s.increments n it).map fun out ↦ (x :: out.1, out.2)

section Links

variable {s : Links ℤ α} {pa : List (Crumb ℤ α)} {t : Tree ℤ α} {x y : α} {fuel : ℕ}

omit [DecidableEq α] in
theorem rightmost_eq {p : Option α} (h : TreeAt s p t) (hx : t.root = some x)
  (hf : t.toList.length ≤ fuel) : ∃ as n, t.toList = as ++ [n] ∧ rightmost s fuel x = some n := by
  induction t generalizing p x fuel with
  | nil => cases hx
  | node k l a r _ i =>
    obtain rfl : a = x := some.inj hx
    obtain ⟨⟨-, -, -, hri⟩, -, hr⟩ := h
    cases fuel with
    | zero => simp [Tree.toList] at hf
    | succ fuel =>
      rw [rightmost, hri]
      cases r with
      | nil => exact ⟨l.toList, a, rfl, rfl⟩
      | node k' l' b r' =>
        have hle : (Foundation.SearchTree.Tree.node k' l' b r').toList.length ≤ fuel := by
          rw [Tree.toList, length_append, length_cons] at hf
          omega
        obtain ⟨as, n, hl, hrg⟩ := i hr rfl hle
        refine ⟨l.toList ++ a :: as, n, ?_, hrg⟩
        rw [Tree.toList, hl, append_assoc, cons_append]

theorem climbBack_ne (h : At s pa t) (ha : Apart pa t) (hx : t.root = some x)
  (hy : (before pa).getLast? = some y) : climbBack s fuel x ≠ some (some y) := by
  induction pa generalizing t x fuel with
  | nil => cases hy
  | cons c pa ih =>
    cases fuel with
    | zero => exact nofun
    | succ fuel =>
      cases c with
      | left f a r =>
        have hp : s.parent x = some a := parent_eq_owner h hx
        have hs := left_eq_some_iff h ha hx rfl
        simp only [beginsLeft, decide_eq_true_eq] at hs
        rw [climbBack, hp]
        simp only [if_pos hs]
        exact ih (at_cons _ |>.mp h) (apart_cons _ |>.mp ha) rfl hy
      | right f l a =>
        have hp : s.parent x = some a := parent_eq_owner h hx
        have hs := left_eq_some_iff h ha hx rfl
        simp only [beginsLeft, decide_eq_false_iff_not] at hs
        rw [before, ← append_assoc, getLast?_concat, some.injEq] at hy
        subst hy
        rw [climbBack, hp]
        simp only [if_neg hs]
        rintro heq
        cases heq
        exact ha.disjoint _ (mem_toList_of_root hx) mem_cons_self

theorem climbBack_mem (h : At s pa t) (hx : t.root = some x)
  (hy : climbBack s fuel x = some (some y)) : y ∈ (fill pa t).toList := by
  induction pa generalizing t x fuel with
  | nil =>
    cases fuel with
    | zero => cases hy
    | succ fuel =>
      rw [climbBack, show s.parent x = none from parent_eq_owner h hx] at hy
      cases hy
  | cons c pa ih =>
    cases fuel with
    | zero => cases hy
    | succ fuel =>
      have hs : x ∈ (fill (c :: pa) t).toList := by
        rw [toList_fill]
        exact mem_append_right _ (mem_append_left _ (mem_toList_of_root hx))
      cases c with
      | left f a r =>
        rw [climbBack, show s.parent x = some a from parent_eq_owner h hx] at hy
        simp only at hy
        split at hy
        · exact ih (at_cons _ |>.mp h) rfl hy
        · cases hy
          exact hs
      | right f l a =>
        rw [climbBack, show s.parent x = some a from parent_eq_owner h hx] at hy
        simp only at hy
        split at hy
        · exact ih (at_cons _ |>.mp h) rfl hy
        · cases hy
          exact hs

end Links

section Valid

variable {comp : α → α → Bool} {s : AvlLinks α} {t : Tree ℤ α} {as bs : List α} {x y : α}

omit [DecidableEq α] in
theorem Valid.split (hc : StrictWeak comp) (v : Valid comp s t) (hl : t.toList = as ++ x :: bs) :
  ∃ pa f l r, fill pa (.node f l x r) = t ∧ At s.toLinks pa (.node f l x r) ∧
  Apart pa (.node f l x r) ∧ as = before pa ++ l.toList ∧ bs = r.toList ++ after pa := by
  have hm : x ∈ t.toList := by
    rw [hl]
    exact mem_append_right _ mem_cons_self
  obtain ⟨pa, f, l, r, hf, h, ha⟩ := v.exists_path hc hm
  have hn := nodup_of_pairwise hc v.sorted
  rw [hl, nodup_middle, nodup_cons, mem_append, not_or] at hn
  have heq : as ++ x :: bs = (before pa ++ l.toList) ++ x :: (r.toList ++ after pa) := by
    rw [← hl, ← hf, toList_fill]
    simp [Tree.toList]
  obtain ⟨has, -, hs⟩ := (append_cons_inj_of_notMem hn.1.1 hn.1.2).mp heq
  exact ⟨pa, f, l, r, hf, h, ha, has, hs⟩

theorem Valid.next_eq (hc : StrictWeak comp) (v : Valid comp s t)
  (hl : t.toList = as ++ x :: bs) : s.next x = some bs.head? := by
  obtain ⟨pa, f, l, r, rfl, h, ha, -, rfl⟩ := v.split hc hl
  exact AvlLinks.next_eq h ha v.size

theorem Valid.prev_eq (hc : StrictWeak comp) (v : Valid comp s t)
  (h : t.toList = as ++ y :: bs) (hle : s.left y ≠ none) : s.prev y = some as.getLast? := by
  obtain ⟨pa, f, l, r, rfl, ht, -, rfl, -⟩ := v.split hc h
  have hs := v.size
  obtain ⟨-, -, hlf, -⟩ := ht.2.1
  rw [hlf] at hle
  obtain ⟨a, ha⟩ := ne_none_iff_exists'.mp hle
  have hf : l.toList.length ≤ s.size + 1 := by
    rw [hs, h, length_append, length_append]
    omega
  obtain ⟨as, n, hl, hr⟩ := rightmost_eq ht.2.2.1 ha hf
  rw [prev, hlf, ha]
  simp only [hr, map_some]
  rw [hl, ← append_assoc, getLast?_concat]

theorem Valid.prev_ne (hc : StrictWeak comp) (v : Valid comp s t)
  (hli : t.toList = as ++ y :: bs) (hle : s.left y = none) (hx : as.getLast? = some x) :
  s.prev y ≠ some (some x) := by
  obtain ⟨pa, f, l, r, rfl, h, ha, rfl, -⟩ := v.split hc hli
  obtain ⟨-, -, hl, -⟩ := h.2.1
  rw [hle] at hl
  cases l with
  | node g ll a lr => cases hl
  | nil =>
    rw [Tree.toList, append_nil] at hx
    rw [prev, hle]
    exact climbBack_ne h ha rfl hx

theorem Valid.prev_mem (hc : StrictWeak comp) (v : Valid comp s t) (hy : y ∈ t.toList)
  (hx : s.prev y = some (some x)) : x ∈ t.toList := by
  obtain ⟨as, bs, hl⟩ := append_of_mem hy
  by_cases hle : s.left y = none
  · obtain ⟨pa, f, l, r, rfl, h, -⟩ := v.split hc hl
    rw [prev, hle] at hx
    exact climbBack_mem h rfl hx
  · rw [v.prev_eq hc hl hle, some.injEq] at hx
    rw [hl]
    exact mem_append_left _ (mem_of_getLast? hx)

omit [DecidableEq α] in
theorem Valid.begin_eq (v : Valid comp s t) : s.begin = some t.toList.head? := by
  have hr := v.links.1
  rw [begin, hr]
  cases t with
  | nil => rfl
  | node f l a r =>
    obtain ⟨i, k, n, nr, hf, hb, hl⟩ := leftmost_eq v.links.2 rfl (Nat.le_succ_of_le v.size.ge)
    simp only [Tree.root, hl, map_some]
    rw [← hf, toList_fill, hb]
    rfl

theorem Valid.increments_eq (hc : StrictWeak comp) (v : Valid comp s t)
  (hl : t.toList = as ++ bs) : s.increments bs.length bs.head? = some (bs, none) := by
  induction bs generalizing as with
  | nil => rfl
  | cons x bs ih =>
    have hl' : t.toList = (as ++ [x]) ++ bs := by
      rw [hl, append_assoc, singleton_append]
    rw [length_cons, head?_cons, increments, v.next_eq hc hl, bind_some, ih hl']
    rfl

structure TwoWay (s : AvlLinks α) (t : Tree ℤ α) : Prop where
  visits : s.begin.bind (s.increments s.size) = some (t.toList, none)
  back : ∀ as x y bs, t.toList = as ++ x :: y :: bs → s.prev y = some (some x)
  undoes : ∀ x ∈ t.toList, ∀ y, s.next x = some (some y) → s.prev y = some (some x)

theorem twoWay_iff {α : Type} [DecidableEq α] (comp : α → α → Bool) (hcomp : StrictWeak comp)
    (s : AvlLinks α) (t : Tree ℤ α) (v : Valid comp s t) :
    TwoWay s t ↔ ∀ y ∈ t.toList.tail, s.left y ≠ none := by
  constructor
  · intro h y hy hle
    obtain ⟨x, xs, hl⟩ : ∃ x xs, t.toList = x :: xs := by
      cases hl : t.toList with
      | nil =>
        rw [hl] at hy
        cases hy
      | cons x xs => exact ⟨x, xs, rfl⟩
    rw [hl, tail_cons] at hy
    obtain ⟨as, bs, rfl⟩ := append_of_mem hy
    obtain ⟨cs, z, hs⟩ := eq_nil_or_concat' (x :: as) |>.resolve_left (cons_ne_nil _ _)
    have hl' : t.toList = (cs ++ [z]) ++ y :: bs := by
      rw [hl, ← hs, cons_append]
    refine v.prev_ne hcomp hl' hle getLast?_concat (h.back cs z y bs ?_)
    rw [hl', append_assoc, singleton_append]
  · intro h
    have hb (as : List α) (x y : α) (bs : List α) (hl : t.toList = as ++ x :: y :: bs) :
      s.prev y = some (some x) := by
      have hy : y ∈ t.toList.tail := by
        rw [hl]
        cases as with
        | nil => exact mem_cons_self
        | cons a as => exact mem_append_right _ (mem_cons_of_mem _ mem_cons_self)
      have hl' : t.toList = (as ++ [x]) ++ y :: bs := by
        rw [hl, append_assoc, singleton_append]
      rw [v.prev_eq hcomp hl' (h y hy), getLast?_concat]
    refine ⟨?_, hb, fun x hx y hy ↦ ?_⟩
    · rw [v.begin_eq, v.size]
      exact v.increments_eq hcomp (nil_append _).symm
    · obtain ⟨as, bs, hl⟩ := append_of_mem hx
      rw [v.next_eq hcomp hl, some.injEq] at hy
      obtain ⟨bs, rfl⟩ := head?_eq_some_iff.mp hy
      exact hb as x y bs hl

end Valid

theorem twoWay_twoElements : TwoWay twoElements (.node (-1) (.node 0 .nil 5 .nil) 10 .nil) := by
  refine (twoWay_iff _ (strictWeak_onElements strictWeak_byValue) _ _ valid_twoElements).mpr ?_
  intro y hy
  cases mem_singleton.mp hy
  exact nofun

def rightPair : AvlLinks ℕ where
  left _ := none
  right x := if x = 5 then some 10 else none
  parent x := if x = 10 then some 5 else none
  tag x := if x = 5 then 1 else 0
  root := some 5
  size := 2

def rightPairTree : Tree ℤ ℕ := .node 1 .nil 5 (.node 0 .nil 10 .nil)

theorem valid_rightPair : Valid (onElements byValue) rightPair rightPairTree where
  links := ⟨rfl, ⟨rfl, rfl, rfl, rfl⟩, trivial, ⟨rfl, rfl, rfl, rfl⟩, trivial, trivial⟩
  balanced := ⟨rfl, by decide, by decide, trivial, balanced_leaf 10⟩
  sorted := by decide
  size := rfl

theorem prev_rightPair_stays : Valid (onElements byValue) rightPair rightPairTree ∧
    rightPair.next 5 = some (some 10) ∧ rightPair.prev 10 = some (some 10) ∧
    ¬ TwoWay rightPair rightPairTree := by
  have hp : rightPair.prev 10 = some (some 10) := by decide
  refine ⟨valid_rightPair, by decide, hp, fun h ↦ ?_⟩
  have hb := h.back [] 5 10 [] rfl
  rw [hp] at hb
  cases hb

end

open Foundation BinaryHeap SearchTree Links

section

variable {α : Type} [DecidableEq α]

def lowerBoundEnd (s : AvlLinks α) (current : α) : Option α :=
  match s.parent current with
  | none => none
  | some parent => if s.right parent = some current then none else some parent

def lowerBoundLoop (less greater : α → Bool) (s : AvlLinks α) :
  (fuel : ℕ) → (current : α) → Option (Option α)
  | 0, _ => none
  | fuel + 1, current =>
    if !less current && !greater current then some (some current)
    else if less current then
      match s.left current with
      | none => some (some current)
      | some left => lowerBoundLoop less greater s fuel left
    else
      match s.right current with
      | none => some (s.lowerBoundEnd current)
      | some right => lowerBoundLoop less greater s fuel right

def lowerBound (less greater : α → Bool) (s : AvlLinks α) : Option (Option α) :=
  match s.root with
  | none => some none
  | some root => s.lowerBoundLoop less greater (s.size + 1) root

def upperBound (less greater : α → Bool) (s : AvlLinks α) : Option (Option α) :=
  (s.lowerBound less greater).bind fun it ↦
    match it with
    | none => some none
    | some x => if !less x && !greater x then s.next x else some (some x)

def landing : List (Crumb ℤ α) → Option α
  | .left _ a _ :: _ => some a
  | .right _ _ _ :: .left _ a _ :: _ => some a
  | _ => none

section Descent

variable {s : AvlLinks α} {less greater : α → Bool} {pa : List (Crumb ℤ α)} {t : Tree ℤ α}
  {x : α} {fuel : ℕ}

theorem lowerBoundEnd_eq {f : ℤ} {l : Tree ℤ α} (h : At s.toLinks pa (.node f l x .nil))
  (ha : Apart pa (.node f l x .nil)) : s.lowerBoundEnd x = landing (.right f l x :: pa) := by
  have hp := parent_eq_owner h rfl
  rw [lowerBoundEnd, hp]
  cases pa with
  | nil => rfl
  | cons c pa =>
    cases c with
    | left g a r =>
      have hr := h.1.1.2.2.2
      have hne : s.right a ≠ some x := hr ▸ ne_other_child ha rfl
      exact if_neg hne
    | right g l' a =>
      have hr := h.1.1.2.2.2
      exact if_pos hr

theorem lowerBoundLoop_eq (h : At s.toLinks pa t) (ha : Apart pa t)
  (hx : t.root = some x) (hf : t.toList.length < fuel) :
  (∃ z, t.search (AvlTree.way less greater) = some z ∧
  s.lowerBoundLoop less greater fuel x = some (some z)) ∨
  ∃ p', vacancy (AvlTree.way less greater) t pa = some p' ∧
  s.lowerBoundLoop less greater fuel x = some (landing p') := by
  induction fuel generalizing t pa x with
  | zero => omega
  | succ fuel ih =>
    cases t with
    | nil => cases hx
    | node f l a r =>
      cases hx
      obtain ⟨-, -, hl, hr⟩ := h.2.1
      rw [Tree.toList, List.length_append, List.length_cons] at hf
      rw [lowerBoundLoop, Tree.search, vacancy, AvlTree.way]
      cases hlt : less x with
      | true =>
        simp only [Bool.not_true, Bool.false_and, Bool.false_eq_true, if_false, if_true]
        cases l with
        | nil =>
          rw [hl]
          exact .inr ⟨_, rfl, rfl⟩
        | node g ll b lr =>
          rw [hl]
          exact ih (at_left.mpr h) ((apart_cons (.left f x r)).mpr ha) rfl (by omega)
      | false =>
        cases hgt : greater x with
        | true =>
          simp only [Bool.not_true, Bool.and_false, Bool.false_eq_true, if_false, if_true]
          cases r with
          | nil =>
            rw [hr]
            exact .inr ⟨_, rfl, congrArg some (lowerBoundEnd_eq h ha)⟩
          | node g rl b rr =>
            rw [hr]
            exact ih (at_right.mpr h) ((apart_cons (.right f l x)).mpr ha) rfl (by omega)
        | false => exact .inl ⟨x, rfl, rfl⟩

omit [DecidableEq α] in
theorem right_ne_none {as : List α} {ho : Option α} (h : PathAt s.toLinks pa ho)
  (hne : ho ≠ none) (hb : before pa = as ++ [x]) : s.right x ≠ none := by
  induction pa generalizing ho with
  | nil => simp [before] at hb
  | cons c pa ih =>
    cases c with
    | left f a r => exact ih h.2.2 (Option.some_ne_none a) hb
    | right f l a =>
      obtain ⟨⟨-, -, -, hr⟩, -, -⟩ := h
      rw [before, ← List.append_assoc] at hb
      obtain ⟨-, hl⟩ := List.append_inj' hb rfl
      cases hl
      rwa [hr]

end Descent

end

variable {α : Type} [DecidableEq α]

section Exact

variable {κ : Type} {lt : κ ⊕ α → κ ⊕ α → Bool} {s : AvlLinks α} {t : Tree ℤ α} {k : κ}
  {pa : List (Crumb ℤ α)} {as bs : List α} {x y : α}

structure BoundsExact (lt : κ ⊕ α → κ ⊕ α → Bool) (s : AvlLinks α) (t : Tree ℤ α) (k : κ) :
  Prop where
  lower : s.lowerBound (fun a ↦ lt (.inl k) (.inr a)) (fun a ↦ lt (.inr a) (.inl k)) =
    some (t.toList.find? fun a ↦ !lt (.inr a) (.inl k))
  upper : s.upperBound (fun a ↦ lt (.inl k) (.inr a)) (fun a ↦ lt (.inr a) (.inl k)) =
    some (t.toList.find? fun a ↦ lt (.inl k) (.inr a))

/-- The key lies between two elements of which the first is a right child that has no right child
itself. -/
def Stranded (lt : κ ⊕ α → κ ⊕ α → Bool) (s : AvlLinks α) (t : Tree ℤ α) (k : κ) : Prop :=
  ∃ as x y bs p, t.toList = as ++ x :: y :: bs ∧ lt (.inr x) (.inl k) = true ∧
    lt (.inl k) (.inr y) = true ∧ s.right x = none ∧ s.parent x = some p ∧ s.right p = some x

omit [DecidableEq α] in
theorem Valid.around (v : Valid (onElements lt) s t) (hl : t.toList = as ++ x :: bs) :
  (∀ a ∈ as, lt (.inr a) (.inr x) = true) ∧ ∀ b ∈ bs, lt (.inr x) (.inr b) = true := by
  have hs := v.sorted
  rw [hl] at hs
  obtain ⟨-, hp, hc⟩ := List.pairwise_append.mp hs
  exact ⟨fun a ha ↦ hc a ha x List.mem_cons_self, (List.pairwise_cons.mp hp).1⟩

omit [DecidableEq α] in
theorem Valid.between (hlt : StrictWeak lt) (v : Valid (onElements lt) s t)
  (hl : t.toList = as ++ x :: y :: bs) (hx : lt (.inr x) (.inl k) = true)
  (h : lt (.inl k) (.inr y) = true) :
  t.toList = (as ++ [x]) ++ y :: bs ∧ (∀ a ∈ as ++ [x], lt (.inr a) (.inl k) = true) ∧
  ∀ b ∈ y :: bs, lt (.inl k) (.inr b) = true := by
  have hs : t.toList = (as ++ [x]) ++ y :: bs := by
    rw [hl, List.append_assoc, List.singleton_append]
  obtain ⟨hpr, -⟩ := v.around hl
  obtain ⟨-, hp⟩ := v.around hs
  refine ⟨hs, fun a ha ↦ ?_, fun b hb ↦ ?_⟩
  · obtain ha | ha := List.mem_append.mp ha
    · exact hlt.lt_trans (hpr a ha) hx
    · rwa [List.mem_singleton.mp ha]
  · obtain rfl | hb := List.mem_cons.mp hb
    · exact h
    · exact hlt.lt_trans h (hp b hb)

omit [DecidableEq α] in
theorem find?_append_of {p : α → Bool} (h : ∀ a ∈ as, p a = false) (hs : ∀ b ∈ bs, p b = true) :
  (as ++ bs).find? p = bs.head? := by
  have hn : as.find? p = none := List.find?_eq_none.mpr fun a ha ↦ by simp [h a ha]
  rw [List.find?_append, hn, Option.none_or]
  cases bs with
  | nil => rfl
  | cons b bs => rw [List.find?_cons_of_pos (hs b List.mem_cons_self), List.head?_cons]

theorem Valid.lowerBound_cases {c : α → α → Bool} (hc : StrictWeak c)
  (v : Valid c s t) (les g : α → Bool) : (∃ z, t.search (AvlTree.way les g) = some z ∧
  s.lowerBound les g = some (some z)) ∨
  ∃ pa, vacancy (AvlTree.way les g) t [] = some pa ∧ s.lowerBound les g = some (landing pa) := by
  have hr : s.root = t.root := v.links.1
  rw [lowerBound, hr]
  cases t with
  | nil => exact .inr ⟨[], rfl, rfl⟩
  | node f l a r =>
    have ha : Apart [] (.node f l a r) := apart_iff.mpr (nodup_of_pairwise hc v.sorted)
    exact lowerBoundLoop_eq v.links ha rfl (v.size ▸ Nat.lt_succ_self _)

theorem Valid.lowerBound_divides (h : StrictWeak lt) (v : Valid (onElements lt) s t) (k : κ) :
  (∃ z ∈ t.toList,
  AvlTree.way (fun a ↦ lt (.inl k) (.inr a)) (fun a ↦ lt (.inr a) (.inl k)) z = .eq ∧
  s.lowerBound (fun a ↦ lt (.inl k) (.inr a)) (fun a ↦ lt (.inr a) (.inl k)) = some (some z)) ∨
  ∃ pa, fill pa .nil = t ∧ t.toList = before pa ++ after pa ∧ (∀ a ∈ before pa,
  AvlTree.way (fun a ↦ lt (.inl k) (.inr a)) (fun a ↦ lt (.inr a) (.inl k)) a = .gt) ∧
  (∀ b ∈ after pa,
  AvlTree.way (fun a ↦ lt (.inl k) (.inr a)) (fun a ↦ lt (.inr a) (.inl k)) b = .lt) ∧
  s.lowerBound (fun a ↦ lt (.inl k) (.inr a)) (fun a ↦ lt (.inr a) (.inl k)) =
  some (landing pa) := by
  obtain ⟨z, hs, hl⟩ | ⟨pa, hp, hl⟩ := v.lowerBound_cases
    (strictWeak_onElements h) (fun a ↦ lt (.inl k) (.inr a)) fun a ↦ lt (.inr a) (.inl k)
  · obtain ⟨hm, hw⟩ := search_eq_some hs
    exact .inl ⟨z, hm, hw, hl⟩
  · have hf : fill pa .nil = t := fill_vacancy hp
    have hli : t.toList = before pa ++ after pa := by
      rw [← hf, toList_fill]
      rfl
    have hd := directed_of_pairwise Sum.inr h (.inl k) v.sorted
    obtain ⟨hb, ha⟩ := vacancy_divides hd hp (by simp [before]) (by simp [after])
    exact .inr ⟨pa, hf, hli, hb, ha, hl⟩

theorem Valid.exact_of_found (hlt : StrictWeak lt) (v : Valid (onElements lt) s t) {z : α}
  (hl : t.toList = as ++ z :: bs) (hz : Equivalent lt (.inl k) (.inr z))
  (h : s.lowerBound (fun a ↦ lt (.inl k) (.inr a)) (fun a ↦ lt (.inr a) (.inl k)) =
  some (some z)) : BoundsExact lt s t k ∧ ¬ Stranded lt s t k := by
  obtain ⟨hpr, hp⟩ := v.around hl
  have hkz : ¬ lt (.inl k) (.inr z) := Bool.eq_false_iff.mp hz.1
  have hzk : ¬ lt (.inr z) (.inl k) := Bool.eq_false_iff.mp hz.2
  have hle (a : α) (ha : a ∈ as) : lt (.inr a) (.inl k) = true := hlt.lt_of_lt_of_le (hpr a ha) hkz
  have hg (b : α) (hb : b ∈ bs) : lt (.inl k) (.inr b) = true := hlt.lt_of_le_of_lt hzk (hp b hb)
  refine ⟨⟨?_, ?_⟩, ?_⟩
  · rw [h, hl, List.find?_append, List.find?_cons_of_pos (by simp [hz.2]),
      List.find?_eq_none.mpr fun a ha ↦ by simp [hle a ha]]
    rfl
  · have hn := v.next_eq (strictWeak_onElements hlt) hl
    rw [upperBound, h, Option.bind_some]
    simp only [hz.1, hz.2, Bool.not_false, Bool.and_self, if_true, hn]
    rw [hl, ← List.singleton_append, ← List.append_assoc, find?_append_of ?_ hg]
    intro a ha
    obtain ha | ha := List.mem_append.mp ha
    · exact Bool.eq_false_iff.mpr (hlt.asymm _ _ (hle a ha))
    · rw [List.mem_singleton.mp ha, hz.1]
  · rintro ⟨cs, x, y, ds, -, hl', hxk, hky, -⟩
    obtain ⟨hs, hpr', hp'⟩ := v.between hlt hl' hxk hky
    have hm : z ∈ (cs ++ [x]) ++ y :: ds := by
      rw [← hs, hl]
      exact List.mem_append_right _ List.mem_cons_self
    obtain hm | hm := List.mem_append.mp hm
    · exact hzk (hpr' z hm)
    · exact hkz (hp' z hm)

omit [DecidableEq α] in
theorem landing_mem_after {w : α} (h : landing pa = some w) : w ∈ after pa := by
  unfold landing at h
  split at h
  · cases h
    exact List.mem_cons_self
  · cases h
    exact List.mem_cons_self
  · cases h

theorem boundsExact_iff_landing (hlt : StrictWeak lt) (hli : t.toList = before pa ++ after pa)
  (hbe : ∀ a ∈ before pa, lt (.inr a) (.inl k) = true)
  (haf : ∀ b ∈ after pa, lt (.inl k) (.inr b) = true)
  (hl : s.lowerBound (fun a ↦ lt (.inl k) (.inr a)) (fun a ↦ lt (.inr a) (.inl k)) =
  some (landing pa)) : BoundsExact lt s t k ↔ landing pa = (after pa).head? := by
  have hf : t.toList.find? (fun a ↦ !lt (.inr a) (.inl k)) = (after pa).head? := by
    rw [hli]
    refine find?_append_of (fun a ha ↦ by simp [hbe a ha]) fun b hb ↦ ?_
    rw [Bool.eq_false_iff.mpr (hlt.asymm _ _ (haf b hb)), Bool.not_false]
  have hf' : t.toList.find? (fun a ↦ lt (.inl k) (.inr a)) = (after pa).head? := by
    rw [hli]
    exact find?_append_of (fun a ha ↦ Bool.eq_false_iff.mpr (hlt.asymm _ _ (hbe a ha))) haf
  have hu : s.upperBound (fun a ↦ lt (.inl k) (.inr a)) (fun a ↦ lt (.inr a) (.inl k)) =
    some (landing pa) := by
    rw [upperBound, hl, Option.bind_some]
    cases hla : landing pa with
    | none => rfl
    | some w => simp [haf w (landing_mem_after hla)]
  constructor
  · intro h
    have := h.lower
    rwa [hl, hf, Option.some.injEq] at this
  · intro h
    exact ⟨by rw [hl, hf, h], by rw [hu, hf', h]⟩

omit [DecidableEq α] in
theorem eq_of_divided {p : α → Bool} {cs ds : List α} (h : as ++ bs = cs ++ ds)
  (ha : ∀ a ∈ as, p a = true) (hs : ∀ b ∈ bs, p b = false) (hc : ∀ c ∈ cs, p c = true)
  (hds : ∀ d ∈ ds, p d = false) : as = cs ∧ bs = ds := by
  have hp : as = cs := by
    have hf := congrArg (List.filter p) h
    rwa [List.filter_append, List.filter_append, List.filter_eq_self.mpr ha,
      List.filter_eq_self.mpr hc, List.filter_eq_nil_iff.mpr fun b hb ↦ by simp [hs b hb],
      List.filter_eq_nil_iff.mpr fun d hd ↦ by simp [hds d hd], List.append_nil,
      List.append_nil] at hf
  subst hp
  exact ⟨rfl, List.append_cancel_left h⟩

omit [DecidableEq α] in
theorem landing_eq_iff (hlt : StrictWeak lt) (v : Valid (onElements lt) s t)
  (hat : At s.toLinks pa .nil) (hap : Apart pa .nil) (hl : t.toList = before pa ++ after pa)
  (hbe : ∀ a ∈ before pa, lt (.inr a) (.inl k) = true)
  (ha : ∀ b ∈ after pa, lt (.inl k) (.inr b) = true) :
  landing pa = (after pa).head? ↔ ¬ Stranded lt s t k := by
  constructor
  · rintro hla ⟨as, x, y, bs, p, hl', hxk, hky, hri, hp, hrg⟩
    obtain ⟨hsp, hpr, hpo⟩ := v.between hlt hl' hxk hky
    obtain ⟨hx, hy⟩ : as ++ [x] = before pa ∧ y :: bs = after pa :=
      eq_of_divided (p := fun a ↦ lt (.inr a) (.inl k)) (hsp.symm.trans hl) hpr
        (fun b hb ↦ Bool.eq_false_iff.mpr (hlt.asymm _ _ (hpo b hb))) hbe
        fun d hd ↦ Bool.eq_false_iff.mpr (hlt.asymm _ _ (ha d hd))
    rw [← hy, List.head?_cons] at hla
    cases pa with
    | nil => cases hla
    | cons c pa =>
      cases c with
      | left f a r =>
        -- The descent ended at `y`, so `y` is to the right of `x`.
        exact right_ne_none hat.1.2.2 (Option.some_ne_none a) hx.symm hri
      | right f l z =>
        obtain ⟨-, hls⟩ := List.append_inj' (hx.trans (List.append_assoc ..).symm) rfl
        cases hls
        have ho : owner pa = some p := hat.1.1.1.symm.trans hp
        cases pa with
        | nil => cases hla
        | cons d pa =>
          cases d with
          | right g l' q => cases hla
          | left g q r =>
            cases ho
            have hro : s.right p = r.root := hat.1.2.2.1.2.2.2
            have hm : x ∈ r.toList := mem_toList_of_root (hro.symm.trans hrg)
            have hn := hap.outer
            rw [outer, outer, List.nodup_cons] at hn
            refine hn.1 (List.mem_append_right _ (List.mem_cons_of_mem _ ?_))
            exact List.mem_append_left _ hm
  · intro hs
    cases pa with
    | nil => rfl
    | cons c pa =>
      cases c with
      | left f a r => rfl
      | right f l x =>
        cases pa with
        | nil => rfl
        | cons d pa =>
          cases d with
          | left g q r => rfl
          | right g l' p =>
            cases hr : after pa with
            | nil =>
              have hno : landing (.right f l x :: .right g l' p :: pa) = none := rfl
              rw [hno, after, after, hr, List.head?_nil]
            | cons y bs =>
              refine absurd ⟨before (.right g l' p :: pa) ++ l.toList, x, y, bs, p, ?_,
                ?_, ?_, ?_, ?_, ?_⟩ hs
              · rw [hl, after, after, hr, before]
                simp
              · exact hbe x (by simp [before])
              · exact ha y (by simp [after, hr])
              · exact hat.1.1.2.2.2
              · exact hat.1.1.1
              · exact hat.1.2.2.1.2.2.2

theorem boundsExact_iff {κ α : Type} [DecidableEq α] (lt : κ ⊕ α → κ ⊕ α → Bool)
    (hlt : StrictWeak lt) (s : AvlLinks α) (t : Tree ℤ α) (v : Valid (onElements lt) s t) (k : κ) :
    BoundsExact lt s t k ↔ ¬ Stranded lt s t k := by
  obtain ⟨z, hm, hw, hlo⟩ | ⟨pa, hf, hl, hbe, haf, hlo⟩ := v.lowerBound_divides hlt k
  · obtain ⟨as, bs, hl⟩ := List.append_of_mem hm
    obtain ⟨he, hs⟩ := v.exact_of_found hlt hl (way_eq_eq_iff.mp hw) hlo
    exact iff_of_true he hs
  · have hbe' (a : α) (ha : a ∈ before pa) : lt (.inr a) (.inl k) = true :=
      (way_eq_gt_iff.mp (hbe a ha)).2
    have haf' (b : α) (hb : b ∈ after pa) : lt (.inl k) (.inr b) = true := by
      have hw := haf b hb
      rwa [way_eq_lt_iff] at hw
    rw [boundsExact_iff_landing hlt hl hbe' haf' hlo]
    refine landing_eq_iff hlt v ?_ ?_ hl hbe' haf'
    · rw [← at_nil_fill, hf]
      exact v.links
    · rw [apart_iff, hf]
      exact nodup_of_pairwise (strictWeak_onElements hlt) v.sorted

end Exact

theorem boundsExact_twoElements :
  BoundsExact byValue twoElements (.node (-1) (.node 0 .nil 5 .nil) 10 .nil) 7 := by
  refine (boundsExact_iff byValue strictWeak_byValue _ _ valid_twoElements 7).mpr ?_
  rintro ⟨as, x, y, bs, p, -, -, -, -, -, hr⟩
  cases hr

theorem lowerBound_fourElements_end : Valid (onElements byValue) fourElements fourTree ∧
    fourElements.lowerBound (fun a ↦ byValue (.inl 8) (.inr a))
      (fun a ↦ byValue (.inr a) (.inl 8)) = some none ∧
    ¬ BoundsExact byValue fourElements fourTree 8 := by
  refine ⟨valid_fourElements, by decide, fun h ↦ ?_⟩
  exact absurd h.lower (by decide)

end ReaverOS.Kernel.AvlLinks
