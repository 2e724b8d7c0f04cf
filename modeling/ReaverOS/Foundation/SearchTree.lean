import Mathlib.Data.List.Basic
import Mathlib.Data.List.Nodup
import Mathlib.Data.List.Pairwise

namespace ReaverOS.Foundation.SearchTree

open List

section

inductive Tree (β α : Type*)
  | nil
  | node (tag : β) (left : Tree β α) (value : α) (right : Tree β α)
  deriving DecidableEq

variable {β α : Type*}

namespace Tree

def toList : Tree β α → List α
  | nil => []
  | node _ l a r => l.toList ++ a :: r.toList

def search (way : α → Ordering) : Tree β α → Option α
  | nil => none
  | node _ l a r =>
    match way a with
    | .eq => some a
    | .lt => l.search way
    | .gt => r.search way

end Tree

inductive Crumb (β α : Type*)
  | left (tag : β) (value : α) (right : Tree β α)
  | right (tag : β) (left : Tree β α) (value : α)

def Crumb.fill : Crumb β α → Tree β α → Tree β α
  | .left tag a r, t => .node tag t a r
  | .right tag l a, t => .node tag l a t

def fill : List (Crumb β α) → Tree β α → Tree β α
  | [], t => t
  | c :: path, t => fill path (c.fill t)

theorem fill_append (p p' : List (Crumb β α)) (t : Tree β α) :
  fill (p ++ p') t = fill p' (fill p t) := by
  induction p generalizing t with
  | nil => rfl
  | cons c p ih => exact ih _

def before : List (Crumb β α) → List α
  | [] => []
  | .left _ _ _ :: path => before path
  | .right _ l a :: path => before path ++ (l.toList ++ [a])

def after : List (Crumb β α) → List α
  | [] => []
  | .left _ a r :: path => a :: r.toList ++ after path
  | .right _ _ _ :: path => after path

theorem before_append (path path' : List (Crumb β α)) :
  before (path ++ path') = before path' ++ before path := by
  induction path with
  | nil => exact (List.append_nil _).symm
  | cons c path ih => cases c <;> simp [before, ih]

theorem after_append (p path' : List (Crumb β α)) :
  after (p ++ path') = after p ++ after path' := by
  induction p with
  | nil => rfl
  | cons c p ih => cases c <;> simp [after, ih]

theorem toList_fill (p : List (Crumb β α)) (t : Tree β α) :
  (fill p t).toList = before p ++ (t.toList ++ after p) := by
  induction p generalizing t with
  | nil => simp [fill, before, after]
  | cons c p ih =>
    cases c with
    | left ta a r => simp [fill, Crumb.fill, before, after, ih, Tree.toList]
    | right ta l a => simp [fill, Crumb.fill, before, after, ih, Tree.toList]

theorem exists_fill {t : Tree β α} {a : α} (h : a ∈ t.toList) :
  ∃ path ta l r, fill path (.node ta l a r) = t := by
  induction t with
  | nil => cases h
  | node ta l b r ih i =>
    rw [Tree.toList, mem_append, mem_cons] at h
    obtain h | rfl | h := h
    · obtain ⟨path, ta', l', r', rfl⟩ := ih h
      exact ⟨path ++ [.left ta b r], ta', l', r', fill_append ..⟩
    · exact ⟨[], ta, l, r, rfl⟩
    · obtain ⟨path, ta', l', r', rfl⟩ := i h
      exact ⟨path ++ [.right ta l b], ta', l', r', fill_append ..⟩

def vacancy (way : α → Ordering) : Tree β α → List (Crumb β α) → Option (List (Crumb β α))
  | .nil, path => some path
  | .node tag l a r, path =>
    match way a with
    | .eq => none
    | .lt => vacancy way l (.left tag a r :: path)
    | .gt => vacancy way r (.right tag l a :: path)

def Directed (way : α → Ordering) (as : List α) : Prop :=
  as.Pairwise fun a b ↦ (way a = .lt → way b = .lt) ∧ (way b = .gt → way a = .gt)

variable {way : α → Ordering} {t : Tree β α} {path path' : List (Crumb β α)}

theorem search_eq_some {a : α} (h : t.search way = some a) : a ∈ t.toList ∧ way a = .eq := by
  induction t with
  | nil => cases h
  | node tag l b r ih i =>
    rw [Tree.search] at h
    simp only [Tree.toList, mem_append, mem_cons]
    split at h
    next hb =>
      cases h
      exact ⟨.inr (.inl rfl), hb⟩
    next => exact ⟨.inl (ih h).1, (ih h).2⟩
    next => exact ⟨.inr (.inr (i h).1), (i h).2⟩

theorem search_congr {way' : α → Ordering} (h : ∀ a ∈ t.toList, way a = way' a) :
  t.search way = t.search way' := by
  induction t with
  | nil => rfl
  | node tag l a r ih i =>
    simp only [Tree.toList, mem_append, mem_cons] at h
    rw [Tree.search, Tree.search, h a (.inr (.inl rfl)), ih fun b hb ↦ h b (.inl hb),
      i fun b hb ↦ h b (.inr (.inr hb))]

theorem directed_node {as bs : List α} {a : α} (h : Directed way (as ++ a :: bs)) :
  Directed way as ∧ Directed way bs ∧ (way a = .lt → ∀ b ∈ bs, way b = .lt) ∧
  (way a = .gt → ∀ b ∈ as, way b = .gt) := by
  obtain ⟨has, hs, hc⟩ := pairwise_append.mp h
  obtain ⟨ha, hs⟩ := pairwise_cons.mp hs
  exact ⟨has, hs, fun hl b hb ↦ (ha b hb).1 hl, fun hg b hb ↦ (hc b hb a (mem_cons_self ..)).2 hg⟩

theorem search_isSome (h : Directed way t.toList) (hx : ∃ a ∈ t.toList, way a = .eq) :
  ∃ a, t.search way = some a := by
  induction t with
  | nil =>
    obtain ⟨a, ha, -⟩ := hx
    cases ha
  | node tag l b r ih i =>
    obtain ⟨a, ha, he⟩ := hx
    obtain ⟨hl, hr, hlt, hg⟩ := directed_node h
    rw [Tree.search]
    rcases mem_append.mp ha with ha | ha
    · split
      next => exact ⟨b, rfl⟩
      next => exact ih hl ⟨a, ha, he⟩
      next hb => cases he.symm.trans (hg hb a ha)
    · split
      next => exact ⟨b, rfl⟩
      next hb =>
        rcases mem_cons.mp ha with rfl | ha
        · cases he.symm.trans hb
        · cases he.symm.trans (hlt hb a ha)
      next hb =>
        rcases mem_cons.mp ha with rfl | ha
        · cases he.symm.trans hb
        · exact i hr ⟨a, ha, he⟩

theorem fill_vacancy (h : vacancy way t path = some path') : fill path' .nil = fill path t := by
  induction t generalizing path with
  | nil =>
    cases h
    rfl
  | node tag l a r ih i =>
    rw [vacancy] at h
    split at h
    next => cases h
    next => exact ih h
    next => exact i h

theorem vacancy_isSome (h : t.search way = none) : ∃ path', vacancy way t path = some path' := by
  induction t generalizing path with
  | nil => exact ⟨path, rfl⟩
  | node tag l a r ih i =>
    rw [Tree.search] at h
    rw [vacancy]
    split at h
    next => cases h
    next => exact ih h
    next => exact i h

theorem Directed.congr {way' : α → Ordering} {as : List α} (h : Directed way as)
  (hw : ∀ a ∈ as, way a = way' a) : Directed way' as :=
  h.imp_of_mem fun ha hb hab ↦ by rwa [← hw _ ha, ← hw _ hb]

theorem vacancy_divides (ht : Directed way t.toList) (h : vacancy way t path = some path')
  (hbe : ∀ a ∈ before path, way a = .gt) (hf : ∀ a ∈ after path, way a = .lt) :
  (∀ a ∈ before path', way a = .gt) ∧ ∀ a ∈ after path', way a = .lt := by
  induction t generalizing path with
  | nil =>
    cases h
    exact ⟨hbe, hf⟩
  | node tag l a r ih i =>
    obtain ⟨hl, hr, hlt, hg⟩ := directed_node ht
    rw [vacancy] at h
    split at h
    next => cases h
    next ha =>
      refine ih hl h hbe fun b hb ↦ ?_
      simp only [after, cons_append, mem_cons, mem_append] at hb
      rcases hb with rfl | hb | hb
      · exact ha
      · exact hlt ha b hb
      · exact hf b hb
    next ha =>
      refine i hr h (fun b hb ↦ ?_) hf
      simp only [before, mem_append, mem_cons, not_mem_nil, or_false] at hb
      rcases hb with hb | hb | rfl
      · exact hbe b hb
      · exact hg ha b hb
      · exact ha

end

open Function

variable {β α : Type}

def Tree.root : Tree β α → Option α
  | nil => none
  | node _ _ a _ => some a

def owner : List (Crumb β α) → Option α
  | [] => none
  | .left _ a _ :: _ => some a
  | .right _ _ a :: _ => some a

def outer : List (Crumb β α) → List α
  | [] => []
  | .left _ a r :: path => a :: (r.toList ++ outer path)
  | .right _ l a :: path => a :: (l.toList ++ outer path)

theorem perm_outer (p : List (Crumb β α)) (t : Tree β α) :
  (fill p t).toList.Perm (t.toList ++ outer p) := by
  induction p generalizing t with
  | nil =>
    rw [outer, append_nil]
    exact .refl _
  | cons c p ih =>
    cases c with
    | left tag a r =>
      refine (ih _).trans ?_
      simp [Crumb.fill, Tree.toList, outer]
    | right tag l a =>
      refine (ih _).trans ?_
      simp only [Crumb.fill, Tree.toList, outer, append_assoc, cons_append]
      have hs := (perm_append_comm_assoc l.toList t.toList (outer p)).cons a
      exact (perm_middle.trans hs).trans perm_middle.symm

theorem length_le_outer (p : List (Crumb β α)) : p.length ≤ (outer p).length := by
  induction p with
  | nil => exact Nat.le_refl 0
  | cons c p ih =>
    cases c with
    | left tag a r =>
      rw [outer, length_cons, length_cons, length_append]
      omega
    | right tag l a =>
      rw [outer, length_cons, length_cons, length_append]
      omega

structure Links (β α : Type) where
  left : α → Option α
  right : α → Option α
  parent : α → Option α
  tag : α → β
  root : Option α

namespace Links

section Operations

variable [DecidableEq α]

def setLeft (s : Links β α) (x : α) (v : Option α) : Links β α :=
  { s with left := update s.left x v }

def setRight (s : Links β α) (x : α) (v : Option α) : Links β α :=
  { s with right := update s.right x v }

def setParent (s : Links β α) (x : α) (v : Option α) : Links β α :=
  { s with parent := update s.parent x v }

def setTag (s : Links β α) (x : α) (v : β) : Links β α := { s with tag := update s.tag x v }

def adopt (s : Links β α) (child parent : Option α) : Links β α :=
  match child with
  | none => s
  | some x => s.setParent x parent

def relink (s : Links β α) (parent : α) (x : α) (v : Option α) : Links β α :=
  if s.left parent = some x then s.setLeft parent v else s.setRight parent v

def replace (s : Links β α) (parent : Option α) (x : α) (v : Option α) : Links β α :=
  match parent with
  | none => { s with root := v }
  | some parent => s.relink parent x v

end Operations

def TreeAt (s : Links β α) (parent : Option α) : Tree β α → Prop
  | .nil => True
  | .node tag l a r => (s.parent a = parent ∧ s.tag a = tag ∧ s.left a = l.root ∧
      s.right a = r.root) ∧ TreeAt s (some a) l ∧ TreeAt s (some a) r

def PathAt (s : Links β α) : List (Crumb β α) → (hole : Option α) → Prop
  | [], hole => s.root = hole
  | .left tag a r :: path, hole => (s.parent a = owner path ∧ s.tag a = tag ∧ s.left a = hole ∧
      s.right a = r.root) ∧ TreeAt s (some a) r ∧ PathAt s path (some a)
  | .right tag l a :: path, hole => (s.parent a = owner path ∧ s.tag a = tag ∧
      s.left a = l.root ∧ s.right a = hole) ∧ TreeAt s (some a) l ∧ PathAt s path (some a)

def At (s : Links β α) (path : List (Crumb β α)) (t : Tree β α) : Prop :=
  PathAt s path t.root ∧ TreeAt s (owner path) t

variable {s s' : Links β α} {t l r : Tree β α} {path : List (Crumb β α)} {parent hole : Option α}
  {tag : β} {a : α}

theorem at_left : At s (.left tag a r :: path) t ↔ At s path (.node tag t a r) := by
  rw [At, At, PathAt, TreeAt]
  tauto

theorem at_right : At s (.right tag l a :: path) t ↔ At s path (.node tag l a t) := by
  rw [At, At, PathAt, TreeAt]
  tauto

theorem at_cons (c : Crumb β α) : At s (c :: path) t ↔ At s path (c.fill t) := by
  cases c with
  | left tag a r => exact at_left
  | right tag l a => exact at_right

theorem at_fill (p p' : List (Crumb β α)) : At s (p ++ p') t ↔ At s p' (fill p t) := by
  induction p generalizing t with
  | nil => exact Iff.rfl
  | cons c p ih =>
    rw [cons_append, at_cons, ih]
    rfl

theorem at_nil_fill : At s [] (fill path t) ↔ At s path t := by
  rw [← at_fill, append_nil]

def SameAt (s s' : Links β α) (x : α) : Prop :=
  s'.left x = s.left x ∧ s'.right x = s.right x ∧ s'.parent x = s.parent x ∧ s'.tag x = s.tag x

theorem TreeAt.congr (h : TreeAt s parent t) (hs : ∀ x ∈ t.toList, SameAt s s' x) :
  TreeAt s' parent t := by
  induction t generalizing parent with
  | nil => trivial
  | node tag l a r ih i =>
    obtain ⟨⟨hp, ht, hle, hri⟩, hl, hr⟩ := h
    rw [Tree.toList, forall_mem_append, forall_mem_cons] at hs
    obtain ⟨hsm, ⟨hle', hri', hp', ht'⟩, hsa⟩ := hs
    exact ⟨⟨hp'.trans hp, ht'.trans ht, hle'.trans hle, hri'.trans hri⟩, ih hl hsm, i hr hsa⟩

theorem PathAt.congr (h : PathAt s path hole) (hro : s'.root = s.root)
  (hs : ∀ x ∈ outer path, SameAt s s' x) : PathAt s' path hole := by
  induction path generalizing hole with
  | nil => exact hro.trans h
  | cons c path ih =>
    cases c with
    | left tag a r =>
      obtain ⟨⟨hp, ht, hle, hri⟩, hr, hpa⟩ := h
      rw [outer, forall_mem_cons, forall_mem_append] at hs
      obtain ⟨⟨hle', hri', hp', ht'⟩, hsm, hs⟩ := hs
      exact ⟨⟨hp'.trans hp, ht'.trans ht, hle'.trans hle, hri'.trans hri⟩, hr.congr hsm, ih hpa hs⟩
    | right tag l a =>
      obtain ⟨⟨hp, ht, hle, hri⟩, hl, hpa⟩ := h
      rw [outer, forall_mem_cons, forall_mem_append] at hs
      obtain ⟨⟨hle', hri', hp', ht'⟩, hsa, hs⟩ := hs
      exact ⟨⟨hp'.trans hp, ht'.trans ht, hle'.trans hle, hri'.trans hri⟩, hl.congr hsa, ih hpa hs⟩

theorem mem_toList_of_root {x : α} (h : t.root = some x) : x ∈ t.toList := by
  cases t with
  | nil => cases h
  | node tag l a r =>
    cases h
    exact mem_append_right _ mem_cons_self

structure Apart (path : List (Crumb β α)) (t : Tree β α) : Prop where
  outer : (outer path).Nodup
  tree : t.toList.Nodup
  disjoint : ∀ x ∈ t.toList, x ∉ SearchTree.outer path

theorem apart_iff : Apart path t ↔ (fill path t).toList.Nodup := by
  rw [(perm_outer path t).nodup_iff, nodup_append']
  constructor
  · intro h
    exact ⟨h.tree, h.outer, h.disjoint⟩
  · intro h
    exact ⟨h.2.1, h.1, h.2.2⟩

theorem apart_cons (c : Crumb β α) : Apart (c :: path) t ↔ Apart path (c.fill t) := by
  rw [apart_iff, apart_iff]
  rfl

theorem Apart.of_toList {t' : Tree β α} (h : Apart path t) (he : t'.toList = t.toList) :
  Apart path t' :=
  ⟨h.outer, he ▸ h.tree, he ▸ h.disjoint⟩

theorem Apart.of_sublist {u : Tree β α} (h : Apart path t) (hs : u.toList.Sublist t.toList) :
  Apart path u :=
  ⟨h.outer, h.tree.sublist hs, fun x hx ↦ h.disjoint x (hs.subset hx)⟩

theorem root_mem_outer {c : Crumb β α} (h : PathAt s (c :: path) hole) :
  ∃ y ∈ outer (c :: path), s.root = some y := by
  induction path generalizing c hole with
  | nil =>
    cases c with
    | left tag a r => exact ⟨a, mem_cons_self, h.2.2⟩
    | right tag l a => exact ⟨a, mem_cons_self, h.2.2⟩
  | cons d path ih =>
    cases c with
    | left tag a r =>
      obtain ⟨y, hy, hr⟩ := ih h.2.2
      exact ⟨y, mem_cons_of_mem _ (mem_append_right _ hy), hr⟩
    | right tag l a =>
      obtain ⟨y, hy, hr⟩ := ih h.2.2
      exact ⟨y, mem_cons_of_mem _ (mem_append_right _ hy), hr⟩

theorem owner_mem {x : α} (h : owner path = some x) : x ∈ outer path := by
  cases path with
  | nil => cases h
  | cons c path =>
    cases c with
    | left tag a r =>
      cases h
      exact mem_cons_self
    | right tag l a =>
      cases h
      exact mem_cons_self

theorem TreeAt.reparent [DecidableEq α] {v : Option α} (h : TreeAt s parent t)
  (ht : t.toList.Nodup) (hs : ∀ x ∈ t.toList, s'.left x = s.left x ∧
  s'.right x = s.right x ∧ s'.parent x = (if t.root = some x then v else s.parent x) ∧
  s'.tag x = s.tag x) : TreeAt s' v t := by
  cases t with
  | nil => trivial
  | node tag l a r =>
    obtain ⟨⟨-, hta, hle, hri⟩, hl, hr⟩ := h
    rw [Tree.toList, forall_mem_append, forall_mem_cons] at hs
    obtain ⟨hsm, ⟨hle', hri', hp', hta'⟩, hsa⟩ := hs
    obtain ⟨-, ha, hd⟩ := nodup_append'.mp ht
    refine ⟨⟨hp'.trans (if_pos rfl), hta'.trans hta, hle'.trans hle,
      hri'.trans hri⟩, hl.congr fun x hx ↦ ?_, hr.congr fun x hx ↦ ?_⟩
    · have hne : some a ≠ some x := fun he ↦ hd hx (Option.some.inj he ▸ mem_cons_self)
      obtain ⟨hle', hri', hp', hta'⟩ := hsm x hx
      exact ⟨hle', hri', hp'.trans (if_neg hne), hta'⟩
    · have hne : some a ≠ some x := fun he ↦ (nodup_cons.mp ha).1 (Option.some.inj he ▸ hx)
      obtain ⟨hle', hri', hp', hta'⟩ := hsa x hx
      exact ⟨hle', hri', hp'.trans (if_neg hne), hta'⟩

end Links

end ReaverOS.Foundation.SearchTree
