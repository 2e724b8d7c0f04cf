import ReaverOS.Kernel.AvlIterators
import ReaverOS.Kernel.Vas

namespace ReaverOS.Kernel

open List

open Function Foundation BinaryHeap SearchTree
  Foundation.SearchTree.Links
open AvlLinks (Valid onElements)
open Vas (SparseElement)

structure SparseVmo where
  length : ℕ
  alignedToPageLevel : Fin Pmm.pageSizeCount
  elements : AvlLinks ℕ := AvlLinks.noElements
  offset : ℕ → ℕ := fun _ ↦ 0
  backingAddress : ℕ → Option ℕ := fun _ ↦ none
  created : ℕ := 0

inductive VmoFault
  | nullElement
  | outOfFrames
  | outOfFuel
  deriving DecidableEq

def liftElement {α : Type} : Option α → Except VmoFault α
  | some a => .ok a
  | none => .error .nullElement

namespace SparseVmo

def pageSize (v : SparseVmo) : ℕ := Pmm.pageSizes v.alignedToPageLevel

def compare (v : SparseVmo) (lhs rhs : ℕ ⊕ ℕ) : Bool :=
  lhs.elim id v.offset < rhs.elim id v.offset

def makeElement (v : SparseVmo) (offset : ℕ) : SparseVmo :=
  { v with
    elements := { v.elements with
      left := update v.elements.left v.created none
      right := update v.elements.right v.created none
      parent := update v.elements.parent v.created none
      tag := update v.elements.tag v.created 0 }
    offset := update v.offset v.created offset
    backingAddress := update v.backingAddress v.created none
    created := v.created + 1 }

def setElements (v : SparseVmo) (elements : AvlLinks ℕ) : SparseVmo := { v with elements }

def insertElement (v : SparseVmo) (offset : ℕ) : Except VmoFault (SparseVmo × ℕ) := do
  let w := v.makeElement offset
  let (elements, it, _) ← liftElement (w.elements.insert (onElements w.compare) v.created)
  .ok (w.setElements elements, it)

theorem pageSizeCount_pos : 0 < Pmm.pageSizeCount := Nat.zero_lt_succ 2

def defaultLevel : Fin Pmm.pageSizeCount := ⟨0, pageSizeCount_pos⟩

def roundedLength (length pageSize : ℕ) : ℕ :=
  (length + (pageSize + (2 ^ 64 - length)) % 2 ^ 64 % pageSize) % 2 ^ 64

def createSparseVmo (length : ℕ) (alignedToPageLevel : Fin Pmm.pageSizeCount) :
  Except VmoFault SparseVmo := do
  let length := roundedLength length (Pmm.pageSizes alignedToPageLevel)
  let (v, _) ← insertElement { length, alignedToPageLevel } 0
  .ok v

def back (v : SparseVmo) (x frame : ℕ) : SparseVmo :=
  { v with backingAddress := update v.backingAddress x (some frame) }

def fillLoop (nextOffset : ℕ) :
  ℕ → SparseVmo → ℕ → List ℕ → Except VmoFault (SparseVmo × ℕ × List ℕ)
  | 0, _, _, _ => .error .outOfFuel
  | fuel + 1, v, x, frames =>
    let offset := (v.offset x + v.pageSize) % 2 ^ 64
    if offset < nextOffset then
      match frames with
      | [] => .error .outOfFrames
      | frame :: frames => do
        let (v, it) ← (v.back x frame).insertElement offset
        fillLoop nextOffset fuel v it frames
    else .ok (v, x, frames)

def commitLoop (stop : Option ℕ) :
  ℕ → SparseVmo → Option ℕ → List ℕ → Except VmoFault (SparseVmo × List ℕ)
  | 0, _, _, _ => .error .outOfFuel
  | fuel + 1, v, it, frames =>
    if it = stop then .ok (v, frames)
    else
      match it with
      | none => .error .nullElement
      | some x => do
        let next ← liftElement (v.elements.next x)
        if (v.backingAddress x).isSome then commitLoop stop fuel v next frames
        else
          let nextOffset := next.elim v.length v.offset
          let (v, y, frames) ← fillLoop nextOffset (nextOffset / v.pageSize + 1) v x frames
          match frames with
          | [] => .error .outOfFrames
          | frame :: frames =>
            let it ← liftElement (v.elements.next y)
            commitLoop stop fuel (v.back y frame) it frames

def commitBetweenOffsets (v : SparseVmo) (startOffset endOffset : ℕ) (frames : List ℕ) :
  Except VmoFault (SparseVmo × List ℕ) := do
  let less (key x : ℕ) : Bool := v.compare (.inl key) (.inr x)
  let greater (key x : ℕ) : Bool := v.compare (.inr x) (.inl key)
  let it ← liftElement (v.elements.lowerBound (less startOffset) (greater startOffset))
  let x ← liftElement it
  let it ← if startOffset < v.offset x then liftElement (v.elements.prev x) else .ok (some x)
  let stop ← liftElement (v.elements.upperBound (less endOffset) (greater endOffset))
  commitLoop stop (v.elements.size + 1) v it frames

def commitAll (v : SparseVmo) (frames : List ℕ) : Except VmoFault (SparseVmo × List ℕ) :=
  v.commitBetweenOffsets 0 v.length frames

def pushLoop (v : SparseVmo) :
  ℕ → Option ℕ → Except VmoFault (List (Fin Pmm.pageSizeCount × ℕ))
  | 0, _ => .error .outOfFuel
  | _ + 1, none => .ok []
  | fuel + 1, some x => do
    let it ← liftElement (v.elements.next x)
    let pushed ← v.pushLoop fuel it
    .ok ((v.backingAddress x).toList.map (v.alignedToPageLevel, ·) ++ pushed)

def destroy (v : SparseVmo) :
  Except VmoFault (AvlLinks ℕ × List (Fin Pmm.pageSizeCount × ℕ)) := do
  let it ← liftElement v.elements.begin
  let pushed ← v.pushLoop (v.elements.size + 1) it
  let elements ← liftElement v.elements.destroy
  .ok (elements, pushed)

def element (v : SparseVmo) (x : ℕ) : SparseElement := ⟨v.offset x, v.backingAddress x⟩

def sparseElements (v : SparseVmo) : Option (List SparseElement) := do
  let it ← v.elements.begin
  let (xs, _) ← v.elements.increments v.elements.size it
  some (xs.map v.element)

theorem strictWeak_compare (v : SparseVmo) : StrictWeak v.compare := by
  constructor
  · intro a b h h'
    simp only [compare, decide_eq_true_eq] at h h'
    omega
  · intro a b c h h' h''
    simp only [compare, decide_eq_true_eq] at h h' h''
    omega

structure Lists (v : SparseVmo) (xs : List ℕ) : Prop where
  tree : ∃ t, Valid (onElements v.compare) v.elements t ∧ t.toList = xs
  made : ∀ x ∈ xs, x < v.created

section Tree

variable {v : SparseVmo} {xs bs : List ℕ} {x : ℕ}

theorem compare_offset (v : SparseVmo) (o x : ℕ) :
  v.compare (.inl o) (.inr x) = decide (o < v.offset x) := rfl

theorem compare_element (v : SparseVmo) (o x : ℕ) :
  v.compare (.inr x) (.inl o) = decide (v.offset x < o) := rfl

theorem comp_iff (v : SparseVmo) (x y : ℕ) :
  onElements v.compare x y = true ↔ v.offset x < v.offset y :=
  decide_eq_true_iff

theorem Lists.nodup (h : v.Lists xs) : xs.Nodup := by
  obtain ⟨t, hv, rfl⟩ := h.tree
  exact AvlLinks.nodup_of_pairwise (AvlLinks.strictWeak_onElements v.strictWeak_compare) hv.sorted

theorem Lists.next_eq (as : List ℕ) (h : v.Lists (as ++ x :: bs)) :
  v.elements.next x = some bs.head? := by
  obtain ⟨t, hv, hl⟩ := h.tree
  exact hv.next_eq (AvlLinks.strictWeak_onElements v.strictWeak_compare) hl

theorem Lists.begin_eq (h : v.Lists xs) : v.elements.begin = some xs.head? := by
  obtain ⟨t, hv, rfl⟩ := h.tree
  exact hv.begin_eq

theorem Lists.size_eq (h : v.Lists xs) : v.elements.size = xs.length := by
  obtain ⟨t, hv, rfl⟩ := h.tree
  exact hv.size

theorem Lists.back (h : v.Lists xs) (x f : ℕ) : (v.back x f).Lists xs :=
  ⟨h.tree, h.made⟩

theorem Lists.sparseElements_eq (h : v.Lists xs) : v.sparseElements = some (xs.map v.element) := by
  obtain ⟨t, hv, rfl⟩ := h.tree
  have ha := hv.increments_eq (AvlLinks.strictWeak_onElements v.strictWeak_compare)
    (nil_append t.toList).symm
  simp only [sparseElements, hv.begin_eq, hv.size, bind, Option.bind, ha]

theorem Lists.makeElement (h : v.Lists xs) (o : ℕ) :
  ∃ t, Valid (onElements (v.makeElement o).compare) (v.makeElement o).elements t ∧
  t.toList = xs := by
  obtain ⟨t, hv, rfl⟩ := h.tree
  have hne (x : ℕ) (hx : x ∈ t.toList) : x ≠ v.created := (h.made x hx).ne
  refine ⟨t, ⟨⟨hv.links.1, hv.links.2.congr fun x hx ↦ ?_⟩, hv.balanced, ?_, hv.size⟩, rfl⟩
  · have hx' := hne x hx
    exact ⟨update_of_ne hx' .., update_of_ne hx' .., update_of_ne hx' .., update_of_ne hx' ..⟩
  · refine hv.sorted.imp_of_mem fun {a b} ha hb hab ↦ ?_
    rw [comp_iff] at hab ⊢
    simpa only [SparseVmo.makeElement, update_of_ne (hne a ha), update_of_ne (hne b hb)] using hab

theorem Lists.insertElement (h : v.Lists xs) (o : ℕ) (hla : ∀ x ∈ xs, v.offset x < o) :
  ∃ es, v.insertElement o = .ok ((v.makeElement o).setElements es, v.created) ∧
  ((v.makeElement o).setElements es).Lists (xs ++ [v.created]) := by
  obtain ⟨t, hv, rfl⟩ := h.makeElement o
  have hn : v.created ∉ t.toList := fun hm ↦ (h.made _ hm).false
  have hf : (v.makeElement o).elements.Fresh v.created :=
    ⟨update_self .., update_self .., update_self .., update_self ..⟩
  have hle (y : ℕ) (hy : y ∈ t.toList) :
    onElements (v.makeElement o).compare y v.created = true := by
    rw [comp_iff]
    simpa only [SparseVmo.makeElement, update_of_ne (h.made y hy).ne, update_self] using hla y hy
  obtain ⟨y, hy, he, -⟩ | ⟨-, s', t', as, bs, hi, hv', hl, hl', -⟩ :=
    AvlLinks.insert_outcome (AvlLinks.strictWeak_onElements (strictWeak_compare _)) hv hf hn
  · exact absurd (hle y hy) (Bool.eq_false_iff.mp he.2)
  · have hbs : bs = [] := by
      refine eq_nil_iff_forall_not_mem.mpr fun b hb ↦ ?_
      have hs := hv'.sorted
      rw [hl', pairwise_append, pairwise_cons] at hs
      have ha := hs.2.1.1 b hb
      have hbe := hle b (by rw [hl]; exact mem_append_right _ hb)
      rw [comp_iff] at ha hbe
      omega
    subst hbs
    rw [List.append_nil] at hl
    refine ⟨s', ?_, ⟨t', hv', by rw [hl', hl]⟩, ?_⟩
    · simp only [SparseVmo.insertElement, hi]
      rfl
    · intro x hx
      rw [mem_append, mem_singleton] at hx
      rcases hx with hx | rfl
      · exact (h.made x hx).trans (Nat.lt_succ_self _)
      · exact Nat.lt_succ_self _

end Tree

end SparseVmo

end ReaverOS.Kernel
