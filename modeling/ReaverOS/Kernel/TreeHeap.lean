import Mathlib.Data.Nat.Basic
import Mathlib.Logic.Function.Basic

namespace ReaverOS.Kernel

open Function

structure TreeHeap (α : Type*) where
  prev : α → Option α := fun _ ↦ none
  next : α → Option α := fun _ ↦ none
  treeParent : α → Option α := fun _ ↦ none
  top : Option α := none
  size : ℕ := 0

namespace TreeHeap

variable {α : Type*} [DecidableEq α] (less : α → α → Bool) (h : TreeHeap α)

def setPrev (x : α) (v : Option α) : TreeHeap α := { h with prev := update h.prev x v }

def setNext (x : α) (v : Option α) : TreeHeap α := { h with next := update h.next x v }

def setTreeParent (x : α) (v : Option α) : TreeHeap α :=
  { h with treeParent := update h.treeParent x v }

def adopt (child : Option α) (parent : α) : TreeHeap α :=
  match child with
  | none => h
  | some child => h.setTreeParent child (some parent)

def lower (parent child : α) : TreeHeap α :=
  let h := h.setPrev parent (h.prev child)
  let h := h.setNext parent (h.next child)
  let h := h.adopt (h.prev parent) parent
  let h := h.adopt (h.next parent) parent
  let h := h.setTreeParent child (h.treeParent parent)
  h.setTreeParent parent (some child)

def lift (pprev pnext : Option α) (parent child : α) : TreeHeap α :=
  if pprev = some child then
    let h := h.setPrev child (some parent)
    let h := h.setNext child pnext
    h.adopt (h.next child) child
  else
    let h := h.setPrev child pprev
    let h := h.adopt (h.prev child) child
    h.setNext child (some parent)

def relink (pparent : Option α) (parent child : α) : TreeHeap α :=
  match pparent with
  | none => h
  | some pparent =>
    if h.prev pparent = some parent then h.setPrev pparent (some child)
    else h.setNext pparent (some child)

def swap (parent child : α) : TreeHeap α :=
  let pprev := h.prev parent
  let pnext := h.next parent
  let pparent := h.treeParent parent
  let h := h.lower parent child
  let h := h.lift pprev pnext parent child
  let h := h.relink pparent parent child
  if h.treeParent child = none then { h with top := some child } else h

def descend (levelElements nth : ℕ) : (rounds n x : ℕ) → Option α → Option α
  | 0, _, _, current => current
  | rounds + 1, n, x, current =>
    current.bind fun current ↦
      let y := levelElements / (1 <<< n) + x
      if y < nth then descend levelElements nth rounds (n + 1) y (h.next current)
      else descend levelElements nth rounds (n + 1) x (h.prev current)

def getNth (nth : ℕ) : Option α :=
  let level := Nat.log2 nth + 1
  let levelElements := 1 <<< (level - 1)
  let nth := nth - (levelElements - 1)
  h.descend levelElements nth (level - 1) 1 0 h.top

def parentOfLeftmostEmpty : Option α := h.getNth ((h.size + 1) / 2)

def rightmostFull : Option α := h.getNth h.size

def siftUp : (fuel : ℕ) → TreeHeap α → (element : α) → (parent : Option α) → Option (TreeHeap α)
  | 0, _, _, _ => none
  | fuel + 1, h, element, parent =>
    if h.top = some element then some h
    else
      parent.bind fun parent ↦
        if less element parent then
          let h := h.swap parent element
          siftUp fuel h element (h.treeParent element)
        else some h

def attach (parent element : α) : TreeHeap α :=
  let h := h.setTreeParent element (some parent)
  let h := h.setPrev element none
  let h := h.setNext element none
  if (h.prev parent).isSome then h.setNext parent (some element)
  else h.setPrev parent (some element)

/-- `none` stands for a null pointer that is followed, or a loop that goes on for more rounds than
the heap has elements. -/
def push (element : α) : Option (TreeHeap α) :=
  match h.top with
  | none => some { h with top := some element, size := h.size + 1 }
  | some _ =>
    h.parentOfLeftmostEmpty.bind fun parent ↦
      (siftUp less (h.size + 1) (h.attach parent element) element (some parent)).map fun h ↦
        { h with size := h.size + 1 }

def better (best : α) (child : Option α) : α :=
  match child with
  | none => best
  | some child => if less child best then child else best

def siftDown : (fuel : ℕ) → TreeHeap α → (element : α) → Option (TreeHeap α)
  | 0, _, _ => none
  | fuel + 1, h, element =>
    let best := better less (better less element (h.prev element)) (h.next element)
    if best = element then some h
    else siftDown fuel (h.swap element best) element

def replaceTop (top element : α) : Option (TreeHeap α) :=
  let h := { h with top := some element }
  let h := h.setPrev element (h.prev top)
  let h := h.setNext element (h.next top)
  (h.treeParent element).bind fun parent ↦
    let h := if h.prev parent = some element then h.setPrev parent none else h.setNext parent none
    let h := h.setTreeParent element none
    (h.prev top).bind fun left ↦
      let h := h.setTreeParent left (some element)
      (h.next top).map fun right ↦ h.setTreeParent right (some element)

def pop : Option (Option α × TreeHeap α) :=
  match h.size with
  | 0 => some (none, h)
  | 1 => some (h.top, { h with top := none, size := 0 })
  | 2 =>
    h.top.bind fun top ↦
      (h.prev top).map fun left ↦
        (top, { h.setTreeParent left none with top := left, size := 1 })
  | 3 =>
    h.top.bind fun top ↦
      (h.prev top).bind fun left ↦
        (h.next top).map fun right ↦
          let (first, second) := if less left right then (left, right) else (right, left)
          let h := h.setTreeParent second (some first)
          let h := h.setPrev first (some second)
          let h := h.setTreeParent first none
          (top, { h with top := first, size := 2 })
  | size + 4 =>
    h.top.bind fun top ↦
      h.rightmostFull.bind fun element ↦
        (h.replaceTop top element).bind fun h ↦
          (siftDown less (size + 4) h element).map fun h ↦ (top, { h with size := h.size - 1 })

def follow (h : TreeHeap α) (path : List Bool) : Option α :=
  path.foldl (fun current right ↦ current.bind fun x ↦ if right then h.next x else h.prev x) h.top

end TreeHeap

end ReaverOS.Kernel
