import Mathlib.Data.Int.Notation
import ReaverOS.Foundation.SearchTree

namespace ReaverOS.Kernel

open Foundation.SearchTree

/-- `util::avl_tree` with the links of its nodes, and a record of the elements given to
`Traits::create`. The parent link and the balance factor share a word in the source. -/
structure AvlLinks (α : Type) extends Links ℤ α where
  size : ℕ
  released : List α := []

namespace AvlLinks

variable {α : Type} [DecidableEq α]

/-- `_rotate_left`, with the node it returns. `none` stands for a null link that is followed, here
and below. -/
def rotateLeft (s : Links ℤ α) (node : α) : Option (Links ℤ α × α) :=
  let parent := s.parent node
  (s.right node).map fun right ↦
    let rightLeft := s.left right
    let s := s.setRight node rightLeft
    let s := s.adopt rightLeft (some node)
    let s := s.setParent node (some right)
    let s := s.setLeft right (some node)
    let s := s.setParent right parent
    (s.replace parent node (some right), right)

def rotateRight (s : Links ℤ α) (node : α) : Option (Links ℤ α × α) :=
  let parent := s.parent node
  (s.left node).map fun left ↦
    let leftRight := s.right left
    let s := s.setLeft node leftRight
    let s := s.adopt leftRight (some node)
    let s := s.setParent node (some left)
    let s := s.setRight left (some node)
    let s := s.setParent left parent
    (s.replace parent node (some left), left)

def rebalanceLeft (s : Links ℤ α) (node : α) : Option (Links ℤ α × α) := do
  let right ← s.right node
  if s.tag right = 0 then rotateLeft ((s.setTag node 1).setTag right (-1)) node
  else rotateLeft ((s.setTag node 0).setTag right 0) node

def rebalanceRight (s : Links ℤ α) (node : α) : Option (Links ℤ α × α) := do
  let left ← s.left node
  if s.tag left = 0 then rotateRight ((s.setTag node (-1)).setTag left 1) node
  else rotateRight ((s.setTag node 0).setTag left 0) node

def rebalanceLeftRight (s : Links ℤ α) (node : α) : Option (Links ℤ α × α) := do
  let left ← s.left node
  let bf := s.tag (← s.right left)
  let s :=
    if bf = 0 then (s.setTag node 0).setTag left 0
    else if bf < 0 then (s.setTag node 1).setTag left 0
    else (s.setTag node 0).setTag left (-1)
  let (s, _) ← rotateLeft s left
  let (s, ret) ← rotateRight s node
  some (s.setTag ret 0, ret)

def rebalanceRightLeft (s : Links ℤ α) (node : α) : Option (Links ℤ α × α) := do
  let right ← s.right node
  let bf := s.tag (← s.left right)
  let s :=
    if bf = 0 then (s.setTag node 0).setTag right 0
    else if bf > 0 then (s.setTag node (-1)).setTag right 0
    else (s.setTag node 0).setTag right 1
  let (s, _) ← rotateRight s right
  let (s, ret) ← rotateLeft s node
  some (s.setTag ret 0, ret)

/-- `_insert_rebalance`. A loop that goes on for more rounds than the tree has levels is `none`. -/
def insertRebalance : (fuel : ℕ) → Links ℤ α → (current : α) → Option (Links ℤ α)
  | 0, _, _ => none
  | fuel + 1, s, current =>
    match s.parent current with
    | none => some s
    | some parent =>
      if s.right parent = some current then
        if s.tag parent > 0 then
          if s.tag current < 0 then (rebalanceRightLeft s parent).map Prod.fst
          else (rebalanceLeft s parent).map Prod.fst
        else if s.tag parent < 0 then some (s.setTag parent 0)
        else insertRebalance fuel (s.setTag parent 1) parent
      else
        if s.tag parent < 0 then
          if s.tag current > 0 then (rebalanceLeftRight s parent).map Prod.fst
          else (rebalanceRight s parent).map Prod.fst
        else if s.tag parent > 0 then some (s.setTag parent 0)
        else insertRebalance fuel (s.setTag parent (-1)) parent

def finishInsert (s : AvlLinks α) (links : Links ℤ α) (x : α) : Option (AvlLinks α × α × Bool) :=
  (insertRebalance (s.size + 1) links x).map fun links ↦
    ({ s with toLinks := links, size := s.size + 1 }, x, true)

def insertLoop (comp : α → α → Bool) (s : AvlLinks α) (x : α) :
  (fuel : ℕ) → (current : α) → Option (AvlLinks α × α × Bool)
  | 0, _ => none
  | fuel + 1, current =>
    if comp x current then
      match s.left current with
      | some left => insertLoop comp s x fuel left
      | none => s.finishInsert ((s.setLeft current (some x)).setParent x (some current)) x
    else if comp current x then
      match s.right current with
      | some right => insertLoop comp s x fuel right
      | none => s.finishInsert ((s.setRight current (some x)).setParent x (some current)) x
    else some (s, current, false)

def insert (comp : α → α → Bool) (s : AvlLinks α) (x : α) : Option (AvlLinks α × α × Bool) :=
  match s.root with
  | none => some ({ s with root := some x, size := s.size + 1 }, x, true)
  | some root => s.insertLoop comp x (s.size + 1) root

def findLoop (less greater : α → Bool) (s : AvlLinks α) :
  (fuel : ℕ) → (current : α) → Option (Option α)
  | 0, _ => none
  | fuel + 1, current =>
    if !less current && !greater current then some (some current)
    else if less current then
      match s.left current with
      | none => some none
      | some left => findLoop less greater s fuel left
    else
      match s.right current with
      | none => some none
      | some right => findLoop less greater s fuel right

def find (less greater : α → Bool) (s : AvlLinks α) : Option (Option α) :=
  match s.root with
  | none => some none
  | some root => s.findLoop less greater (s.size + 1) root

def leftmost (s : Links ℤ α) : (fuel : ℕ) → (x : α) → Option α
  | 0, _ => none
  | fuel + 1, x =>
    match s.left x with
    | none => some x
    | some left => leftmost s fuel left

def climb (s : Links ℤ α) : (fuel : ℕ) → (x : α) → Option (Option α)
  | 0, _ => none
  | fuel + 1, x =>
    match s.parent x with
    | none => some none
    | some parent => if s.left parent = some x then some (some parent) else climb s fuel parent

def next (s : AvlLinks α) (x : α) : Option (Option α) :=
  match s.right x with
  | some right => (leftmost s.toLinks (s.size + 1) right).map some
  | none => climb s.toLinks (s.size + 1) x

def eraseRebalance : (fuel : ℕ) → Links ℤ α → (parent : α) → (shortenedLeft : Bool) →
  Option (Links ℤ α)
  | 0, _, _, _ => none
  | fuel + 1, s, parent, shortenedLeft =>
    let onward (s : Links ℤ α) (current : α) : Option (Links ℤ α) :=
      match s.parent current with
      | none => some s
      | some parent => eraseRebalance fuel s parent (s.left parent = some current)
    if shortenedLeft then
      if s.tag parent > 0 then
        (s.right parent).bind fun right ↦
          let b := s.tag right
          (if b < 0 then rebalanceRightLeft s parent else rebalanceLeft s parent).bind fun out ↦
            if b = 0 then some out.1 else onward out.1 out.2
      else if s.tag parent = 0 then some (s.setTag parent 1)
      else onward (s.setTag parent 0) parent
    else
      if s.tag parent < 0 then
        (s.left parent).bind fun left ↦
          let b := s.tag left
          (if b > 0 then rebalanceLeftRight s parent else rebalanceRight s parent).bind fun out ↦
            if b = 0 then some out.1 else onward out.1 out.2
      else if s.tag parent = 0 then some (s.setTag parent (-1))
      else onward (s.setTag parent 0) parent

def eraseSingle (fuel : ℕ) (s : Links ℤ α) (x : α) (replacement : Option α) :
  Option (Links ℤ α) :=
  if s.root = some x then
    some (({ s with root := replacement } : Links ℤ α).adopt replacement none)
  else do
    let parent ← s.parent x
    let shortenedLeft : Bool := s.left parent = some x
    let s := s.relink parent x replacement
    let s := s.adopt replacement (some parent)
    eraseRebalance fuel s parent shortenedLeft

def relinkParent (s : Links ℤ α) (x next : α) : Links ℤ α :=
  match s.parent x with
  | none => s
  | some parent => s.relink parent x (some next)

def eraseAdjacent (fuel : ℕ) (s : Links ℤ α) (x next : α) : Option (Links ℤ α) :=
  let s := relinkParent s x next
  let s := s.setTag next (s.tag x)
  let s := s.setLeft next (s.left x)
  let s := s.adopt (s.left next) (some next)
  let s := s.setParent next (s.parent x)
  match s.parent next with
  | some _ => eraseRebalance fuel s next false
  | none =>
    let s := s.setTag next (s.tag x - 1)
    let s := { s with root := some next }
    if s.tag x < 0 then (rebalanceRight s next).map Prod.fst else some s

def eraseDeep (fuel : ℕ) (s : Links ℤ α) (x rightLeft : α) : Option (Links ℤ α) := do
  let next ← leftmost s fuel rightLeft
  let s := relinkParent s x next
  let s := s.setTag next (s.tag x)
  let shortenedBase ← s.parent next
  let s := s.setLeft shortenedBase (s.right next)
  let s := s.adopt (s.right next) (some shortenedBase)
  let s := s.setLeft next (s.left x)
  let s := s.setParent (← s.left next) (some next)
  let s := s.setRight next (s.right x)
  let s := s.setParent (← s.right next) (some next)
  let s := s.setParent next (s.parent x)
  let s := if s.parent next = none then { s with root := some next } else s
  eraseRebalance fuel s shortenedBase true

def eraseLinks (fuel : ℕ) (s : Links ℤ α) (x : α) : Option (Links ℤ α) :=
  match s.left x, s.right x with
  | some _, some right =>
    match s.left right with
    | none => eraseAdjacent fuel s x right
    | some rightLeft => eraseDeep fuel s x rightLeft
  | some left, none => eraseSingle fuel s x (some left)
  | none, replacement => eraseSingle fuel s x replacement

def erase (s : AvlLinks α) (x : α) : Option (AvlLinks α × Option α) := do
  let ret ← s.next x
  let links ← eraseLinks (s.size + 1) s.toLinks x
  some ({ toLinks := links, size := s.size - 1, released := x :: s.released }, ret)

end AvlLinks

end ReaverOS.Kernel
