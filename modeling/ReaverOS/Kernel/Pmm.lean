import Mathlib.Algebra.Order.Group.Nat
import Mathlib.Data.List.Perm.Subperm
import Mathlib.Order.CompletePartialOrder
import Mathlib.Order.Interval.Set.Disjoint
import ReaverOS.Foundation.Fallible
import ReaverOS.Foundation.Runs
import ReaverOS.Foundation.Walk

namespace ReaverOS.Kernel.Pmm

section

open Function

def pageSizeCount : ℕ := 3

def pageSizes : ℕ → ℕ
  | 0 => 4 * 1024
  | 1 => 2 * 1024 * 1024
  | 2 => 1024 * 1024 * 1024
  | _ => 0

structure StackInfo where
  lock : ℕ := 0
  stack : ℕ := 0
  numFrames : ℕ := 0
  deriving DecidableEq

structure State where
  infos : ℕ → StackInfo := fun _ ↦ {}
  header : ℕ → ℕ := fun _ ↦ 0
  freeFrames : ℕ → ℕ := fun _ ↦ 0
  usedFrames : ℕ → ℕ := fun _ ↦ 0
  sub1MBottom : ℕ := 0
  sub1MTop : ℕ := 0

inductive Fault
  | rebalancing
  | badLayer (layer : ℕ)
  | selfDeadlock (layer : ℕ)
  deriving DecidableEq

def inc (x : ℕ) : ℕ := (x + 1) % 2 ^ 64

def dec (x : ℕ) : ℕ := (x + (2 ^ 64 - 1)) % 2 ^ 64

namespace State

def setInfo (s : State) (layer : ℕ) (info : StackInfo) : State :=
  { s with infos := update s.infos layer info }

/-- `mutex::lock`: it spins for ever on a lock that is held, unless locks are re-entrant. -/
def acquire (reentrant : Bool) (s : State) (layer : ℕ) : Except Fault State :=
  if (s.infos layer).lock = 0 ∨ reentrant = true then
    .ok (s.setInfo layer { s.infos layer with lock := (s.infos layer).lock + 1 })
  else .error (.selfDeadlock layer)

def release (s : State) (layer : ℕ) : State :=
  s.setInfo layer { s.infos layer with lock := (s.infos layer).lock - 1 }

def pushFrame (s : State) (layer frame : ℕ) : State :=
  let info := s.infos layer
  { s with
    header := update s.header frame info.stack
    infos := update s.infos layer
      { info with stack := frame, numFrames := inc info.numFrames } }

def popFrame (s : State) (layer : ℕ) : State :=
  let info := s.infos layer
  s.setInfo layer { info with stack := s.header info.stack, numFrames := dec info.numFrames }

end State

def instancePush (reentrant : Bool) (layer frame : ℕ) (s : State) : Except Fault State := do
  let s ← s.acquire reentrant layer
  .ok ((s.pushFrame layer frame).release layer)

def push (reentrant : Bool) (layer frame : ℕ) (s : State) : Except Fault State := do
  if pageSizeCount ≤ layer then .error (.badLayer layer)
  else
    let s ← instancePush reentrant layer frame s
    .ok { s with
      usedFrames := update s.usedFrames layer (dec (s.usedFrames layer))
      freeFrames := update s.freeFrames layer (inc (s.freeFrames layer)) }

def split (layer higherLayerFrame : ℕ) : List ℕ :=
  (List.range (pageSizes (layer + 1) / pageSizes layer)).map fun i ↦
    (higherLayerFrame + i * pageSizes layer) % 2 ^ 64

def pushAll (reentrant : Bool) (layer : ℕ) : List ℕ → State → Except Fault State
  | [], s => .ok s
  | frame :: frames, s => do
    let s ← push reentrant layer frame s
    pushAll reentrant layer frames s

def popAbove (reentrant : Bool) : ℕ → ℕ → State → Except Fault (ℕ × State)
  | 0, layer, s => do
    let s ← s.acquire reentrant layer
    if (s.infos layer).numFrames = 0 then .error .rebalancing
    else .ok ((s.infos layer).stack, (s.popFrame layer).release layer)
  | above + 1, layer, s => do
    let s ← s.acquire reentrant layer
    if (s.infos layer).numFrames = 0 then
      let (higherLayerFrame, s) ← popAbove reentrant above (layer + 1) s
      let s ← pushAll reentrant layer (split layer higherLayerFrame) s
      .ok ((s.infos layer).stack, (s.popFrame layer).release layer)
    else .ok ((s.infos layer).stack, (s.popFrame layer).release layer)

def instancePop (reentrant : Bool) (layer : ℕ) (s : State) : Except Fault (ℕ × State) :=
  popAbove reentrant (pageSizeCount - 1 - layer) layer s

def pop (reentrant : Bool) (layer : ℕ) (s : State) : Except Fault (ℕ × State) := do
  if pageSizeCount ≤ layer then .error (.badLayer layer)
  else
    let (frame, s) ← instancePop reentrant layer s
    .ok (frame, { s with
      freeFrames := update s.freeFrames layer (dec (s.freeFrames layer))
      usedFrames := update s.usedFrames layer (inc (s.usedFrames layer)) })

inductive MemoryType
  | unusable | free | loader | preserve | acpiReclaimable | persistent
  | kernel | initrd | paging | memoryMap | backbuffer | logBuffer | workingStack
  deriving DecidableEq

structure MemoryMapEntry where
  physicalStart : ℕ
  length : ℕ
  type : MemoryType
  attributes : ℕ
  deriving DecidableEq

def merge (start : ℕ) : ℕ → MemoryMapEntry → List MemoryMapEntry →
  ℕ × MemoryMapEntry × List MemoryMapEntry
  | size, e, [] => (size, e, [])
  | size, e, next :: rest =>
    if e.type = next.type ∧ e.attributes = next.attributes ∧
        (start + size) % 2 ^ 64 = next.physicalStart then
      merge start ((size + next.length) % 2 ^ 64) next rest
    else (size, e, next :: rest)

structure Carving where
  state : State
  start : ℕ
  remaining : ℕ

def Carving.push (c : Carving) (i : ℕ) : Except Fault Carving := do
  let s ← instancePush false i c.start c.state
  .ok {
    state := { s with freeFrames := update s.freeFrames i (inc (s.freeFrames i)) }
    start := (c.start + pageSizes i) % 2 ^ 64
    remaining := c.remaining - pageSizes i }

def Carving.pushWhile (more : ℕ → Bool) (i : ℕ) : ℕ → Carving → Except Fault Carving
  | 0, c => .ok c
  | fuel + 1, c =>
    if more c.start = true ∧ pageSizes i ≤ c.remaining then do
      let c ← c.push i
      pushWhile more i fuel c
    else .ok c

def Carving.climb (i : ℕ) (c : Carving) : Except Fault Carving :=
  c.pushWhile (fun start ↦ start % pageSizes (i + 1) != 0) i (c.remaining / pageSizes i)

def Carving.descend (i : ℕ) (c : Carving) : Except Fault Carving :=
  c.pushWhile (fun _ ↦ true) i (c.remaining / pageSizes i)

def carve (c : Carving) : Except Fault Carving := do
  let c ← c.climb 0
  let c ← c.climb 1
  let c ← c.descend 2
  let c ← c.descend 1
  c.descend 0

def countedAsUsed : MemoryType → Bool
  | .loader | .kernel | .initrd | .paging | .memoryMap | .backbuffer | .logBuffer
  | .workingStack => true
  | _ => false

def addRegion (s : State) (start size : ℕ) (e : MemoryMapEntry) : Except Fault State := do
  if e.type = .free then
    let c ← carve ⟨s, start, size⟩
    .ok c.state
  else if countedAsUsed e.type then
    .ok { s with
      usedFrames := update s.usedFrames 0 ((s.usedFrames 0 + e.length / pageSizes 0) % 2 ^ 64) }
  else .ok s

def reserveLow (s : State) (start size : ℕ) (e : MemoryMapEntry) : Except Fault State :=
  if start < 1024 * 1024 ∧ s.sub1MTop = 0 then
    if size ≤ 1024 * 1024 then .ok { s with sub1MBottom := start, sub1MTop := size }
    else addRegion { s with sub1MBottom := start, sub1MTop := 1024 * 1024 } (1024 * 1024)
      (size - 1024 * 1024) e
  else addRegion s start size e

def initializeFrom : ℕ → List MemoryMapEntry → State → Except Fault State
  | _, [], s => .ok s
  | 0, _ :: _, s => .ok s
  | fuel + 1, e :: rest, s => do
    let (size, last, rest) := merge e.physicalStart e.length e rest
    let s ← reserveLow s e.physicalStart size last
    initializeFrom fuel rest s

def initializePmm (memmap : List MemoryMapEntry) : Except Fault State :=
  initializeFrom memmap.length memmap {}

end

section

open Function Foundation.Fallible

variable {s t : State} {layer frame : ℕ} {reentrant : Bool}

theorem inc_of_lt {x : ℕ} (h : x + 1 < 2 ^ 64) : inc x = x + 1 :=
  Nat.mod_eq_of_lt h

theorem dec_of_pos {x : ℕ} (h : 0 < x) (hlt : x < 2 ^ 64) : dec x = x - 1 := by
  rw [dec]
  omega

def pushed (s : State) (layer frame : ℕ) : State :=
  { s with
    header := update s.header frame (s.infos layer).stack
    infos := update s.infos layer
      { s.infos layer with stack := frame, numFrames := inc (s.infos layer).numFrames }
    usedFrames := update s.usedFrames layer (dec (s.usedFrames layer))
    freeFrames := update s.freeFrames layer (inc (s.freeFrames layer)) }

def popped (s : State) (layer : ℕ) : State :=
  { s with
    infos := update s.infos layer
      { s.infos layer with
        stack := s.header (s.infos layer).stack
        numFrames := dec (s.infos layer).numFrames }
    usedFrames := update s.usedFrames layer (inc (s.usedFrames layer))
    freeFrames := update s.freeFrames layer (dec (s.freeFrames layer)) }

def held (s : State) (layer : ℕ) : State :=
  s.setInfo layer { s.infos layer with lock := (s.infos layer).lock + 1 }

theorem acquire_eq (hl : (s.infos layer).lock = 0 ∨ reentrant = true) :
  s.acquire reentrant layer = .ok (held s layer) :=
  if_pos hl

@[simp]
theorem held_infos_self : (held s layer).infos layer =
  { s.infos layer with lock := (s.infos layer).lock + 1 } :=
  update_self ..

theorem held_infos_of_ne {l : ℕ} (h : l ≠ layer) : (held s layer).infos l = s.infos l :=
  update_of_ne h ..

theorem release_pushFrame_held : ((held s layer).pushFrame layer frame).release layer = { s with
      header := (pushed s layer frame).header
      infos := (pushed s layer frame).infos } := by
  simp only [held, State.pushFrame, State.release, State.setInfo, pushed, update_self, update_idem]
  rfl

theorem release_popFrame_held : ((held s layer).popFrame layer).release layer =
  { s with infos := (popped s layer).infos } := by
  simp only [held, State.popFrame, State.release, State.setInfo, popped, update_self, update_idem]
  rfl

theorem push_eq (hl : layer < pageSizeCount) (hlo : (s.infos layer).lock = 0 ∨ reentrant = true) :
  push reentrant layer frame s = .ok (pushed s layer frame) := by
  rw [push, if_neg (Nat.not_le.mpr hl), instancePush, acquire_eq hlo, ok_bind,
    release_pushFrame_held]
  rfl

theorem push_locked (hl : layer < pageSizeCount) (h : (s.infos layer).lock ≠ 0) :
  push false layer frame s = .error (.selfDeadlock layer) := by
  rw [push, if_neg (not_le.mpr hl), instancePush, State.acquire, if_neg (by simp [h])]
  rfl

theorem popAbove_eq (a : ℕ) (hl : (s.infos layer).lock = 0 ∨ reentrant = true)
  (hn : (s.infos layer).numFrames ≠ 0) : popAbove reentrant a layer s = .ok ((s.infos layer).stack,
  { s with infos := (popped s layer).infos }) := by
  cases a with
  | zero =>
    rw [popAbove, acquire_eq hl, ok_bind, if_neg (by rwa [held_infos_self]),
      release_popFrame_held, held_infos_self]
  | succ a =>
    rw [popAbove, acquire_eq hl, ok_bind, if_neg (by rwa [held_infos_self]),
      release_popFrame_held, held_infos_self]

theorem pop_eq (hl : layer < pageSizeCount) (h : (s.infos layer).lock = 0 ∨ reentrant = true)
  (hn : (s.infos layer).numFrames ≠ 0) :
  pop reentrant layer s = .ok ((s.infos layer).stack, popped s layer) := by
  rw [pop, if_neg (not_le.mpr hl), instancePop, popAbove_eq _ h hn]
  rfl

theorem split_eq_cons (h : layer + 1 < pageSizeCount) (f : ℕ) :
  ∃ p parts, split layer f = p :: parts := by
  apply List.exists_cons_of_ne_nil
  obtain rfl | rfl : layer = 0 ∨ layer = 1 := by
    rw [pageSizeCount] at h
    omega
  all_goals simp [split, pageSizes]

theorem popAbove_deadlock (a : ℕ) (hl : layer + 1 < pageSizeCount)
  (h : ∀ l, layer ≤ l → (s.infos l).lock = 0) (hn : (s.infos layer).numFrames = 0)
  (hf : (s.infos (layer + 1)).numFrames ≠ 0) :
  popAbove false (a + 1) layer s = .error (.selfDeadlock layer) := by
  have hne : (held s layer).infos (layer + 1) = s.infos (layer + 1) :=
    held_infos_of_ne (Nat.succ_ne_self layer)
  rw [popAbove, acquire_eq (.inl (h layer le_rfl)), ok_bind, if_pos (by rwa [held_infos_self]),
    popAbove_eq a (.inl (by rw [hne]; exact h _ (Nat.le_succ _))) (by rwa [hne]), ok_bind]
  obtain ⟨p, ps, hs⟩ := split_eq_cons hl ((held s layer).infos (layer + 1)).stack
  simp only [hs, pushAll]
  rw [push_locked (by omega)]
  · rfl
  · simp [popped]

theorem popAbove_empty (a : ℕ) (hl : layer + a + 1 = pageSizeCount)
  (hlo : ∀ l, layer ≤ l → (s.infos l).lock = 0) (hn : (s.infos layer).numFrames = 0) :
  ∃ fault, popAbove false a layer s = .error fault := by
  induction a generalizing layer s with
  | zero =>
    refine ⟨.rebalancing, ?_⟩
    rw [popAbove, acquire_eq (.inl (hlo layer le_rfl)), ok_bind, if_pos (by rwa [held_infos_self])]
  | succ a ih =>
    rcases eq_or_ne (s.infos (layer + 1)).numFrames 0 with he | hf
    · obtain ⟨fault, hfa⟩ := @ih (held s layer) (layer + 1) (by omega)
        (fun l h ↦ by rw [held_infos_of_ne (by omega)]; exact hlo l (by omega))
        (by rwa [held_infos_of_ne (Nat.succ_ne_self layer)])
      refine ⟨fault, ?_⟩
      rw [popAbove, acquire_eq (.inl (hlo layer le_rfl)), ok_bind,
        if_pos (by rwa [held_infos_self]), hfa, error_bind]
    · exact ⟨_, popAbove_deadlock a (by omega) hlo hn hf⟩

end

open Function Foundation Runs Walk

structure Block where
  layer : ℕ
  address : ℕ
  deriving DecidableEq

namespace Block

def bytes (b : Block) : Set ℕ := Set.Ico b.address (b.address + pageSizes b.layer)

def Apart (a b : Block) : Prop :=
  a.address + pageSizes a.layer ≤ b.address ∨ b.address + pageSizes b.layer ≤ a.address

theorem Apart.symm {a b : Block} (h : Apart a b) : Apart b a :=
  Or.symm h

theorem Apart.disjoint {a b : Block} (h : Apart a b) : Disjoint a.bytes b.bytes := by
  rw [bytes, bytes, Set.disjoint_left]
  rcases h with h | h
  · exact fun x hx hy ↦ absurd (hx.2.trans_le h) (not_lt.mpr hy.1)
  · exact fun x hx hy ↦ absurd (hy.2.trans_le h) (not_lt.mpr hx.1)

def Valid (b : Block) : Prop :=
  b.layer < pageSizeCount ∧ pageSizes b.layer ∣ b.address ∧ b.address < 2 ^ 64

end Block

open Block

theorem pageSizes_zero_le {layer : ℕ} (h : layer < pageSizeCount) :
  pageSizes 0 ≤ pageSizes layer := by
  obtain rfl | rfl | rfl : layer = 0 ∨ layer = 1 ∨ layer = 2 := by
    rw [pageSizeCount] at h
    omega
  all_goals decide

def frames (s : State) (layer : ℕ) : List ℕ :=
  walk s.header (s.infos layer).numFrames (s.infos layer).stack

def blocks (s : State) : List Block :=
  (frames s 0).map (mk 0) ++ ((frames s 1).map (mk 1) ++ (frames s 2).map (mk 2))

def freeBytes (s : State) : Set ℕ := {x | ∃ b ∈ blocks s, x ∈ b.bytes}

structure WellFormed (s : State) (outstanding : List Block) : Prop where
  apart : (blocks s ++ outstanding).Pairwise Apart
  valid : ∀ b ∈ blocks s ++ outstanding, b.Valid
  unlocked : ∀ layer, (s.infos layer).lock = 0

variable {s t : State} {outstanding : List Block} {layer frame : ℕ}

theorem mem_blocks (hl : layer < pageSizeCount) :
  mk layer frame ∈ blocks s ↔ frame ∈ frames s layer := by
  obtain rfl | rfl | rfl : layer = 0 ∨ layer = 1 ∨ layer = 2 := by
    rw [pageSizeCount] at hl
    omega
  all_goals simp [blocks]

theorem blocks_perm (hl : ly < pageSizeCount)
  (h : ∀ l < pageSizeCount, l ≠ ly → frames s l = frames t l)
  (hc : frames s ly = f :: frames t ly) : (blocks s).Perm (mk ly f :: blocks t) := by
  obtain rfl | rfl | rfl : ly = 0 ∨ ly = 1 ∨ ly = 2 := by
    rw [pageSizeCount] at hl
    omega
  · rw [blocks, hc, h 1 (by decide) (by decide), h 2 (by decide) (by decide)]
    rfl
  · rw [blocks, hc, h 0 (by decide) (by decide), h 2 (by decide) (by decide)]
    exact List.perm_middle
  · rw [blocks, hc, h 0 (by decide) (by decide), h 1 (by decide) (by decide)]
    simp only [← List.append_assoc]
    exact List.perm_middle.trans (by simp [blocks])

theorem WellFormed.of_perm {outstanding' : List Block}
  (h : (blocks s ++ outstanding).Perm (blocks t ++ outstanding')) (hs : WellFormed s outstanding)
  (hu : ∀ layer, (t.infos layer).lock = 0) : WellFormed t outstanding' :=
  ⟨(h.pairwise_iff Apart.symm).mp hs.apart, fun b hb ↦ hs.valid b (h.mem_iff.mpr hb), hu⟩

theorem WellFormed.length_le (h : WellFormed s outstanding) :
  (blocks s ++ outstanding).length ≤ 2 ^ 52 := by
  have hn : ((blocks s ++ outstanding).map fun b ↦ b.address / pageSizes 0).Nodup := by
    refine List.pairwise_map.mpr (h.apart.imp_of_mem fun {a b} ha hb hab ↦ ?_)
    have ha := pageSizes_zero_le (h.valid a ha).1
    have hb := pageSizes_zero_le (h.valid b hb).1
    rw [pageSizes] at *
    rcases hab with hab | hab <;> omega
  have hs : (blocks s ++ outstanding).map (fun b ↦ b.address / pageSizes 0) ⊆
    List.range (2 ^ 52) := by
    intro x hx
    obtain ⟨b, hb, rfl⟩ := List.mem_map.mp hx
    have hlt := (h.valid b hb).2.2
    rw [List.mem_range, pageSizes]
    omega
  simpa using (List.subperm_of_subset hn hs).length_le

theorem WellFormed.numFrames_le (h : WellFormed s outstanding) (hl : layer < pageSizeCount) :
  (s.infos layer).numFrames + outstanding.length ≤ 2 ^ 52 := by
  have hle := h.length_le
  have hn : (s.infos layer).numFrames = (frames s layer).length := (length_walk ..).symm
  simp only [blocks, List.length_append, List.length_map] at hle
  obtain rfl | rfl | rfl : layer = 0 ∨ layer = 1 ∨ layer = 2 := by
    rw [pageSizeCount] at hl
    omega
  all_goals omega

variable {b : Block}

theorem WellFormed.notMem_bytes (h : WellFormed s outstanding) (hb : b ∈ outstanding)
  (hl : layer < pageSizeCount) (hf : frame ∈ frames s layer) : frame ∉ b.bytes := by
  have ha := (List.pairwise_append.mp h.apart).2.2 _ ((mem_blocks hl).mpr hf) b hb
  intro hm
  have hp := pageSizes_zero_le hl
  rw [pageSizes] at hp
  have hlo := hm.1
  have hh := hm.2
  simp only [Apart] at ha
  omega

theorem WellFormed.address_notMem (h : WellFormed s outstanding) (hb : b ∈ outstanding)
  (hl : layer < pageSizeCount) : b.address ∉ frames s layer := by
  intro hm
  refine h.notMem_bytes hb hl hm ⟨le_rfl, ?_⟩
  have hp := pageSizes_zero_le (h.valid b (List.mem_append_right _ hb)).1
  rw [pageSizes] at hp
  omega

theorem frames_popped_of_ne {l : ℕ} (h : l ≠ layer) : frames (popped s layer) l = frames s l := by
  simp only [frames, popped, update_of_ne h]

theorem frames_popped (hn : (s.infos layer).numFrames ≠ 0)
  (h : (s.infos layer).numFrames < 2 ^ 64) :
  frames s layer = (s.infos layer).stack :: frames (popped s layer) layer := by
  obtain ⟨n, hn⟩ := Nat.exists_eq_succ_of_ne_zero hn
  simp only [frames, popped, update_self]
  rw [dec_of_pos (by omega) h, hn]
  rfl

theorem blocks_popped (hl : layer < pageSizeCount) (h : WellFormed s outstanding)
  (hn : (s.infos layer).numFrames ≠ 0) :
  (blocks s).Perm (mk layer (s.infos layer).stack :: blocks (popped s layer)) :=
  blocks_perm hl (fun _ _ hne ↦ (frames_popped_of_ne hne).symm)
    (frames_popped hn (by have := h.numFrames_le hl; omega))

theorem popped_unlocked (h : ∀ l, (s.infos l).lock = 0) (l : ℕ) :
  ((popped s layer).infos l).lock = 0 := by
  rcases eq_or_ne l layer with rfl | hne
  · simpa only [popped, update_self] using h l
  · simpa only [popped, update_of_ne hne] using h l

theorem wellFormed_popped (h : WellFormed s outstanding) (hl : layer < pageSizeCount)
  (hn : (s.infos layer).numFrames ≠ 0) :
  WellFormed (popped s layer) (mk layer (s.infos layer).stack :: outstanding) := by
  refine h.of_perm ?_ (popped_unlocked h.unlocked)
  exact ((blocks_popped hl h hn).append_right _).trans List.perm_middle.symm

theorem frames_pushed_of_ne {l : ℕ} (hn : l ≠ layer) (h : frame ∉ frames s l) :
  frames (pushed s layer frame) l = frames s l := by
  simp only [frames, pushed, update_of_ne hn]
  exact walk_update_of_notMem _ h

theorem frames_pushed (hl : (s.infos layer).numFrames + 1 < 2 ^ 64) (h : frame ∉ frames s layer) :
  frames (pushed s layer frame) layer = frame :: frames s layer := by
  simp only [frames, pushed, update_self, inc_of_lt hl]
  exact walk_push h

theorem pushed_unlocked (h : ∀ l, (s.infos l).lock = 0) (l : ℕ) :
  ((pushed s layer frame).infos l).lock = 0 := by
  rcases eq_or_ne l layer with rfl | hne
  · simpa only [pushed, update_self] using h l
  · simpa only [pushed, update_of_ne hne] using h l

theorem wellFormed_pushed (h : WellFormed s outstanding) (hb : b ∈ outstanding) :
  WellFormed (pushed s b.layer b.address) (outstanding.erase b) := by
  have hl := (h.valid b (List.mem_append_right _ hb)).1
  have hr := h.numFrames_le hl
  have hp : (blocks (pushed s b.layer b.address)).Perm (b :: blocks s) :=
    blocks_perm hl (fun l hl hn ↦ frames_pushed_of_ne hn (h.address_notMem hb hl))
      (frames_pushed (by omega) (h.address_notMem hb hl))
  refine h.of_perm ?_ (pushed_unlocked h.unlocked)
  calc
    (blocks s ++ outstanding).Perm (blocks s ++ b :: outstanding.erase b) :=
      (List.perm_cons_erase hb).append_left _
    _ |>.Perm (b :: blocks s ++ outstanding.erase b) := List.perm_middle
    _ |>.Perm (blocks (pushed s b.layer b.address) ++ outstanding.erase b) :=
      hp.symm.append_right _

structure System where
  state : State
  outstanding : List Block

inductive Op
  | pop (layer : ℕ)
  | push (b : Block)
  | use (b : Block) (contents : ℕ → ℕ)

def used (s : State) (b : Block) (contents : ℕ → ℕ) : State :=
  { s with header := fun a ↦
      if b.address ≤ a ∧ a < b.address + pageSizes b.layer then contents a else s.header a }

def step (reentrant : Bool) (x : System) : Op → Option System
  | .pop layer =>
    match pop reentrant layer x.state with
    | .ok (frame, s) => some ⟨s, ⟨layer, frame⟩ :: x.outstanding⟩
    | .error _ => none
  | .push b =>
    if b ∈ x.outstanding then
      match push reentrant b.layer b.address x.state with
      | .ok s => some ⟨s, x.outstanding.erase b⟩
      | .error _ => none
    else none
  | .use b contents =>
    if b ∈ x.outstanding then some { x with state := used x.state b contents } else none

theorem wellFormed_used (h : WellFormed s outstanding) (hb : b ∈ outstanding) (cs : ℕ → ℕ) :
  WellFormed (used s b cs) outstanding := by
  have hf (l : ℕ) (hl : l < pageSizeCount) : frames (used s b cs) l = frames s l := by
    symm
    apply walk_congr
    intro x hx
    exact (if_neg (h.notMem_bytes hb hl hx)).symm
  have hbl : blocks (used s b cs) = blocks s := by
    simp only [blocks, hf 0 (by decide), hf 1 (by decide), hf 2 (by decide)]
  exact ⟨hbl ▸ h.apart, hbl ▸ h.valid, h.unlocked⟩

theorem pop_false_cases (hu : ∀ l, (s.infos l).lock = 0) : (∃ f, pop false layer s = .error f) ∨
  layer < pageSizeCount ∧ (s.infos layer).numFrames ≠ 0 ∧
  pop false layer s = .ok ((s.infos layer).stack, popped s layer) := by
  rcases lt_or_ge layer pageSizeCount with hl | hl
  · rcases eq_or_ne (s.infos layer).numFrames 0 with hn | hn
    · obtain ⟨f, hf⟩ := popAbove_empty (pageSizeCount - 1 - layer) (by omega) (fun l _ ↦ hu l) hn
      refine .inl ⟨f, ?_⟩
      rw [pop, if_neg (not_le.mpr hl), instancePop, hf]
      rfl
    · exact .inr ⟨hl, hn, pop_eq hl (.inl (hu layer)) hn⟩
  · exact .inl ⟨_, if_pos hl⟩

variable {x y : System}

theorem step_cases {r : Bool} {op : Op} (h : step r x op = some y) :
  (∃ layer frame t, op = .pop layer ∧ pop r layer x.state = .ok (frame, t) ∧
  y = ⟨t, ⟨layer, frame⟩ :: x.outstanding⟩) ∨ (∃ b ∈ x.outstanding, ∃ t, op = .push b ∧
  push r b.layer b.address x.state = .ok t ∧ y = ⟨t, x.outstanding.erase b⟩) ∨
  ∃ b ∈ x.outstanding, ∃ cs, op = .use b cs ∧ y = { x with state := used x.state b cs } := by
  cases op with
  | pop layer =>
    rw [step] at h
    split at h
    next frame t hpo => exact .inl ⟨layer, frame, t, rfl, hpo, (Option.some.inj h).symm⟩
    next => cases h
  | push b =>
    rw [step] at h
    split at h
    next hb =>
      split at h
      next t hp => exact .inr (.inl ⟨b, hb, t, rfl, hp, (Option.some.inj h).symm⟩)
      next => cases h
    next => cases h
  | use b cs =>
    rw [step] at h
    split at h
    next hb => exact .inr (.inr ⟨b, hb, cs, rfl, (Option.some.inj h).symm⟩)
    next => cases h

theorem wellFormed_step {op : Op} (hx : WellFormed x.state x.outstanding)
  (h : step false x op = some y) : WellFormed y.state y.outstanding := by
  rcases step_cases h with ⟨layer, frame, t, -, hpo, rfl⟩ | ⟨b, hb, t, -, hp, rfl⟩ |
    ⟨b, hb, contents, -, rfl⟩
  · rcases pop_false_cases hx.unlocked with ⟨fault, hf⟩ | ⟨hl, hn, heq⟩
    · cases hpo.symm.trans hf
    · cases hpo.symm.trans heq
      exact wellFormed_popped hx hl hn
  · have hl := (hx.valid b (List.mem_append_right _ hb)).1
    cases hp.symm.trans (push_eq hl (.inl (hx.unlocked _)))
    exact wellFormed_pushed hx hb
  · exact wellFormed_used hx hb contents

theorem wellFormed_reachable (hx : WellFormed x.state x.outstanding)
  (h : Reachable (step false) Unrestricted x y) : WellFormed y.state y.outstanding :=
  h.invariant hx fun _ _ _ hi _ hs ↦ wellFormed_step hi hs

def Allocates (s : State) (layer : ℕ) : Prop :=
  ∃ frame t, pop false layer s = .ok (frame, t) ∧ pageSizes layer ∣ frame ∧
    bytes ⟨layer, frame⟩ ⊆ freeBytes s ∧ freeBytes t = freeBytes s \ bytes ⟨layer, frame⟩

theorem freeBytes_of_perm (h : (blocks s).Perm (b :: blocks t)) (hs : (blocks s).Pairwise Apart) :
  b.bytes ⊆ freeBytes s ∧ freeBytes t = freeBytes s \ b.bytes := by
  have hb : b ∈ blocks s := h.mem_iff.mpr (List.mem_cons_self ..)
  have ha := (List.pairwise_cons.mp ((h.pairwise_iff Apart.symm).mp hs)).1
  refine ⟨fun x hx ↦ ⟨b, hb, hx⟩, Set.ext fun x ↦ ⟨?_, ?_⟩⟩
  · rintro ⟨c, hc, hx⟩
    exact ⟨⟨c, h.mem_iff.mpr (List.mem_cons_of_mem _ hc), hx⟩,
      fun hxb ↦ Set.disjoint_left.mp (ha c hc).disjoint hxb hx⟩
  · rintro ⟨⟨c, hc, hx⟩, hxb⟩
    rcases List.mem_cons.mp (h.mem_iff.mp hc) with rfl | hc
    · exact absurd hx hxb
    · exact ⟨c, hc, hx⟩

theorem allocates_iff (h : WellFormed s []) (hl : layer < pageSizeCount) :
  Allocates s layer ↔ frames s layer ≠ [] := by
  have hni : frames s layer ≠ [] ↔ (s.infos layer).numFrames ≠ 0 := by
    rw [← List.length_pos_iff, Nat.pos_iff_ne_zero, frames, length_walk]
  rw [hni]
  rcases pop_false_cases h.unlocked with ⟨fault, hf⟩ | ⟨-, hn, heq⟩
  · refine ⟨?_, fun hn ↦ ?_⟩
    · rintro ⟨frame, t, hp, -⟩
      cases hp.symm.trans hf
    · cases hf.symm.trans (pop_eq hl (.inl (h.unlocked layer)) hn)
  · refine ⟨fun _ ↦ hn, fun _ ↦ ⟨_, _, heq, ?_, ?_⟩⟩
    · have hm := (blocks_popped hl h hn).mem_iff.mpr (List.mem_cons_self ..)
      exact (h.valid _ (List.mem_append_left _ hm)).2.1
    · exact freeBytes_of_perm (blocks_popped hl h hn) (List.pairwise_append.mp h.apart).1

theorem frame_allocation_iff (s : State) (hs : WellFormed s []) :
    (∀ layer layer', layer ≤ layer' → layer' < pageSizeCount → frames s layer' ≠ [] →
      (Allocates s layer ↔ frames s layer ≠ [])) ∧
    ∀ y, Reachable (step false) Unrestricted ⟨s, []⟩ y →
      y.outstanding.Pairwise fun a b ↦ Disjoint a.bytes b.bytes := by
  refine ⟨fun layer layer' h hl _ ↦ allocates_iff hs (h.trans_lt hl), fun y hy ↦ ?_⟩
  have hwf := wellFormed_reachable hs hy
  exact (List.pairwise_append.mp hwf.apart).2.1.imp Apart.disjoint

def oneFrame (layer frame : ℕ) : State :=
  { infos := fun l ↦ if l = layer then ⟨0, frame, 1⟩ else {} }

theorem wellFormed_oneFrame (hl : layer < pageSizeCount) (h : (mk layer frame).Valid) :
  WellFormed (oneFrame layer frame) [] := by
  have hb : blocks (oneFrame layer frame) = [mk layer frame] := by
    obtain rfl | rfl | rfl : layer = 0 ∨ layer = 1 ∨ layer = 2 := by
      rw [pageSizeCount] at hl
      omega
    all_goals rfl
  refine ⟨?_, ?_, fun l ↦ ?_⟩
  · rw [hb]
    exact List.pairwise_singleton ..
  · rw [hb]
    simpa using h
  · simp only [oneFrame]
    split <;> rfl

theorem frame_allocation_oneFrame : Allocates (oneFrame 0 0x1000) 0 :=
  ((frame_allocation_iff (oneFrame 0 0x1000)
    (wellFormed_oneFrame (by decide) ⟨by decide, ⟨1, rfl⟩, by decide⟩)).1 0 0 le_rfl (by decide)
    (by decide)).mpr (by decide)

theorem frame_allocation_deadlock :
    WellFormed (oneFrame 1 0x200000) [] ∧ frames (oneFrame 1 0x200000) 1 ≠ [] ∧
      pop false 0 (oneFrame 1 0x200000) = .error (.selfDeadlock 0) ∧
      ¬ Allocates (oneFrame 1 0x200000) 0 := by
  have hwf : WellFormed (oneFrame 1 0x200000) [] :=
    wellFormed_oneFrame (by decide) ⟨by decide, ⟨1, rfl⟩, by decide⟩
  refine ⟨hwf, by decide, ?_, ?_⟩
  · rw [pop, if_neg (by decide), instancePop]
    rw [show pageSizeCount - 1 - 0 = 1 + 1 from rfl,
      popAbove_deadlock 1 (by decide) (fun l _ ↦ hwf.unlocked l) rfl (by decide)]
    rfl
  · rw [allocates_iff hwf (by decide)]
    decide

end ReaverOS.Kernel.Pmm
