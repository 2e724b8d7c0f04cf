import Mathlib.Data.List.Nodup
import Mathlib.Tactic.Linarith
import ReaverOS.Foundation.ByteMemory
import ReaverOS.Foundation.Runs

namespace ReaverOS.Kernel.Chained

open Function Foundation ByteMemory List

section

structure Layout where
  size : ℕ
  base : ℕ
  fits : base + 16 ≤ size
  size_le : size ≤ 4096

namespace Layout

def prev (T : Layout) (ptr : ℕ) : ℕ := ptr + T.base

def next (T : Layout) (ptr : ℕ) : ℕ := ptr + T.base + 8

def slot (T : Layout) (first i : ℕ) : ℕ := first + i * T.size

end Layout

/-- `chained_head<T>` and its memory, with records of the frames taken from the PMM and of the live
objects. -/
structure State where
  memory : ByteMemory
  head : ℕ := 0
  frames : List ℕ := []
  live : List ℕ := []

variable (T : Layout)

def linkLoop (first : ℕ) : (rounds i : ℕ) → ByteMemory → Option ByteMemory
  | 0, _, _ => none
  | rounds + 1, i, m =>
    if (i + 1) * T.size ≤ 4096 then
      let m := m.store (T.next (T.slot first (i - 1))) 8 (T.slot first i)
      let m := m.store (T.prev (T.slot first i)) 8 (T.slot first (i - 1))
      let m := m.store (T.next (T.slot first i)) 8 0
      linkLoop first rounds (i + 1) m
    else some m

def refill (s : State) (frame : ℕ) : Option State :=
  if s.head = 0 then
    (linkLoop T frame 4096 1 (s.memory.store (T.prev frame) 8 0)).map fun memory ↦
      { s with memory, head := frame, frames := frame :: s.frames }
  else some s

def allocate (s : State) (frame : ℕ) : Option State :=
  (refill T s frame).map fun s ↦
    { s with head := s.memory.load (T.next s.head) 8, live := s.head :: s.live }

def deallocate (s : State) (ptr : ℕ) : State :=
  let memory := s.memory.store (T.prev ptr) 8 0
  let memory := memory.store (T.next ptr) 8 s.head
  let memory := if s.head ≠ 0 then memory.store (T.prev s.head) 8 ptr else memory
  { s with memory, head := ptr, live := s.live.erase ptr }

inductive Op
  | allocate (frame : ℕ)
  | deallocate (ptr : ℕ)
  | write (address : ℕ) (value : UInt8)

def step (s : State) : Op → Option State
  | .allocate frame => allocate T s frame
  | .deallocate ptr => some (deallocate T s ptr)
  | .write address value => some { s with memory := update s.memory address value }

/-- A frame is aligned and handed out once. Only live objects are freed, and only they or other
memory are written. -/
def Allowed (s : State) : Op → Prop
  | .allocate frame => 0 < frame ∧ frame % 4096 = 0 ∧ frame + 4096 ≤ 2 ^ 64 ∧ frame ∉ s.frames
  | .deallocate ptr => ptr ∈ s.live
  | .write address _ => (∃ ptr ∈ s.live, ptr ≤ address ∧ address < ptr + T.size) ∨
      ∀ frame ∈ s.frames, address < frame ∨ frame + 4096 ≤ address

structure Safe (s : State) : Prop where
  inside : ∀ ptr ∈ s.live, ∃ frame ∈ s.frames, frame ≤ ptr ∧ ptr + T.size ≤ frame + 4096
  disjoint : s.live.Pairwise fun p q ↦ p + T.size ≤ q ∨ q + T.size ≤ p

def Chain (m : ByteMemory) : ℕ → List ℕ → Prop
  | p, [] => p = 0
  | p, q :: qs => p = q ∧ q ≠ 0 ∧ Chain m (m.load (T.next q) 8) qs

def Slot (frames : List ℕ) (ptr : ℕ) : Prop :=
  ∃ frame ∈ frames, ∃ i, ptr = T.slot frame i ∧ (i + 1) * T.size ≤ 4096

structure Holds (s : State) (free : List ℕ) : Prop where
  chain : Chain T s.memory s.head free
  nodup : (free ++ s.live).Nodup
  slots : ∀ ptr ∈ free ++ s.live, Slot T s.frames ptr
  aligned : ∀ frame ∈ s.frames, 0 < frame ∧ frame % 4096 = 0 ∧ frame + 4096 ≤ 2 ^ 64

variable {T} {s t : State} {m m' : ByteMemory} {frames free live : List ℕ} {p q ptr frame : ℕ}

theorem Layout.size_pos (T : Layout) : 0 < T.size := by
  have := T.fits
  omega

theorem Slot.inside (h : Slot T frames p) :
  ∃ frame ∈ frames, frame ≤ p ∧ p + T.size ≤ frame + 4096 := by
  obtain ⟨frame, hf, i, rfl, hi⟩ := h
  refine ⟨frame, hf, Nat.le_add_right _ _, ?_⟩
  rw [add_mul, one_mul] at hi
  rw [Layout.slot]
  omega

theorem Slot.disjoint (hp : Slot T frames p) (hq : Slot T frames q) (h : p ≠ q)
  (ha : ∀ frame ∈ frames, frame % 4096 = 0) : p + T.size ≤ q ∨ q + T.size ≤ p := by
  obtain ⟨f, hf, i, rfl, hi⟩ := hp
  obtain ⟨g, hg, j, rfl, hj⟩ := hq
  have hf' := ha f hf
  have hg' := ha g hg
  rw [add_mul, one_mul] at hi hj
  rw [Layout.slot, Layout.slot] at h ⊢
  obtain hl | he | hgt := Nat.lt_trichotomy f g
  · omega
  · subst he
    obtain hl | rfl | hgt := Nat.lt_trichotomy i j
    · have := Nat.mul_le_mul_right T.size (Nat.succ_le_of_lt hl)
      rw [Nat.succ_eq_add_one, add_mul, one_mul] at this
      omega
    · exact absurd rfl h
    · have := Nat.mul_le_mul_right T.size (Nat.succ_le_of_lt hgt)
      rw [Nat.succ_eq_add_one, add_mul, one_mul] at this
      omega
  · omega

theorem Holds.safe (h : Holds T s free) : Safe T s := by
  refine ⟨fun ptr hpt ↦ (h.slots ptr (mem_append_right _ hpt)).inside, ?_⟩
  have hn := (nodup_append'.mp h.nodup).2.1
  refine hn.imp_of_mem fun {p q} hp hq hne ↦ ?_
  exact (h.slots p (mem_append_right _ hp)).disjoint (h.slots q (mem_append_right _ hq))
    hne fun frame hf ↦ (h.aligned frame hf).2.1

theorem Chain.congr (h : Chain T m p free)
  (he : ∀ q ∈ free, m'.load (T.next q) 8 = m.load (T.next q) 8) : Chain T m' p free := by
  induction free generalizing p with
  | nil => exact h
  | cons q qs ih =>
    obtain ⟨rfl, hn, hr⟩ := h
    refine ⟨rfl, hn, ?_⟩
    rw [he p mem_cons_self]
    exact ih hr fun q hq ↦ he q (mem_cons_of_mem _ hq)

end

open Runs

variable {T : Layout} {s t : State} {m m' : ByteMemory} {free : List ℕ}
  {p q ptr frame first i rounds : ℕ}

def Layout.count (T : Layout) : ℕ := 4096 / T.size

theorem succ_mul_size_le_iff : (i + 1) * T.size ≤ 4096 ↔ i < T.count :=
  (Nat.le_div_iff_mul_le T.size_pos).symm

structure Linked (T : Layout) (m : ByteMemory) (first i : ℕ) : Prop where
  next : ∀ j, j + 1 < i → m.load (T.next (T.slot first j)) 8 = T.slot first (j + 1)
  last : 2 ≤ i → m.load (T.next (T.slot first (i - 1))) 8 = 0

theorem slot_succ_le (T : Layout) (x : ℕ) {j : ℕ} (h : j < i) :
  T.slot x j + T.size ≤ T.slot x i := by
  have := Nat.mul_le_mul_right T.size (Nat.succ_le_of_lt h)
  rw [Nat.succ_eq_add_one, add_mul, one_mul] at this
  rw [Layout.slot, Layout.slot]
  omega

theorem slot_add_le (x : ℕ) (hi : i < T.count) : T.slot x i + T.size ≤ x + 4096 := by
  have := succ_mul_size_le_iff.mpr hi
  rw [add_mul, one_mul] at this
  rw [Layout.slot]
  omega

def link (T : Layout) (first i : ℕ) (m : ByteMemory) : ByteMemory :=
  ((m.store (T.next (T.slot first (i - 1))) 8 (T.slot first i)).store
    (T.prev (T.slot first i)) 8 (T.slot first (i - 1))).store (T.next (T.slot first i)) 8 0

theorem Linked.link (h : Linked T m first i) (hi : 1 ≤ i) (hc : i < T.count)
  (hf : first + 4096 ≤ 2 ^ 64) : Linked T (link T first i m) first (i + 1) := by
  have hfi := T.fits
  have hp := slot_succ_le T first (Nat.sub_lt hi Nat.one_pos)
  have he := slot_add_le first hc
  have hk : ∀ j, j + 1 ≤ i → (Chained.link T first i m).load (T.next (T.slot first j)) 8 =
    (m.store (T.next (T.slot first (i - 1))) 8 (T.slot first i)).load
    (T.next (T.slot first j)) 8 := by
    intro j hj
    have hl := slot_succ_le T first (Nat.lt_of_succ_le hj)
    rw [Chained.link, load_store_of_disjoint, load_store_of_disjoint]
    · rw [Layout.next, Layout.prev]
      omega
    · rw [Layout.next, Layout.next]
      omega
  refine ⟨fun j hj ↦ ?_, fun _ ↦ ?_⟩
  · rw [hk j (by omega)]
    obtain hl | rfl := lt_or_eq_of_le (Nat.le_sub_one_of_lt (Nat.lt_of_succ_lt_succ hj))
    · have hb := slot_succ_le T first hl
      rw [load_store_of_disjoint, h.next j (by omega)]
      rw [Layout.next, Layout.next]
      omega
    · rw [load_store (by omega), Nat.sub_add_cancel hi]
  · rw [Nat.add_sub_cancel, Chained.link, load_store (by decide)]

theorem link_apply_of_outside (hi : 1 ≤ i) (hc : i < T.count) {b : ℕ}
  (hb : b < first ∨ first + 4096 ≤ b) : link T first i m b = m b := by
  have hf := T.fits
  have hp := slot_add_le (T := T) first (i := i - 1) (by omega)
  have he := slot_add_le first hc
  have hs : first ≤ T.slot first i := Nat.le_add_right _ _
  have hs' : first ≤ T.slot first (i - 1) := Nat.le_add_right _ _
  rw [link, store_apply_of_outside, store_apply_of_outside, store_apply_of_outside]
  all_goals
    simp only [Layout.next, Layout.prev]
    omega

theorem linkLoop_spec (h : Linked T m first i) (hi : 1 ≤ i) (hle : i ≤ T.count)
  (hr : T.count < i + rounds) (hf : first + 4096 ≤ 2 ^ 64) :
  ∃ m', linkLoop T first rounds i m = some m' ∧ Linked T m' first T.count ∧
  ∀ b, b < first ∨ first + 4096 ≤ b → m' b = m b := by
  induction rounds generalizing i m with
  | zero => exact absurd hr (by omega)
  | succ rounds ih =>
    rw [linkLoop]
    by_cases hc : i < T.count
    · rw [if_pos (succ_mul_size_le_iff.mpr hc)]
      obtain ⟨m', hlo, hl, ho⟩ := ih (h.link hi hc hf) (by omega) hc (by omega)
      exact ⟨m', hlo, hl, fun b hb ↦ (ho b hb).trans (link_apply_of_outside hi hc hb)⟩
    · rw [if_neg fun hs ↦ hc (succ_mul_size_le_iff.mp hs)]
      obtain rfl : i = T.count := by omega
      exact ⟨m, rfl, h, fun _ _ ↦ rfl⟩

theorem Linked.chain (h : Linked T m first T.count) (hc : 2 ≤ T.count) (hf : 0 < first)
  {l : ℕ} (hi : i + l = T.count) (hl : 0 < l) :
  Chain T m (T.slot first i) ((List.range' i l).map (T.slot first)) := by
  induction l generalizing i with
  | zero => exact absurd hl (lt_irrefl 0)
  | succ l ih =>
    have hne : T.slot first i ≠ 0 := by
      rw [Layout.slot]
      omega
    rw [range'_succ, map_cons]
    refine ⟨rfl, hne, ?_⟩
    cases l with
    | zero =>
      have hla := h.last hc
      rwa [show T.count - 1 = i by omega] at hla
    | succ l =>
      rw [h.next i (by omega)]
      exact ih (by omega) (Nat.succ_pos l)

theorem count_bounds (T : Layout) : 1 ≤ T.count ∧ T.count < 1 + 4096 := by
  refine ⟨(Nat.le_div_iff_mul_le T.size_pos).mpr (by have := T.size_le; omega), ?_⟩
  exact lt_of_le_of_lt (Nat.div_le_self _ _) (by decide)

theorem Holds.ne_zero (h : Holds T s free) (hp : p ∈ free ++ s.live) :
  p ≠ 0 ∧ p + T.size ≤ 2 ^ 64 := by
  obtain ⟨frame, hf, hle, he⟩ := (h.slots p hp).inside
  obtain ⟨hpo, -, hl⟩ := h.aligned frame hf
  omega

theorem Holds.disjoint (h : Holds T s free) (hp : p ∈ free ++ s.live) (hq : q ∈ free ++ s.live)
  (hn : p ≠ q) : p + T.size ≤ q ∨ q + T.size ≤ p :=
  (h.slots p hp).disjoint (h.slots q hq) hn fun frame hf ↦ (h.aligned frame hf).2.1

theorem Holds.ne_of_mem (h : Holds T s free) (hp : p ∈ s.live) (hq : q ∈ free) : p ≠ q := by
  rintro rfl
  exact (nodup_append'.mp h.nodup).2.2 hq hp

theorem Holds.write {a : ℕ} {v : UInt8} (h : Holds T s free) (hop : Allowed T s (.write a v)) :
  Holds T { s with memory := update s.memory a v } free := by
  refine ⟨h.chain.congr fun q hq ↦ load_update_of_outside ?_, h.nodup, h.slots, h.aligned⟩
  have hfi := T.fits
  rw [Layout.next]
  obtain ⟨ptr, hp, hl, hlt⟩ | ho := hop
  · have := h.disjoint (mem_append_right _ hp) (mem_append_left _ hq) (h.ne_of_mem hp hq)
    omega
  · obtain ⟨frame, hf, hl, he⟩ := (h.slots q (mem_append_left _ hq)).inside
    have := ho frame hf
    omega

theorem Holds.head_cases (h : Holds T s free) :
  s.head = 0 ∧ free = [] ∨ ∃ xs, free = s.head :: xs ∧ s.head ≠ 0 := by
  cases free with
  | nil => exact .inl ⟨h.chain, rfl⟩
  | cons q xs =>
    obtain ⟨rfl, hn, -⟩ := h.chain
    exact .inr ⟨xs, rfl, hn⟩

theorem Holds.deallocate_memory (h : Holds T s free) (hp : ptr ∈ s.live) :
  (∀ q ∈ free, (deallocate T s ptr).memory.load (T.next q) 8 = s.memory.load (T.next q) 8) ∧
  (deallocate T s ptr).memory.load (T.next ptr) 8 = s.head := by
  have hf := T.fits
  have hs : ∀ q ∈ free, ((s.memory.store (T.prev ptr) 8 0).store (T.next ptr) 8 s.head).load
    (T.next q) 8 = s.memory.load (T.next q) 8 := by
    intro q hq
    have := h.disjoint (mem_append_right _ hp) (mem_append_left _ hq) (h.ne_of_mem hp hq)
    rw [load_store_of_disjoint, load_store_of_disjoint]
    · rw [Layout.next, Layout.prev]
      omega
    · rw [Layout.next, Layout.next]
      omega
  obtain ⟨hh, rfl⟩ | ⟨xs, rfl, hh⟩ := h.head_cases
  · rw [deallocate, if_neg (not_not.mpr hh)]
    exact ⟨hs, load_store (by rw [hh]; decide)⟩
  · have hm := mem_append_left s.live (mem_cons_self (a := s.head) (l := xs))
    have hl := (h.ne_zero hm).2
    rw [deallocate, if_pos hh]
    refine ⟨fun q hq ↦ ?_, ?_⟩
    · -- the head may be the object itself, whose `prev` is in front of its `next`
      refine Eq.trans (load_store_of_disjoint ?_) (hs q hq)
      rw [Layout.next, Layout.prev]
      by_cases heq : s.head = q
      · omega
      · have := h.disjoint hm (mem_append_left _ hq) heq
        omega
    · have := h.disjoint (mem_append_right _ hp) hm (h.ne_of_mem hp mem_cons_self)
      refine Eq.trans (load_store_of_disjoint ?_) (load_store ?_)
      · rw [Layout.next, Layout.prev]
        omega
      · omega

theorem Holds.deallocate (h : Holds T s free) (hpt : pt ∈ s.live) :
  Holds T (Chained.deallocate T s pt) (pt :: free) := by
  obtain ⟨hk, hn⟩ := h.deallocate_memory hpt
  have hp : (pt :: free ++ s.live.erase pt).Perm (free ++ s.live) :=
    perm_middle.symm.trans ((perm_cons_erase hpt).symm.append_left free)
  refine ⟨⟨rfl, (h.ne_zero (mem_append_right _ hpt)).1, ?_⟩, hp.nodup_iff.mpr h.nodup,
    fun q hq ↦ h.slots q (hp.mem_iff.mp hq), h.aligned⟩
  rw [hn]
  exact h.chain.congr hk

theorem Holds.pop {rest : List ℕ} (h : Holds T s (p :: rest)) :
  Holds T { s with head := s.memory.load (T.next s.head) 8, live := s.head :: s.live } rest := by
  obtain ⟨rfl, hne, hr⟩ := h.chain
  have hp : (rest ++ s.head :: s.live).Perm (s.head :: rest ++ s.live) := perm_middle
  exact ⟨hr, hp.nodup_iff.mpr h.nodup, fun q hq ↦ h.slots q (hp.mem_iff.mp hq), h.aligned⟩

theorem nodup_slots (T : Layout) (x n : ℕ) : ((List.range' 0 n).map (T.slot x)).Nodup := by
  refine (nodup_range' ..).map fun i j h ↦ ?_
  rw [Layout.slot, Layout.slot, Nat.add_left_cancel_iff] at h
  exact Nat.eq_of_mul_eq_mul_right T.size_pos h

theorem Holds.grow (h : Holds T s []) (ho : Allowed T s (.allocate frame))
  (hl : Linked T m frame T.count) (hc : 2 ≤ T.count) :
  Holds T { s with memory := m, head := frame, frames := frame :: s.frames }
  ((List.range' 0 T.count).map (T.slot frame)) := by
  obtain ⟨hpo, ha, hlm, hfr⟩ := ho
  have hs : ∀ p ∈ (List.range' 0 T.count).map (T.slot frame), Slot T (frame :: s.frames) p := by
    intro p hp
    obtain ⟨i, hi, rfl⟩ := mem_map.mp hp
    have hlt : i < T.count := by simpa using mem_range'.mp hi
    exact ⟨frame, mem_cons_self, i, rfl, succ_mul_size_le_iff.mpr hlt⟩
  refine ⟨?_, ?_, ?_, forall_mem_cons.mpr ⟨⟨hpo, ha, hlm⟩, h.aligned⟩⟩
  · have hch := hl.chain hc hpo (zero_add _) (by omega)
    rwa [Layout.slot, zero_mul, add_zero] at hch
  · refine nodup_append'.mpr ⟨nodup_slots T frame _, h.nodup, fun p hp hli ↦ ?_⟩
    -- what is live is in another frame
    obtain ⟨i, hi, rfl⟩ := mem_map.mp hp
    have hlt : i < T.count := by simpa using mem_range'.mp hi
    have he := slot_add_le frame hlt
    have hst : frame ≤ T.slot frame i := Nat.le_add_right _ _
    obtain ⟨f, hf, hle, he'⟩ := (h.slots _ hli).inside
    have hf' := (h.aligned f hf).2.1
    have hsi := T.size_pos
    exact hfr ((by omega : f = frame) ▸ hf)
  · intro p hp
    obtain hp | hp := mem_append.mp hp
    · exact hs p hp
    · obtain ⟨f, hf, hr⟩ := h.slots p hp
      exact ⟨f, mem_cons_of_mem _ hf, hr⟩

theorem Holds.refill (h : Holds T s free) (hp : Allowed T s (.allocate frame)) (hc : 2 ≤ T.count) :
  ∃ s' p xs, Chained.refill T s frame = some s' ∧ Holds T s' (p :: xs) := by
  obtain ⟨hh, rfl⟩ | ⟨xs, rfl, hh⟩ := h.head_cases
  · have hs : Linked T (s.memory.store (T.prev frame) 8 0) frame 1 :=
      ⟨fun j hj ↦ by omega, fun ho ↦ by omega⟩
    obtain ⟨ho, hm⟩ := count_bounds T
    obtain ⟨m, hlo, hl, -⟩ := linkLoop_spec hs le_rfl ho hm hp.2.2.1
    have hg := h.grow hp hl hc
    obtain ⟨n, hn⟩ : ∃ n, T.count = n + 1 := ⟨T.count - 1, by omega⟩
    rw [hn, range'_succ, map_cons] at hg
    exact ⟨_, _, _, by rw [Chained.refill, if_pos hh, hlo]; rfl, hg⟩
  · exact ⟨s, s.head, xs, by rw [Chained.refill, if_neg hh], h⟩

theorem Holds.step (h : Holds T s free) (hc : 2 ≤ T.count) {op : Op} (ho : Allowed T s op) :
  ∃ t free', Chained.step T s op = some t ∧ Holds T t free' := by
  cases op with
  | allocate frame =>
    obtain ⟨s', p, xs, hr, hs'⟩ := h.refill ho hc
    exact ⟨_, xs, by rw [Chained.step, allocate, hr]; rfl, hs'.pop⟩
  | deallocate ptr => exact ⟨_, _, rfl, h.deallocate ho⟩
  | write a v => exact ⟨_, free, rfl, h.write ho⟩

theorem holds_of_reachable {memory : ByteMemory} (hc : 2 ≤ T.count)
  (h : Reachable (step T) (Allowed T) { memory } s) : ∃ free, Holds T s free := by
  refine h.invariant (I := fun s ↦ ∃ free, Holds T s free) ⟨[], ?_⟩ fun s op t hs hop hst ↦ ?_
  · exact ⟨rfl, nodup_nil, forall_mem_nil _, forall_mem_nil _⟩
  · obtain ⟨free, hs⟩ := hs
    obtain ⟨t', free', hst', ht⟩ := hs.step hc hop
    cases hst.symm.trans hst'
    exact ⟨free', ht⟩

theorem exists_outside (hc : T.count < 2) :
  ∃ memory s, Reachable (step T) (Allowed T) { memory } s ∧ s.frames = [4096] ∧
  s.live = [1, 4096] := by
  have hfi := T.fits
  let memory : ByteMemory := ByteMemory.store (fun _ ↦ 0) (T.next 4096) 8 1
  have hl : (memory.store (T.prev 4096) 8 0).load (T.next 4096) 8 = 1 := by
    rw [load_store_of_disjoint, load_store (by decide)]
    rw [Layout.next, Layout.prev]
    omega
  have hlo : linkLoop T 4096 4096 1 (memory.store (T.prev 4096) 8 0) =
    some (memory.store (T.prev 4096) 8 0) := by
    rw [linkLoop, if_neg fun hs ↦ absurd (succ_mul_size_le_iff.mp hs) (by omega)]
  have hf : step T { memory } (.allocate 4096) = some {
      memory := memory.store (T.prev 4096) 8 0
      head := 1
      frames := [4096]
      live := [4096] } := by
    rw [step, allocate, Chained.refill, if_pos rfl, hlo, Option.map_some, Option.map_some]
    dsimp only
    rw [hl]
  refine ⟨memory, _, .head (.allocate 4096) ?_ hf
    (.head (.allocate 8192) ?_ rfl (.refl _ _ _)), rfl, rfl⟩
  · exact ⟨by decide, by decide, by decide, not_mem_nil⟩
  · exact ⟨by decide, by decide, by decide, (by decide : 8192 ∉ [4096])⟩

theorem safe_iff (T : Layout) : (∀ memory s, Reachable (step T) (Allowed T) { memory } s →
      Safe T s ∧ ∀ op, Allowed T s op → ∃ t, step T s op = some t) ↔ 2 * T.size ≤ 4096 := by
  have hi : 2 * T.size ≤ 4096 ↔ 2 ≤ T.count := succ_mul_size_le_iff (i := 1)
  rw [hi]
  constructor
  · intro hsa
    by_contra hc
    obtain ⟨memory, s, hs, hf, hl⟩ := exists_outside (T := T) (by omega)
    obtain ⟨frame, hfr, hle, -⟩ := (hsa memory s hs).1.inside 1 (hl ▸ mem_cons_self)
    rw [hf, mem_singleton] at hfr
    omega
  · intro hc memory s hs
    obtain ⟨free, hs⟩ := holds_of_reachable hc hs
    refine ⟨hs.safe, fun op hop ↦ ?_⟩
    obtain ⟨t, -, hst, -⟩ := hs.step hc hop
    exact ⟨t, hst⟩

theorem large_fits : 0 + 16 ≤ 3000 := by decide

theorem large_size_le : 3000 ≤ 4096 := by decide

def large : Layout := ⟨3000, 0, large_fits, large_size_le⟩

theorem large_not_safe :
    ∃ memory s, Reachable (step large) (Allowed large) { memory } s ∧ s.frames = [4096] ∧
      s.live = [1, 4096] ∧ ¬ Safe large s := by
  obtain ⟨memory, s, hs, hf, hl⟩ := exists_outside (T := large) (by decide)
  refine ⟨memory, s, hs, hf, hl, fun hsa ↦ ?_⟩
  obtain ⟨frame, h, hle, -⟩ := hsa.inside 1 (hl ▸ mem_cons_self)
  rw [hf, mem_singleton] at h
  omega

end ReaverOS.Kernel.Chained
