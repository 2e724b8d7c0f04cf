import Mathlib.Algebra.Order.BigOperators.Group.List
import Mathlib.Data.List.Pairwise
import Mathlib.Data.List.TakeWhile
import ReaverOS.Kernel.PmmBoot

namespace ReaverOS.Kernel.Pmm

section Sorted

open Function Foundation Arcs Fallible MemoryMapEntry

structure SortedMap (memmap : List MemoryMapEntry) : Prop where
  sane : ∀ e ∈ memmap, e.Sane
  sorted : memmap.Pairwise fun e f ↦ e.physicalStart ≤ f.physicalStart
  disjoint : memmap.Pairwise fun e f ↦ Disjoint e.bytes f.bytes

variable {s t : State} {e : MemoryMapEntry} {memmap rest : List MemoryMapEntry} {lo : ℕ}

theorem SortedMap.sublist {memmap' : List MemoryMapEntry} (h : SortedMap memmap)
  (hs : memmap'.Sublist memmap) : SortedMap memmap' :=
  ⟨fun e he ↦ h.sane e (hs.subset he), h.sorted.sublist hs, h.disjoint.sublist hs⟩

theorem SortedMap.low_add_le (h : SortedMap memmap) (hl : lo ≤ 2 ^ 64)
  (hs : ∀ f ∈ memmap, f.length ≠ 0 → lo ≤ f.physicalStart) : lo + totalLength memmap ≤ 2 ^ 64 := by
  induction memmap generalizing lo with
  | nil => exact hl
  | cons e rest ih =>
    have hr := h.sublist (List.sublist_cons_self e rest)
    rw [totalLength, List.map_cons, List.sum_cons, ← totalLength]
    rcases eq_or_ne e.length 0 with hz | hne
    · rw [hz, zero_add]
      exact ih hr hl fun f hf ↦ hs f (List.mem_cons_of_mem _ hf)
    · have he := (h.sane e (List.mem_cons_self ..)).end_le
      have hle := hs e (List.mem_cons_self ..) hne
      have hn := ih hr he fun f hf hfn ↦ by
        have hd := (List.pairwise_cons.mp h.disjoint).1 f hf
        have hso := (List.pairwise_cons.mp h.sorted).1 f hf
        rw [bytes, bytes, Set.Ico_disjoint_Ico] at hd
        omega
      omega

theorem SortedMap.drop_region (h : SortedMap (e :: rest)) :
  SortedMap (rest.drop (adjacent e rest).length) :=
  h.sublist ((List.drop_sublist (adjacent e rest).length rest).cons e)

theorem SortedMap.region_disjoint (h : SortedMap (e :: rest)) :
  Disjoint (memory (e :: adjacent e rest)) (memory (rest.drop (adjacent e rest).length)) := by
  have hd := h.disjoint
  rw [← cons_adjacent_append_drop] at hd
  exact disjoint_memory (List.pairwise_append.mp hd).2.2

def MemoryMapEntry.pages (e : MemoryMapEntry) : ℕ :=
  if countedAsUsed e.type then e.length / pageSizes 0 else 0

def usedPages (memmap : List MemoryMapEntry) : ℕ := (memmap.map pages).sum

/-- The pages that `initialize` counts: an entry merged with its successor is not one of them. -/
def countedPages : List MemoryMapEntry → ℕ
  | [] => 0
  | [e] => e.pages
  | e :: f :: rest => (if Mergeable e f then 0 else e.pages) + countedPages (f :: rest)

theorem pages_last_le (e : MemoryMapEntry) (xs : List MemoryMapEntry) :
  ((adjacent e xs).getLastD e).pages ≤ usedPages (e :: adjacent e xs) :=
  List.le_sum_of_mem (List.mem_map_of_mem List.getLastD_mem_cons)

theorem pages_mul_le (e : MemoryMapEntry) : pageSizes 0 * e.pages ≤ e.length := by
  rw [pages]
  split
  · exact Nat.mul_div_le ..
  · exact Nat.zero_le _

theorem usedPages_mul_le (memmap : List MemoryMapEntry) :
  pageSizes 0 * usedPages memmap ≤ totalLength memmap := by
  induction memmap with
  | nil => exact le_rfl
  | cons e rest ih =>
    have he := pages_mul_le e
    rw [usedPages, totalLength, List.map_cons, List.map_cons, List.sum_cons, List.sum_cons, mul_add]
    exact Nat.add_le_add he ih

theorem countedPages_le (memmap : List MemoryMapEntry) :
  countedPages memmap ≤ usedPages memmap := by
  induction memmap with
  | nil => exact le_rfl
  | cons e rest ih =>
    cases rest with
    | nil => exact le_rfl
    | cons f rest =>
      rw [countedPages, usedPages, List.map_cons, List.sum_cons, ← usedPages]
      split <;> omega

theorem MemoryMapEntry.Sane.pages_eq_zero_iff (h : e.Sane) :
  e.pages = 0 ↔ (countedAsUsed e.type = true → e.length = 0) := by
  rw [pages]
  split
  next hc =>
    obtain ⟨n, hn⟩ := h.length_dvd
    rw [pageSizes] at *
    constructor
    · intro hz _
      omega
    · intro hz
      have := hz hc
      omega
  next hc => simp [hc]

theorem countedPages_eq_iff (hs : ∀ e ∈ memmap, e.Sane) : countedPages memmap = usedPages memmap ↔
  memmap.IsChain fun e f ↦ Mergeable e f → countedAsUsed e.type = true → e.length = 0 := by
  induction memmap with
  | nil => simp [countedPages, usedPages]
  | cons e rest ih =>
    have hr := ih fun f hf ↦ hs f (List.mem_cons_of_mem _ hf)
    cases rest with
    | nil => simp [countedPages, usedPages]
    | cons f rest =>
      have hle := countedPages_le (f :: rest)
      have hp := (hs e (List.mem_cons_self ..)).pages_eq_zero_iff
      rw [countedPages, usedPages, List.map_cons, List.sum_cons, ← usedPages,
        List.isChain_cons_cons, ← hr, ← hp]
      split
      next hmerge =>
        simp only [hmerge, forall_const]
        omega
      next hmerge =>
        simp only [hmerge, false_imp_iff, true_and]
        omega

theorem countedPages_cons (e : MemoryMapEntry) (xs : List MemoryMapEntry) :
  countedPages (e :: xs) = ((adjacent e xs).getLastD e).pages +
  countedPages (xs.drop (adjacent e xs).length) := by
  induction xs generalizing e with
  | nil => rfl
  | cons f xs ih =>
    rw [countedPages, adjacent]
    split
    next =>
      rw [zero_add, ih f, List.length_cons, List.drop_succ_cons, List.getLastD_cons]
    next => rfl

theorem SortedMap.region_le (h : SortedMap (e :: rest)) :
  e.physicalStart + totalLength (e :: adjacent e rest) ≤ 2 ^ 64 := by
  have hs : (e :: adjacent e rest).Sublist (e :: rest) := by
    refine .cons_cons e ?_
    conv_rhs => rw [← adjacent_append_drop e rest]
    exact List.sublist_append_left ..
  refine (h.sublist hs).low_add_le (h.sane e (List.mem_cons_self ..)).start_lt.le fun f hf _ ↦ ?_
  rcases List.mem_cons.mp hf with rfl | hf
  · exact le_rfl
  · exact (List.pairwise_cons.mp h.sorted).1 f (adjacent_subset e rest hf)

theorem freeMemory_region (he : e.Sane) (hs : ∀ f ∈ rest, f.Sane) :
  freeMemory (e :: adjacent e rest) = if ((adjacent e rest).getLastD e).type = .free then
  arc (2 ^ 64) e.physicalStart (totalLength (e :: adjacent e rest)) else ∅ := by
  have ht : ∀ f ∈ e :: adjacent e rest, f.type = e.type :=
    List.forall_mem_cons.mpr ⟨rfl, type_of_mem_adjacent e rest⟩
  rw [ht _ List.getLastD_mem_cons, arc_region he hs]
  split
  next hfr => exact freeMemory_eq fun f hf ↦ (ht f hf).trans hfr
  next hfr =>
    refine Set.eq_empty_of_forall_notMem ?_
    rintro x ⟨f, hf, hff, -⟩
    exact hfr ((ht f hf).symm.trans hff)

/-- `t` is `s` after the entries of `rest`, none of which had a share in the low memory. -/
structure Extends (s : State) (rest : List MemoryMapEntry) (t : State) : Prop where
  settled : Settled t
  free : freeBytes t = freeBytes s ∪ freeMemory rest
  reserved : Set.Ico t.sub1MBottom t.sub1MTop = Set.Ico s.sub1MBottom s.sub1MTop
  used : t.usedFrames 0 = s.usedFrames 0 + countedPages rest

def Plain (s : State) (rest : List MemoryMapEntry) : Prop :=
  s.sub1MTop ≠ 0 ∨ ∀ f ∈ rest, f.length ≠ 0 → 1024 * 1024 ≤ f.physicalStart

theorem Plain.totalLength_eq_zero (h : Plain s (e :: rest)) (hm : SortedMap (e :: rest))
  (hl : e.physicalStart < 1024 * 1024) (ht : s.sub1MTop = 0) :
  totalLength (e :: adjacent e rest) = 0 := by
  by_contra hne
  have he := hm.sane e (List.mem_cons_self ..)
  have hr : ∀ f ∈ rest, f.Sane := fun f hf ↦ hm.sane f (List.mem_cons_of_mem _ hf)
  have hme : e.physicalStart ∈ memory (e :: adjacent e rest) := by
    rw [← arc_region he hr]
    exact ⟨0, pos_of_ne_zero hne, (Nat.mod_eq_of_lt he.start_lt).symm⟩
  obtain ⟨f, hf, hle, hlt⟩ := hme
  have hh := h.resolve_left (not_not_intro ht) f
    (List.cons_subset_cons e (adjacent_subset e rest) hf) (by omega)
  omega

theorem pages_le_totalLength {group : List MemoryMapEntry} (he : e ∈ group) :
  e.pages ≤ totalLength group := by
  have hle : e.length ≤ totalLength group := List.le_sum_of_mem (List.mem_map_of_mem he)
  have hm := pages_mul_le e
  rw [pageSizes] at hm
  omega

theorem reserveLow_plain (h : Plain s (e :: rest)) (hs : Settled s) (hm : SortedMap (e :: rest))
  (hlt : totalLength (e :: adjacent e rest) < 2 ^ 64)
  (hfr : Disjoint (freeBytes s) (memory (e :: adjacent e rest)))
  (hu : s.usedFrames 0 + ((adjacent e rest).getLastD e).pages < 2 ^ 64) :
  ∃ t, reserveLow s e.physicalStart (totalLength (e :: adjacent e rest))
  ((adjacent e rest).getLastD e) = .ok t ∧ Settled t ∧
  freeBytes t = freeBytes s ∪ freeMemory (e :: adjacent e rest) ∧
  Set.Ico t.sub1MBottom t.sub1MTop = Set.Ico s.sub1MBottom s.sub1MTop ∧ t.sub1MTop = s.sub1MTop ∧
  t.usedFrames 0 = s.usedFrames 0 + ((adjacent e rest).getLastD e).pages := by
  have he := hm.sane e (List.mem_cons_self ..)
  have hr : ∀ f ∈ rest, f.Sane := fun f hf ↦ hm.sane f (List.mem_cons_of_mem _ hf)
  have hl := pages_le_totalLength (List.getLastD_mem_cons (l := adjacent e rest) (a := e))
  rw [reserveLow, freeMemory_region he hr]
  split
  next hlo =>
    have hz := h.totalLength_eq_zero hm hlo.1 hlo.2
    rw [hz, if_pos (Nat.zero_le _)]
    refine ⟨_, rfl, hs.of_eq rfl rfl rfl, ?_, ?_, hlo.2.symm, ?_⟩
    · rw [arc_zero, ite_self, Set.union_empty]
      rfl
    · rw [hlo.2]
      simp
    · change s.usedFrames 0 = _
      omega
  next =>
    have hd : pageSizes 0 ∣ totalLength (e :: adjacent e rest) :=
      pageSizes_dvd_totalLength fun f hf ↦
        hm.sane f (List.cons_subset_cons e (adjacent_subset e rest) hf)
    obtain ⟨t, ht, hse, hby, hc, hb, hto⟩ := addRegion_spec e.physicalStart
      (totalLength (e :: adjacent e rest)) ((adjacent e rest).getLastD e) hs he.start_lt
      he.start_dvd hlt hd (by rwa [arc_region he hr])
    refine ⟨t, ht, hse, hby, by rw [hb, hto], hto, ?_⟩
    rw [hc, pages]
    rw [pages] at hu
    split
    next hcounted =>
      rw [if_pos hcounted] at hu
      exact Nat.mod_eq_of_lt hu
    next => rfl

theorem totalLength_append (g rest : List MemoryMapEntry) :
  totalLength (g ++ rest) = totalLength g + totalLength rest := by
  rw [totalLength, List.map_append, List.sum_append, ← totalLength, ← totalLength]

theorem usedPages_append (g rest : List MemoryMapEntry) :
  usedPages (g ++ rest) = usedPages g + usedPages rest := by
  rw [usedPages, List.map_append, List.sum_append, ← usedPages, ← usedPages]

theorem freeMemory_cons_drop (e : MemoryMapEntry) (xs : List MemoryMapEntry) :
  freeMemory (e :: xs) = freeMemory (e :: adjacent e xs) ∪
  freeMemory (xs.drop (adjacent e xs).length) := by
  rw [← freeMemory_append, cons_adjacent_append_drop]

theorem initializeFrom_plain (n : ℕ) (h : Plain s rest) (hs : Settled s) (hma : SortedMap rest)
  (hfu : rest.length ≤ n) (hto : totalLength rest < 2 ^ 64)
  (hfr : Disjoint (freeBytes s) (memory rest)) (hus : s.usedFrames 0 + usedPages rest < 2 ^ 64) :
  ∃ t, initializeFrom n rest s = .ok t ∧ Extends s rest t := by
  induction n generalizing rest s with
  | zero =>
    cases List.eq_nil_of_length_eq_zero (Nat.le_zero.mp hfu)
    exact ⟨s, rfl, hs, by simp [freeMemory], rfl, rfl⟩
  | succ n ih =>
    cases rest with
    | nil => exact ⟨s, rfl, hs, by simp [freeMemory], rfl, rfl⟩
    | cons e rest =>
      have he := hma.sane e (List.mem_cons_self ..)
      have hl := pages_last_le e rest
      have hm := hfr
      rw [← cons_adjacent_append_drop, totalLength_append] at hto
      rw [← cons_adjacent_append_drop, usedPages_append] at hus
      rw [← cons_adjacent_append_drop, memory_append, Set.disjoint_union_right] at hm
      obtain ⟨t, ht, hse, hb, hr, htp, hc⟩ := reserveLow_plain h hs hma (by omega) hm.1 (by omega)
      obtain ⟨u, hu, hx⟩ := ih (h.imp (fun hne ↦ by rwa [htp]) fun hh f hf ↦
        hh f (List.mem_cons_of_mem _ (List.mem_of_mem_drop hf))) hse hma.drop_region
        (by rw [List.length_drop, List.length_cons] at *; omega) (by omega) (by
          rw [hb, Set.disjoint_union_left]
          exact ⟨hm.2, hma.region_disjoint.mono_left freeMemory_subset⟩)
        (by omega)
      refine ⟨u, ?_, hx.settled, ?_, hx.reserved.trans hr, ?_⟩
      · rw [initializeFrom, merge_region he rest, Nat.mod_eq_of_lt (by omega)]
        simp only [ht, ok_bind]
        exact hu
      · rw [hx.free, hb, freeMemory_cons_drop e rest, Set.union_assoc]
      · rw [hx.used, hc, countedPages_cons, add_assoc]

end Sorted

section LowPages

open List Foundation Arcs Fallible MemoryMapEntry

variable {s t : State} {e f : MemoryMapEntry} {memmap rest : List MemoryMapEntry}

structure Blank (s : State) : Prop where
  settled : Settled s
  free : freeBytes s = ∅
  top : s.sub1MTop = 0
  used : s.usedFrames 0 = 0

theorem blank_initial : Blank {} :=
  ⟨settled_initial, by simp [freeBytes, blocks, frames, Foundation.Walk.walk], rfl, rfl⟩

theorem Blank.reserveLow_zero (h : Blank s) (he : e.Sane) (hz : e.length = 0) :
  ∃ t, reserveLow s e.physicalStart 0 e = .ok t ∧ Blank t := by
  rw [reserveLow]
  split
  next => exact ⟨_, rfl, h.settled.of_eq rfl rfl rfl, h.free, rfl, h.used⟩
  next =>
    obtain ⟨t, ht, hs, hf, hu, -, hto⟩ := addRegion_spec e.physicalStart 0 e
      h.settled he.start_lt he.start_dvd (by decide) (Nat.dvd_zero _) (by simp [h.free])
    refine ⟨t, ht, hs, ?_, hto.trans h.top, ?_⟩
    · rw [hf, h.free, arc_zero, ite_self, Set.union_empty]
    · rw [hu, h.used, hz]
      simp

theorem Blank.skip (h : Blank s) (he : e.Sane) (hf : f.Sane) (hz : e.length = 0)
  (xs : List MemoryMapEntry) (n : ℕ) :
  ∃ n' t, initializeFrom (n + 1) (e :: f :: xs) s = initializeFrom n' (f :: xs) t ∧
  n ≤ n' ∧ Blank t := by
  have hme := merge_region he (f :: xs)
  rw [adjacent] at hme
  by_cases hm : Mergeable e f
  · have hs : e.physicalStart = f.physicalStart := by
      rw [← hm.2.2, hz, add_zero, Nat.mod_eq_of_lt he.start_lt]
    refine ⟨n + 1, s, ?_, Nat.le_succ _, h⟩
    rw [if_pos hm, getLastD_cons, length_cons, drop_succ_cons] at hme
    rw [initializeFrom, initializeFrom, hme, merge_region hf xs, hs, totalLength,
      map_cons, sum_cons, hz, zero_add, ← totalLength]
  · obtain ⟨t, ht, hb⟩ := h.reserveLow_zero he hz
    refine ⟨n, t, ?_, le_rfl, hb⟩
    rw [if_neg hm] at hme
    have hze : totalLength [e] % 2 ^ 64 = 0 := by simp [totalLength, hz]
    rw [initializeFrom, hme, hze]
    simp only [getLastD_nil, length_nil, drop_zero, ht, ok_bind]

theorem Blank.skipWhile (h : Blank s) (em : List MemoryMapEntry)
  (hs : ∀ f ∈ em ++ e :: rest, f.Sane) (hz : ∀ f ∈ em, f.length = 0) {k : ℕ}
  (hfu : (em ++ e :: rest).length ≤ k) :
  ∃ k' t, initializeFrom k (em ++ e :: rest) s = initializeFrom k' (e :: rest) t ∧
  (e :: rest).length ≤ k' ∧ Blank t := by
  induction em generalizing s k with
  | nil => exact ⟨k, s, rfl, hfu, h⟩
  | cons z em ih =>
    obtain ⟨f, more, hm⟩ : ∃ f more, em ++ e :: rest = f :: more := by
      cases em with
      | nil => exact ⟨e, rest, rfl⟩
      | cons f em => exact ⟨f, _, rfl⟩
    obtain ⟨k, rfl⟩ : ∃ n, k = n + 1 := ⟨k - 1, by simp at hfu; omega⟩
    have hf : f ∈ em ++ e :: rest := hm ▸ mem_cons_self ..
    obtain ⟨k', t, he, hle, hb⟩ := h.skip (hs z (mem_cons_self ..))
      (hs f (mem_cons_of_mem _ hf)) (hz z (mem_cons_self ..)) more k
    rw [cons_append, hm, he, ← hm]
    rw [cons_append, length_cons] at hfu
    exact ih hb (fun g hg ↦ hs g (mem_cons_of_mem _ hg))
      (fun g hg ↦ hz g (mem_cons_of_mem _ hg)) (by omega)

theorem Blank.reserveLow_low (h : Blank s) {b z : ℕ} (hl : b < 1024 * 1024)
  (hsi : z < 2 ^ 64) (hd : pageSizes 0 ∣ z) (he : e.pages < 2 ^ 64) :
  ∃ t, reserveLow s b z e = .ok t ∧ Settled t ∧
  freeBytes t = (if e.type = .free then Set.Ico (1024 * 1024) z else ∅) ∧
  t.sub1MBottom = b ∧ t.sub1MTop = min z (1024 * 1024) ∧
  t.usedFrames 0 = if 1024 * 1024 < z then e.pages else 0 := by
  rw [reserveLow, if_pos ⟨hl, h.top⟩]
  split
  next hle =>
    refine ⟨_, rfl, h.settled.of_eq rfl rfl rfl, ?_, rfl, (min_eq_left hle).symm, ?_⟩
    · rw [Set.Ico_eq_empty (by omega), ite_self]
      exact h.free
    · rw [if_neg (by omega)]
      exact h.used
  next hgt =>
    have hs : Settled { s with sub1MBottom := b, sub1MTop := 1024 * 1024 } :=
      h.settled.of_eq rfl rfl rfl
    have hem : freeBytes { s with sub1MBottom := b, sub1MTop := 1024 * 1024 } = ∅ := h.free
    obtain ⟨t, ht, hs, hf, hu, hb, hto⟩ := addRegion_spec (1024 * 1024)
      (z - 1024 * 1024) e hs (by decide) (by decide) (by omega)
      (Nat.dvd_sub hd (by decide)) (by simp [hem])
    refine ⟨t, ht, hs, ?_, hb, ?_, ?_⟩
    · rw [hf, hem, Set.empty_union, arc_eq_Ico (by omega), Nat.add_sub_cancel' (by omega)]
    · rw [hto, min_eq_right (by omega)]
    · rw [hu, if_pos (Nat.lt_of_not_le hgt), pages]
      rw [pages] at he
      split
      next hcounted =>
        rw [if_pos hcounted] at he
        simp only [h.used, zero_add]
        exact Nat.mod_eq_of_lt he
      next => exact h.used

structure LowCut (e : MemoryMapEntry) (rest : List MemoryMapEntry) (size : ℕ) (s : State) :
  Prop where
  settled : Settled s
  free : freeBytes s = (if e.type = .free then Set.Ico (1024 * 1024) size else ∅) ∪
    freeMemory (rest.drop (adjacent e rest).length)
  reserved : Set.Ico s.sub1MBottom s.sub1MTop =
    Set.Ico e.physicalStart (min size (1024 * 1024))
  used : s.usedFrames 0 =
    (if 1024 * 1024 < size then ((adjacent e rest).getLastD e).pages else 0) +
      countedPages (rest.drop (adjacent e rest).length)

theorem type_getLastD_adjacent (e : MemoryMapEntry) (xs : List MemoryMapEntry) :
  ((adjacent e xs).getLastD e).type = e.type := by
  rcases mem_cons.mp (getLastD_mem_cons (l := adjacent e xs) (a := e)) with heq | hm
  · rw [heq]
  · exact type_of_mem_adjacent e xs _ hm

theorem Blank.initializeFrom_low (h : Blank s) (hm : SortedMap (e :: rest)) (hne : e.length ≠ 0)
  (hlo : e.physicalStart < 1024 * 1024) {k : ℕ} (hfu : (e :: rest).length ≤ k) :
  ∃ t, initializeFrom k (e :: rest) s = .ok t ∧
  LowCut e rest (totalLength (e :: adjacent e rest) % 2 ^ 64) t := by
  obtain ⟨k, rfl⟩ : ∃ n, k = n + 1 := ⟨k - 1, by simp at hfu; omega⟩
  have he := hm.sane e (List.mem_cons_self ..)
  have htt := hm.low_add_le (Nat.zero_le _) fun f _ _ ↦ Nat.zero_le _
  have hus := usedPages_mul_le (e :: rest)
  rw [pageSizes] at hus
  have hla := pages_last_le e rest
  have hpo : e.length ≤ totalLength (e :: adjacent e rest) :=
    List.le_sum_of_mem (List.mem_map_of_mem (List.mem_cons_self ..))
  rw [← cons_adjacent_append_drop, totalLength_append] at htt
  rw [← cons_adjacent_append_drop, totalLength_append, usedPages_append] at hus
  have hd : pageSizes 0 ∣ totalLength (e :: adjacent e rest) := pageSizes_dvd_totalLength fun f hf ↦
    hm.sane f (List.cons_subset_cons e (adjacent_subset e rest) hf)
  have hsi : totalLength (e :: adjacent e rest) % 2 ^ 64 < 2 ^ 64 := Nat.mod_lt _ (by decide)
  obtain ⟨t, ht, hs, hfr, hb, hto, hc⟩ :=
    h.reserveLow_low (e := (adjacent e rest).getLastD e) hlo hsi
      ((Nat.dvd_mod_iff (by decide)).mpr hd) (by omega)
  rw [type_getLastD_adjacent] at hfr
  -- A region of 2 ^ 64 bytes counts as empty, but then there is nothing after it.
  have hp : Plain t (rest.drop (adjacent e rest).length) := by
    rw [Plain, hto]
    rcases eq_or_ne (totalLength (e :: adjacent e rest) % 2 ^ 64) 0 with hz | hz
    · refine .inr fun f hf hl ↦ absurd ?_ hl
      have hle : f.length ≤ totalLength (rest.drop (adjacent e rest).length) :=
        List.le_sum_of_mem (List.mem_map_of_mem hf)
      omega
    · exact .inl (by omega)
  have hr : freeBytes t ⊆ memory (e :: adjacent e rest) := by
    rw [hfr, ← arc_region he fun f hf ↦ hm.sane f (List.mem_cons_of_mem _ hf)]
    split
    · exact (Ico_subset_arc hlo.le le_rfl hsi).trans (arc_mono (Nat.mod_le ..))
    · exact Set.empty_subset _
  obtain ⟨u, hu, hex⟩ := initializeFrom_plain k hp hs hm.drop_region
    (by rw [List.length_drop, List.length_cons] at *; omega) (by omega)
    (hm.region_disjoint.mono_left hr) (by rw [hc]; split <;> omega)
  refine ⟨u, ?_, hex.settled, by rw [hex.free, hfr], by rw [hex.reserved, hb, hto],
    by rw [hex.used, hc]⟩
  rw [initializeFrom, merge_region he rest]
  simp only [ht, ok_bind]
  exact hu

end LowPages

open Foundation Arcs List Fallible Block MemoryMapEntry

structure Complete (memmap : List MemoryMapEntry) (s : State) : Prop where
  reserved : Set.Ico s.sub1MBottom s.sub1MTop = ∅ ∨ ∃ e ∈ memmap, e.type = .free ∧
    e.physicalStart < 1024 * 1024 ∧ Set.Ico s.sub1MBottom s.sub1MTop ⊆ e.bytes
  covered : ∀ e ∈ memmap, e.type = .free → ∀ page, pageSizes 0 ∣ page →
    Set.Ico page (page + pageSizes 0) ⊆ e.bytes →
    (∃ b ∈ blocks s, Set.Ico page (page + pageSizes 0) ⊆ b.bytes) ∨
      Set.Ico page (page + pageSizes 0) ⊆ Set.Ico s.sub1MBottom s.sub1MTop
  used : s.usedFrames 0 = usedPages memmap

def Reservable (e : MemoryMapEntry) (rest : List MemoryMapEntry) : Prop :=
  countedAsUsed e.type = false ∧
  (e.type = .free → e.physicalStart = 0 ∧ totalLength (e :: adjacent e rest) < 2 ^ 64 ∧
    (1024 * 1024 ≤ e.length ∨ totalLength (e :: adjacent e rest) = e.length)) ∧
  (e.type ≠ .free → totalLength (e :: adjacent e rest) ≤ e.physicalStart ∨
    totalLength (e :: adjacent e rest) = 2 ^ 64)

def Lossless (memmap : List MemoryMapEntry) : Prop :=
  (∀ e rest, memmap.dropWhile (fun f ↦ f.length == 0) = e :: rest →
    e.physicalStart < 1024 * 1024 → Reservable e rest) ∧
  memmap.IsChain fun e f ↦ Mergeable e f → countedAsUsed e.type = true → e.length = 0

variable {s t : State} {e f : MemoryMapEntry} {memmap rest : List MemoryMapEntry}

theorem Ico_subset_of_dvd {u lo high p : ℕ} (hh : u ∣ high) (hp : u ∣ p)
  (hm : p ∈ Set.Ico lo high) : Set.Ico p (p + u) ⊆ Set.Ico lo high := by
  obtain ⟨k, rfl⟩ := hp
  obtain ⟨n, rfl⟩ := hh
  have hlt : k < n := Nat.lt_of_mul_lt_mul_left hm.2
  have hle : u * k + u ≤ u * n := by
    rw [← Nat.mul_succ]
    exact Nat.mul_le_mul_left u hlt
  exact Set.Ico_subset_Ico hm.1 hle

theorem covered_iff (hsa : ∀ e ∈ memmap, e.Sane) (hs : Settled s) {lo high : ℕ}
  (hr : Set.Ico s.sub1MBottom s.sub1MTop = Set.Ico lo high) (hh : pageSizes 0 ∣ high) :
  (∀ e ∈ memmap, e.type = .free → ∀ p, pageSizes 0 ∣ p → Set.Ico p (p + pageSizes 0) ⊆ e.bytes →
  (∃ b ∈ blocks s, Set.Ico p (p + pageSizes 0) ⊆ b.bytes) ∨
  Set.Ico p (p + pageSizes 0) ⊆ Set.Ico s.sub1MBottom s.sub1MTop) ↔
  freeMemory memmap ⊆ freeBytes s ∪ Set.Ico lo high := by
  have hpo : 0 < pageSizes 0 := by decide
  rw [hr]
  constructor
  · rintro h x ⟨e, he, hf, hx⟩
    have hp : x / pageSizes 0 * pageSizes 0 ∈ e.bytes := by
      obtain ⟨k, hk⟩ := (hsa e he).start_dvd
      refine ⟨?_, (Nat.div_mul_le_self ..).trans_lt hx.2⟩
      rw [hk, mul_comm]
      refine Nat.mul_le_mul_right _ ((Nat.le_div_iff_mul_le hpo).mpr ?_)
      rw [mul_comm, ← hk]
      exact hx.1
    have hm : x ∈ Set.Ico (x / pageSizes 0 * pageSizes 0)
      (x / pageSizes 0 * pageSizes 0 + pageSizes 0) :=
      ⟨Nat.div_mul_le_self .., Nat.lt_div_mul_add hpo⟩
    rcases h e he hf _ (dvd_mul_left ..) (Ico_subset_of_dvd
      (dvd_add (hsa e he).start_dvd (hsa e he).length_dvd) (dvd_mul_left ..) hp)
      with ⟨b, hb, hsu⟩ | hsu
    · exact .inl ⟨b, hb, hsu hm⟩
    · exact .inr (hsu hm)
  · intro h e he hf p hd hsu
    rcases h ⟨e, he, hf, hsu ⟨le_rfl, Nat.lt_add_of_pos_right hpo⟩⟩ with ⟨b, hb, hm⟩ | hm
    · have hv := hs.wellFormed.valid b (mem_append_left _ hb)
      have ha := (pageSizes_zero_dvd hv.1).trans hv.2.1
      exact .inl ⟨b, hb, Ico_subset_of_dvd (dvd_add ha (pageSizes_zero_dvd hv.1)) hd hm⟩
    · exact .inr (Ico_subset_of_dvd hh hd hm)

theorem eq_of_mem_bytes (hm : SortedMap memmap) (he : e ∈ memmap) (hf : f ∈ memmap) {x : ℕ}
  (hxe : x ∈ e.bytes) (hx : x ∈ f.bytes) : e = f := by
  by_contra hne
  have hs : Std.Symm fun e f : MemoryMapEntry ↦ Disjoint e.bytes f.bytes := ⟨fun _ _ h ↦ h.symm⟩
  exact Set.disjoint_left.mp (hm.disjoint.forall he hf hne) hxe hx

theorem reserved_iff (h : SortedMap memmap) (he : e ∈ memmap) (hne : e.length ≠ 0)
  (hlo : e.physicalStart < 1024 * 1024) (high : ℕ) :
  (Set.Ico e.physicalStart high = ∅ ∨ ∃ f ∈ memmap, f.type = .free ∧
  f.physicalStart < 1024 * 1024 ∧ Set.Ico e.physicalStart high ⊆ f.bytes) ↔
  high ≤ e.physicalStart ∨ e.type = .free ∧ high ≤ e.physicalStart + e.length := by
  have hs : e.physicalStart ∈ e.bytes := ⟨le_rfl, by omega⟩
  rcases lt_or_ge e.physicalStart high with hlt | hge
  · have hm : e.physicalStart ∈ Set.Ico e.physicalStart high := ⟨le_rfl, hlt⟩
    constructor
    · rintro (hem | ⟨f, hf, hfr, -, hsu⟩)
      · exact absurd hm (hem ▸ Set.notMem_empty _)
      · cases eq_of_mem_bytes h he hf hs (hsu hm)
        have hl := hsu (show high - 1 ∈ _ from ⟨by omega, by omega⟩)
        exact .inr ⟨hfr, by have := hl.2; omega⟩
    · rintro (hle | ⟨hfr, hle⟩)
      · omega
      · exact .inr ⟨e, he, hfr, hlo, Set.Ico_subset_Ico le_rfl hle⟩
  · simp only [Set.Ico_eq_empty (not_lt.mpr hge), true_or, hge]

theorem pages_of_length_eq_zero (h : e.length = 0) : e.pages = 0 := by
  rw [pages, h, Nat.zero_div, ite_self]

theorem countedPages_append_of_length_eq_zero (em : List MemoryMapEntry)
  (h : ∀ f ∈ em, f.length = 0) (rest : List MemoryMapEntry) :
  countedPages (em ++ rest) = countedPages rest := by
  induction em with
  | nil => rfl
  | cons z em ih =>
    have hz := pages_of_length_eq_zero (h z (mem_cons_self ..))
    rw [← ih fun f hf ↦ h f (mem_cons_of_mem _ hf), cons_append]
    cases em ++ rest with
    | nil => exact hz
    | cons f m => rw [countedPages, hz, ite_self, zero_add]

theorem freeMemory_append_of_length_eq_zero (em : List MemoryMapEntry)
  (h : ∀ f ∈ em, f.length = 0) (rest : List MemoryMapEntry) :
  freeMemory (em ++ rest) = freeMemory rest := by
  rw [freeMemory_append, Set.union_eq_right]
  rintro x ⟨f, hf, -, hx⟩
  have hzero := h f hf
  have hlow := hx.1
  have hh := hx.2
  omega

section Low

variable {em : List MemoryMapEntry} (hmap : SortedMap (em ++ e :: rest))
  (hzero : ∀ f ∈ em, f.length = 0) (hne : e.length ≠ 0) (hlow : e.physicalStart < 1024 * 1024)
  (hcu : LowCut e rest (totalLength (e :: adjacent e rest) % 2 ^ 64) s)

include hmap hzero hne hlow hcu

theorem complete_low_iff : Complete (em ++ e :: rest) s ↔
  (min (totalLength (e :: adjacent e rest) % 2 ^ 64) (1024 * 1024) ≤ e.physicalStart ∨
  e.type = .free ∧ min (totalLength (e :: adjacent e rest) % 2 ^ 64) (1024 * 1024) ≤
  e.physicalStart + e.length) ∧ freeMemory (e :: rest) ⊆ freeBytes s ∪ Set.Ico e.physicalStart
  (min (totalLength (e :: adjacent e rest) % 2 ^ 64) (1024 * 1024)) ∧
  s.usedFrames 0 = usedPages (em ++ e :: rest) := by
  have hd : pageSizes 0 ∣ min (totalLength (e :: adjacent e rest) % 2 ^ 64) (1024 * 1024) := by
    rcases min_choice (totalLength (e :: adjacent e rest) % 2 ^ 64) (1024 * 1024) with hm | hm
    · rw [hm]
      refine (Nat.dvd_mod_iff (by decide)).mpr (pageSizes_dvd_totalLength fun f hf ↦ ?_)
      exact hmap.sane f (mem_append_right _ (cons_subset_cons e (adjacent_subset e rest) hf))
    · rw [hm]
      decide
  have hr := reserved_iff hmap (mem_append_right _ (mem_cons_self ..)) hne hlow
    (min (totalLength (e :: adjacent e rest) % 2 ^ 64) (1024 * 1024))
  have hc := covered_iff hmap.sane hcu.settled hcu.reserved hd
  rw [freeMemory_append_of_length_eq_zero em hzero] at hc
  rw [← hr, ← hc, ← hcu.reserved]
  exact ⟨fun h ↦ ⟨h.reserved, h.covered, h.used⟩, fun h ↦ ⟨h.1, h.2.1, h.2.2⟩⟩

theorem not_complete_low (hc : countedAsUsed e.type = true) : ¬ Complete (em ++ e :: rest) s := by
  rw [complete_low_iff hmap hzero hne hlow hcu]
  rintro ⟨hr, -, hu⟩
  have hn : e.type ≠ .free := fun hf ↦ by simp [hf, countedAsUsed] at hc
  have hle := hr.resolve_right fun h ↦ hn h.1
  -- Nothing may be set aside, so the region is short, and then its pages are not counted.
  rw [hcu.used, if_neg (by omega), zero_add, usedPages_append] at hu
  have hp : e.pages ≠ 0 := by
    have he := hmap.sane e (mem_append_right _ (mem_cons_self ..))
    rw [ne_eq, he.pages_eq_zero_iff]
    exact fun h ↦ hne (h hc)
  have hco := countedPages_le (rest.drop (adjacent e rest).length)
  have hs := usedPages_append (adjacent e rest) (rest.drop (adjacent e rest).length)
  rw [adjacent_append_drop] at hs
  rw [show usedPages (e :: rest) = e.pages + usedPages rest from rfl] at hu
  omega

omit hne hlow in
theorem used_low_iff (hc : countedAsUsed e.type = false) :
  s.usedFrames 0 = usedPages (em ++ e :: rest) ↔ (em ++ e :: rest).IsChain fun e f ↦
  Mergeable e f → countedAsUsed e.type = true → e.length = 0 := by
  have hp : ((adjacent e rest).getLastD e).pages = 0 := by
    rw [pages, type_getLastD_adjacent, hc]
    rfl
  rw [← countedPages_eq_iff hmap.sane, countedPages_append_of_length_eq_zero em hzero,
    countedPages_cons, hcu.used, hp, ite_self]

theorem complete_free_iff (hfr : e.type = .free) : Complete (em ++ e :: rest) s ↔
  (e.physicalStart = 0 ∧ totalLength (e :: adjacent e rest) < 2 ^ 64 ∧
  (1024 * 1024 ≤ e.length ∨ totalLength (e :: adjacent e rest) = e.length)) ∧
  (em ++ e :: rest).IsChain fun e f ↦
  Mergeable e f → countedAsUsed e.type = true → e.length = 0 := by
  have hr : SortedMap (e :: rest) := hmap.sublist (sublist_append_right ..)
  have hs : ∀ f ∈ rest, f.Sane := fun f hf ↦ hr.sane f (mem_cons_of_mem _ hf)
  have hre := hr.region_le
  have hl : e.length ≤ totalLength (e :: adjacent e rest) :=
    le_sum_of_mem (mem_map_of_mem (mem_cons_self ..))
  rw [complete_low_iff hmap hzero hne hlow hcu,
    used_low_iff hmap hzero hcu (by rw [hfr]; rfl), freeMemory_cons_drop, hcu.free,
    if_pos hfr, freeMemory_region (hr.sane e (mem_cons_self ..)) hs,
    type_getLastD_adjacent, if_pos hfr, arc_eq_Ico hre]
  constructor
  · rintro ⟨hrs, hco, hc⟩
    refine ⟨?_, hc⟩
    rw [or_iff_right_of_imp fun h ↦ ⟨hfr, h.trans (Nat.le_add_right ..)⟩] at hrs
    have hle := hrs.2
    -- The last byte of the region is pushed or set aside only if the region starts at 0.
    have he : e.physicalStart + totalLength (e :: adjacent e rest) - 1 <
      totalLength (e :: adjacent e rest) % 2 ^ 64 := by
      have hm : e.physicalStart + totalLength (e :: adjacent e rest) - 1 ∈
        Set.Ico e.physicalStart (e.physicalStart + totalLength (e :: adjacent e rest)) :=
        ⟨by omega, by omega⟩
      rcases hco (.inl hm) with (h | h) | h
      · exact h.2
      · rw [← arc_eq_Ico hre, arc_region (hr.sane e (mem_cons_self ..)) hs] at hm
        exact absurd (freeMemory_subset h) (Set.disjoint_left.mp hr.region_disjoint hm)
      · exact lt_of_lt_of_le h.2 (min_le_left ..)
    omega
  · rintro ⟨⟨hst, hlt, hl⟩, hc⟩
    rw [Nat.mod_eq_of_lt hlt, hst]
    refine ⟨.inr ⟨hfr, by omega⟩, ?_, hc⟩
    rintro x (hx | hx)
    · rcases lt_or_ge x (1024 * 1024) with hlow | hh
      · exact .inr ⟨hx.1, lt_min (by have := hx.2; omega) hlow⟩
      · exact .inl (.inl ⟨hh, by have := hx.2; omega⟩)
    · exact .inl (.inr hx)

theorem complete_other_iff (h : e.type ≠ .free) (hc : countedAsUsed e.type = false) :
  Complete (em ++ e :: rest) s ↔ (totalLength (e :: adjacent e rest) ≤ e.physicalStart ∨
  totalLength (e :: adjacent e rest) = 2 ^ 64) ∧ (em ++ e :: rest).IsChain fun e f ↦
  Mergeable e f → countedAsUsed e.type = true → e.length = 0 := by
  have hr : SortedMap (e :: rest) := hmap.sublist (sublist_append_right ..)
  have hre := hr.region_le
  have hs : ∀ f ∈ rest, f.Sane := fun f hf ↦ hr.sane f (mem_cons_of_mem _ hf)
  have hco : freeMemory (e :: rest) ⊆ freeBytes s ∪ Set.Ico e.physicalStart
    (min (totalLength (e :: adjacent e rest) % 2 ^ 64) (1024 * 1024)) := by
    rw [freeMemory_cons_drop, hcu.free, freeMemory_region (hr.sane e (mem_cons_self ..))
      hs, type_getLastD_adjacent, if_neg h, if_neg h]
    exact Set.subset_union_left
  rw [complete_low_iff hmap hzero hne hlow hcu, used_low_iff hmap hzero hcu hc]
  simp only [h, hco, false_and, or_false, true_and]
  refine and_congr_left fun _ ↦ ?_
  omega

theorem complete_low_iff_reservable : Complete (em ++ e :: rest) s ↔ Reservable e rest ∧
  (em ++ e :: rest).IsChain fun e f ↦
  Mergeable e f → countedAsUsed e.type = true → e.length = 0 := by
  rw [Reservable]
  by_cases hc : countedAsUsed e.type = true
  · have hn := not_complete_low hmap hzero hne hlow hcu hc
    simp [hn, hc]
  · rw [Bool.not_eq_true] at hc
    by_cases hf : e.type = .free
    · rw [complete_free_iff hmap hzero hne hlow hcu hf]
      simp [hf, countedAsUsed]
    · rw [complete_other_iff hmap hzero hne hlow hcu hf hc]
      simp only [hc, hf, true_and, false_imp_iff, ne_eq, not_false_eq_true, true_imp_iff]

end Low

theorem complete_plain_iff (hm : SortedMap memmap) (h : Extends {} memmap s) : Complete memmap s ↔
  memmap.IsChain fun e f ↦ Mergeable e f → countedAsUsed e.type = true → e.length = 0 := by
  have hus : s.usedFrames 0 = countedPages memmap := by
    rw [h.used]
    exact zero_add _
  have hr : Set.Ico s.sub1MBottom s.sub1MTop = Set.Ico 0 0 := h.reserved
  have hco := covered_iff hm.sane h.settled hr (Nat.dvd_zero _)
  rw [← countedPages_eq_iff hm.sane, ← hus]
  refine ⟨fun hc ↦ hc.used, fun hu ↦ ⟨.inl ?_, hco.mpr ?_, hu⟩⟩
  · rw [hr, Set.Ico_self]
  · rw [h.free]
    exact Set.subset_union_right.trans Set.subset_union_left

theorem initializePmm_plain (h : SortedMap memmap)
  (hh : ∀ f ∈ memmap, f.length ≠ 0 → 1024 * 1024 ≤ f.physicalStart) :
  ∃ s, initializePmm memmap = .ok s ∧ Extends {} memmap s := by
  have ht : 1024 * 1024 + totalLength memmap ≤ 2 ^ 64 := h.low_add_le (by decide) hh
  have hu := usedPages_mul_le memmap
  rw [pageSizes] at hu
  refine initializeFrom_plain memmap.length (.inr hh) settled_initial h le_rfl (by omega) ?_ ?_
  · rw [blank_initial.free]
    exact Set.empty_disjoint _
  · rw [blank_initial.used]
    omega

theorem initializePmm_complete_iff (memmap : List MemoryMapEntry) (hmap : SortedMap memmap) :
    ∃ s, initializePmm memmap = .ok s ∧ (Complete memmap s ↔ Lossless memmap) := by
  have hzero : ∀ f ∈ memmap.takeWhile (fun f ↦ f.length == 0), f.length = 0 := by
    intro f hf
    simpa using mem_takeWhile_imp hf
  have hsp : memmap.takeWhile (fun f ↦ f.length == 0) ++
    memmap.dropWhile (fun f ↦ f.length == 0) = memmap := takeWhile_append_dropWhile
  have hh := head?_dropWhile_not (fun f : MemoryMapEntry ↦ f.length == 0) memmap
  rw [Lossless]
  generalize memmap.takeWhile (fun f ↦ f.length == 0) = em at hzero hsp
  generalize memmap.dropWhile (fun f ↦ f.length == 0) = full at hsp hh
  subst hsp
  cases full with
  | nil =>
    rw [append_nil] at hmap ⊢
    obtain ⟨s, hs, he⟩ := initializePmm_plain hmap fun f hf hne ↦ absurd (hzero f hf) hne
    refine ⟨s, hs, (complete_plain_iff hmap he).trans (iff_and_self.mpr fun _ ↦ ?_)⟩
    exact fun e rest h ↦ nomatch h
  | cons e rest =>
    have hne : e.length ≠ 0 := by simpa using hh
    rcases lt_or_ge e.physicalStart (1024 * 1024) with hlow | hhi
    · obtain ⟨n, t, hq, hfu, hb⟩ := blank_initial.skipWhile em hmap.sane hzero le_rfl
      obtain ⟨s, hs, hcu⟩ := hb.initializeFrom_low
        (hmap.sublist (sublist_append_right ..)) hne hlow hfu
      refine ⟨s, hq.trans hs, (complete_low_iff_reservable hmap hzero hne hlow hcu).trans ?_⟩
      refine and_congr_left fun _ ↦ ⟨fun h e' rest' hq _ ↦ ?_, fun h ↦ h e rest rfl hlow⟩
      cases hq
      exact h
    · obtain ⟨s, hs, he⟩ := initializePmm_plain hmap fun f hf hl ↦ by
        rcases mem_append.mp hf with hf | hf
        · exact absurd (hzero f hf) hl
        · rcases mem_cons.mp hf with rfl | hf
          · exact hhi
          · have hso := (pairwise_append.mp hmap.sorted).2.1
            exact hhi.trans ((pairwise_cons.mp hso).1 f hf)
      refine ⟨s, hs, (complete_plain_iff hmap he).trans (iff_and_self.mpr fun _ ↦ ?_)⟩
      intro e' rest' hq hlow
      cases hq
      omega

theorem initializePmm_complete_fromZero :
  ∃ s, initializePmm [⟨0, 0x200000, .free, 0⟩, ⟨0x200000, 0x1000, .kernel, 0⟩] = .ok s ∧
  Complete [⟨0, 0x200000, .free, 0⟩, ⟨0x200000, 0x1000, .kernel, 0⟩] s := by
  have hmap : SortedMap [⟨0, 0x200000, .free, 0⟩, ⟨0x200000, 0x1000, .kernel, 0⟩] := by
    refine ⟨?_, by decide, by simp [MemoryMapEntry.bytes]⟩
    simp only [forall_mem_cons]
    refine ⟨⟨?_, ?_, ?_, ?_, ?_⟩, ⟨?_, ?_, ?_, ?_, ?_⟩, by simp⟩ <;> decide
  obtain ⟨s, hs, hi⟩ := initializePmm_complete_iff _ hmap
  refine ⟨s, hs, hi.mpr ⟨?_, ?_⟩⟩
  · intro e rest he hlow
    cases he
    exact ⟨rfl, fun _ ↦ ⟨rfl, by decide, .inr rfl⟩, fun h ↦ absurd rfl h⟩
  · simp [Mergeable]

theorem initializePmm_loses_page : SortedMap [⟨0x1000, 0x9e000, .free, 0⟩] ∧
      ∃ s, initializePmm [⟨0x1000, 0x9e000, .free, 0⟩] = .ok s ∧
        ¬ Complete [⟨0x1000, 0x9e000, .free, 0⟩] s := by
  refine ⟨⟨?_, by simp, by simp⟩, { sub1MBottom := 0x1000, sub1MTop := 0x9e000 }, rfl, fun h ↦ ?_⟩
  · simp only [forall_mem_cons]
    refine ⟨⟨?_, ?_, ?_, ?_, ?_⟩, by simp⟩ <;> decide
  · have hp : Set.Ico 0x9e000 (0x9e000 + pageSizes 0) ⊆
      MemoryMapEntry.bytes ⟨0x1000, 0x9e000, .free, 0⟩ :=
      Set.Ico_subset_Ico (by decide) (by decide)
    rcases h.covered _ (mem_singleton_self _) rfl 0x9e000 (by decide) hp with ⟨b, hb, -⟩ | hs
    · cases hb
    · have hm := hs ⟨le_rfl, by decide⟩
      exact absurd hm.2 (by decide)

end ReaverOS.Kernel.Pmm
