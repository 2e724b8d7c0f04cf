import ReaverOS.Kernel.SparseVmo

namespace ReaverOS.Kernel.SparseVmo

open List

section

section

open Function Foundation Fallible SearchTree
open AvlLinks (Valid onElements landing landing_mem_after)
open Vas (SparseElement)

def pagesFrom (p : ℕ) : ℕ → List ℕ → List SparseElement
  | _, [] => []
  | k, frame :: frames => ⟨k * p, some frame⟩ :: pagesFrom p (k + 1) frames

theorem pagesFrom_append (p k : ℕ) (fs gs : List ℕ) :
  pagesFrom p k (fs ++ gs) = pagesFrom p k fs ++ pagesFrom p (k + fs.length) gs := by
  induction fs generalizing k with
  | nil => rfl
  | cons f fs ih =>
    rw [cons_append, pagesFrom, pagesFrom, ih, length_cons, cons_append, add_right_comm, add_assoc]

theorem pagesFrom_eq (p k : ℕ) (fs : List ℕ) :
  pagesFrom p k fs = (List.range fs.length).map fun i ↦ ⟨(k + i) * p, fs[i]?⟩ := by
  induction fs generalizing k with
  | nil => rfl
  | cons f fs ih =>
    rw [pagesFrom, ih, length_cons, range_succ_eq_map, map_cons, map_map]
    refine congrArg₂ List.cons rfl (map_congr_left fun i _ ↦ ?_)
    rw [comp_apply, Nat.succ_eq_add_one, getElem?_cons_succ, add_assoc, add_comm 1]

theorem pagesFrom_backingAddress (p k : ℕ) (fs : List ℕ) :
  (pagesFrom p k fs).map SparseElement.backingAddress = fs.map some := by
  induction fs generalizing k with
  | nil => rfl
  | cons f fs ih => rw [pagesFrom, map_cons, map_cons, ih]

theorem offset_lt_of_mem_pagesFrom {p : ℕ} (hp : 0 < p) {k : ℕ} {fs : List ℕ} {e : SparseElement}
  (he : e ∈ pagesFrom p k fs) : e.offset < (k + fs.length) * p := by
  rw [pagesFrom_eq, mem_map] at he
  obtain ⟨i, hi, rfl⟩ := he
  rw [mem_range] at hi
  exact Nat.mul_lt_mul_of_pos_right (by omega) hp

section Fill

variable {v : SparseVmo} {as : List ℕ} {x : ℕ}

variable {fu : ℕ}

theorem fillLoop_done {nx : ℕ} (h : ¬ (v.offset x + v.pageSize) % 2 ^ 64 < nx)
  (gs : List ℕ) : fillLoop nx (fu + 1) v x gs = .ok (v, x, gs) := by
  cases gs with
  | nil => simp only [fillLoop, if_neg h]
  | cons f gs => simp only [fillLoop, if_neg h]

theorem fillLoop_step {nx f it : ℕ} {w : SparseVmo} (h : (v.offset x + v.pageSize) % 2 ^ 64 < nx)
  (hi : (v.back x f).insertElement ((v.offset x + v.pageSize) % 2 ^ 64) = .ok (w, it))
  (frames : List ℕ) : fillLoop nx (fu + 1) v x (f :: frames) = fillLoop nx fu w it frames := by
  simp only [fillLoop, if_pos h, hi, ok_bind]

theorem map_element_back (h : v.Lists (as ++ [x])) (f : ℕ) :
  (as ++ [x]).map (v.back x f).element = as.map v.element ++ [⟨v.offset x, some f⟩] := by
  have hn := h.nodup
  rw [nodup_append_comm, singleton_append, nodup_cons] at hn
  rw [map_append, map_singleton]
  refine congrArg₂ (· ++ ·) (map_congr_left fun a ha ↦ ?_) ?_
  · simp only [element, back, update_of_ne (ne_of_mem_of_not_mem ha hn.1)]
  · simp only [element, back, update_self]

theorem map_element_make {xs : List ℕ} (h : v.Lists xs) (o : ℕ) (es : AvlLinks ℕ) :
  xs.map ((v.makeElement o).setElements es).element = xs.map v.element := by
  refine map_congr_left fun a ha ↦ ?_
  have hc : a ≠ v.created := (h.made a ha).ne
  simp only [element, setElements, makeElement, update_of_ne hc]

theorem fillLoop_spec {p n : ℕ} (hp : 0 < p) (hb : n * p < 2 ^ 64) (fs as : List ℕ) {k : ℕ}
  (hn : k + fs.length + 1 = n) (hf : fs.length < fu) (hpa : v.pageSize = p)
  (h : v.Lists (as ++ [x])) (hs : ∀ a ∈ as, v.offset a < k * p)
  (hx : v.element x = ⟨k * p, none⟩) (l : List ℕ) :
  ∃ w bs y, fillLoop (n * p) fu v x (fs ++ l) = .ok (w, y, l) ∧
  w.Lists (bs ++ [y]) ∧ bs.map w.element = as.map v.element ++ pagesFrom p k fs ∧
  w.element y = ⟨(k + fs.length) * p, none⟩ ∧ w.length = v.length ∧
  w.alignedToPageLevel = v.alignedToPageLevel := by
  have ho : v.offset x = k * p := congrArg SparseElement.offset hx
  induction fs generalizing v as x k fu with
  | nil =>
    obtain ⟨fu, rfl⟩ : ∃ m, fu = m + 1 := ⟨fu - 1, by omega⟩
    rw [length_nil, add_zero] at hn ⊢
    refine ⟨v, as, x, ?_, h, by rw [pagesFrom, append_nil], hx, rfl, rfl⟩
    refine fillLoop_done ?_ l
    rw [ho, hpa, ← Nat.succ_mul, Nat.succ_eq_add_one, hn, Nat.mod_eq_of_lt hb]
    exact lt_irrefl _
  | cons f fs ih =>
    obtain ⟨fu, rfl⟩ : ∃ m, fu = m + 1 := ⟨fu - 1, by omega⟩
    rw [length_cons] at hn hf
    have hne : (k + 1) * p < n * p := Nat.mul_lt_mul_of_pos_right (by omega) hp
    have hl (a : ℕ) (ha : a ∈ as ++ [x]) : (v.back x f).offset a < (k + 1) * p := by
      have hle : k * p < (k + 1) * p := Nat.mul_lt_mul_of_pos_right (Nat.lt_succ_self k) hp
      rcases mem_append.mp ha with ha | ha
      · exact (hs a ha).trans hle
      · rw [mem_singleton.mp ha]
        exact ho.trans_lt hle
    have ho' : (v.offset x + v.pageSize) % 2 ^ 64 = (k + 1) * p := by
      rw [ho, hpa, ← Nat.succ_mul]
      exact Nat.mod_eq_of_lt (hne.trans hb)
    obtain ⟨es, hi, hli⟩ := (h.back x f).insertElement _ hl
    have hk := map_element_make (h.back x f) ((k + 1) * p) es
    have hnw : (((v.back x f).makeElement ((k + 1) * p)).setElements es).element v.created =
      ⟨(k + 1) * p, none⟩ := by
      simp only [element, setElements, makeElement, back, update_self]
    have hbe (a : ℕ) (ha : a ∈ as ++ [x]) :
      (((v.back x f).makeElement ((k + 1) * p)).setElements es).offset a < (k + 1) * p := by
      have hc : a ≠ v.created := (h.made a ha).ne
      simpa only [setElements, makeElement, back, update_of_ne hc] using hl a ha
    obtain ⟨w, bs, y, hca, hw, hbs, hy, hln, hlv⟩ :=
      ih (v := ((v.back x f).makeElement ((k + 1) * p)).setElements es) (as ++ [x]) (by omega)
        (Nat.lt_of_succ_lt_succ hf) hpa hli hbe hnw (congrArg SparseElement.offset hnw)
    refine ⟨w, bs, y, ?_, hw, ?_, ?_, hln, hlv⟩
    · rw [cons_append, fillLoop_step (by rwa [ho']) (by rw [ho']; exact hi), hca]
    · rw [hbs, hk, map_element_back h, ho, append_assoc]
      rfl
    · rw [hy, length_cons, add_assoc, add_comm 1]

end Fill

section Bounds

variable {v : SparseVmo} {xs : List ℕ} {x : ℕ}

def wayTo (v : SparseVmo) (offset : ℕ) : ℕ → Ordering :=
  AvlTree.way (fun y ↦ v.compare (.inl offset) (.inr y)) fun y ↦ v.compare (.inr y) (.inl offset)

variable {offset y : ℕ}

theorem wayTo_eq_eq_iff : v.wayTo offset y = .eq ↔ v.offset y = offset := by
  rw [wayTo, AvlLinks.way_eq_eq_iff]
  simp only [compare_offset, compare_element, decide_eq_false_iff_not]
  omega

theorem wayTo_eq_gt_iff : v.wayTo offset y = .gt ↔ v.offset y < offset := by
  rw [wayTo, AvlLinks.way_eq_gt_iff]
  simp only [compare_offset, compare_element, decide_eq_false_iff_not, decide_eq_true_eq]
  omega

theorem Lists.lowerBound_cases (h : v.Lists xs) (o : ℕ) : (∃ z ∈ xs, v.offset z = o ∧
  v.elements.lowerBound (fun y ↦ v.compare (.inl o) (.inr y))
  (fun y ↦ v.compare (.inr y) (.inl o)) = some (some z)) ∨
  ∃ q, xs = before q ++ after q ∧ (∀ y ∈ before q, v.wayTo o y = .gt) ∧
  (∀ y ∈ after q, v.wayTo o y = .lt) ∧ v.elements.lowerBound (fun y ↦ v.compare (.inl o) (.inr y))
  (fun y ↦ v.compare (.inr y) (.inl o)) = some (landing q) := by
  obtain ⟨t, hv, rfl⟩ := h.tree
  obtain ⟨z, hm, hw, hl⟩ | ⟨q, -, hli, hb, ha, hl⟩ := hv.lowerBound_divides v.strictWeak_compare o
  · exact .inl ⟨z, hm, wayTo_eq_eq_iff.mp hw, hl⟩
  · exact .inr ⟨q, hli, hb, ha, hl⟩

theorem Lists.eq_of_offset (h : v.Lists xs) {z : ℕ} (hy : y ∈ xs) (hz : z ∈ xs)
  (heq : v.offset y = v.offset z) : y = z := by
  obtain ⟨t, hv, rfl⟩ := h.tree
  refine AvlLinks.eq_of_equivalent (AvlLinks.strictWeak_onElements v.strictWeak_compare) hv hy hz
    (x := y) ⟨?_, ?_⟩ ⟨?_, ?_⟩
  all_goals
    rw [Bool.eq_false_iff, Ne, comp_iff]
    omega

theorem Lists.lowerBound_eq (h : v.Lists xs) (hx : x ∈ xs) :
  v.elements.lowerBound (fun y ↦ v.compare (.inl (v.offset x)) (.inr y))
  (fun y ↦ v.compare (.inr y) (.inl (v.offset x))) = some (some x) := by
  obtain ⟨z, hz, he, hl⟩ | ⟨q, hli, hb, ha, -⟩ := h.lowerBound_cases (v.offset x)
  · rwa [h.eq_of_offset hz hx he] at hl
  · have hw : v.wayTo (v.offset x) x = .eq := wayTo_eq_eq_iff.mpr rfl
    rw [hli, mem_append] at hx
    rcases hx with hx | hx
    · cases hw.symm.trans (hb x hx)
    · cases hw.symm.trans (ha x hx)

theorem Lists.lowerBound_beyond (h : v.Lists xs) (hl : ∀ x ∈ xs, v.offset x < offset) :
  v.elements.lowerBound (fun y ↦ v.compare (.inl offset) (.inr y))
  (fun y ↦ v.compare (.inr y) (.inl offset)) = some none := by
  obtain ⟨z, hz, he, -⟩ | ⟨q, hli, -, ha, hlo⟩ := h.lowerBound_cases offset
  · exact absurd he (hl z hz).ne
  · have hn : landing q = none := by
      cases hla : landing q with
      | none => rfl
      | some w =>
        have hw := landing_mem_after hla
        have hgt : v.wayTo offset w = .gt :=
          wayTo_eq_gt_iff.mpr (hl w (by rw [hli]; exact mem_append_right _ hw))
        cases hgt.symm.trans (ha w hw)
    rw [hlo, hn]

theorem Lists.upperBound_eq (h : v.Lists xs) (hl : ∀ x ∈ xs, v.offset x < offset) :
  v.elements.upperBound (fun y ↦ v.compare (.inl offset) (.inr y))
  (fun y ↦ v.compare (.inr y) (.inl offset)) = some none := by
  rw [AvlLinks.upperBound, h.lowerBound_beyond hl]
  rfl

theorem Lists.commit_from_zero (h : v.Lists xs) (hx : x ∈ xs) (hz : v.offset x = 0)
  {e : ℕ} (hla : ∀ y ∈ xs, v.offset y < e) (frames : List ℕ) : v.commitBetweenOffsets 0 e frames =
  commitLoop none (xs.length + 1) v (some x) frames := by
  have hl := h.lowerBound_eq hx
  rw [hz] at hl
  simp only [commitBetweenOffsets, hl, h.upperBound_eq hla, liftElement, ok_bind, hz,
    lt_irrefl, if_false, h.size_eq]

theorem Lists.commitAll_eq (h : v.Lists xs) (hx : x ∈ xs) (hz : v.offset x = 0)
  (hl : ∀ y ∈ xs, v.offset y < v.length) (frames : List ℕ) :
  v.commitAll frames = commitLoop none (xs.length + 1) v (some x) frames :=
  h.commit_from_zero hx hz hl frames

end Bounds

end

section

open Function Foundation.Fallible
open AvlLinks (Valid)
open Vas (SparseElement)

theorem lists_nil (length : ℕ) (level : Fin Pmm.pageSizeCount) :
  Lists { length, alignedToPageLevel := level } [] :=
  ⟨⟨.nil, ⟨⟨rfl, trivial⟩, trivial, .nil, rfl⟩, rfl⟩, fun _ h ↦ absurd h not_mem_nil⟩

theorem createSparseVmo_eq (length : ℕ) (level : Fin Pmm.pageSizeCount) :
  ∃ v, createSparseVmo length level = .ok v ∧ v.Lists [0] ∧ v.element 0 = ⟨0, none⟩ ∧
  v.length = roundedLength length (Pmm.pageSizes level) ∧ v.alignedToPageLevel = level := by
  obtain ⟨elements, hi, hl⟩ := (lists_nil (roundedLength length (Pmm.pageSizes level))
    level).insertElement 0 fun _ h ↦ absurd h not_mem_nil
  refine ⟨_, by rw [createSparseVmo, hi]; rfl, hl, ?_, rfl, rfl⟩
  simp only [element, setElements, makeElement, update_self]

section Commit

variable {v : SparseVmo} {bs : List ℕ} {x p n : ℕ}

theorem commitLoop_end (fu : ℕ) (v : SparseVmo) (gs : List ℕ) :
  commitLoop none (fu + 1) v none gs = .ok (v, gs) := by
  rw [commitLoop, if_pos rfl]

theorem commitLoop_split {fu y f : ℕ} {w : SparseVmo} {nx it : Option ℕ}
  {gs rest : List ℕ} (hb : v.backingAddress x = none)
  (hn : v.elements.next x = some nx) (hf : fillLoop (nx.elim v.length v.offset)
  (nx.elim v.length v.offset / v.pageSize + 1) v x gs = .ok (w, y, f :: rest))
  (h : w.elements.next y = some it) :
  commitLoop none (fu + 1) v (some x) gs = commitLoop none fu (w.back y f) it rest := by
  simp only [commitLoop, reduceCtorEq, if_false, hn, liftElement, ok_bind, hb,
    Option.isSome_none, Bool.false_eq_true, hf, h]

theorem commitAll_first (hp : 0 < p) (hb : n * p < 2 ^ 64) (h : v.Lists [x])
  (hx : v.element x = ⟨0, none⟩) (hl : v.length = n * p) (hpa : v.pageSize = p)
  (fs : List ℕ) (f : ℕ) (hn : fs.length + 1 = n) (l : List ℕ) :
  ∃ w xs, v.commitAll (fs ++ f :: l) = .ok (w, l) ∧ w.Lists xs ∧
  xs.map w.element = pagesFrom p 0 (fs ++ [f]) ∧ w.length = v.length ∧
  w.alignedToPageLevel = v.alignedToPageLevel := by
  have ho : v.offset x = 0 := congrArg SparseElement.offset hx
  have hba : v.backingAddress x = none := congrArg SparseElement.backingAddress hx
  have hpo : 0 < v.length := by
    rw [hl]
    exact mul_pos (by omega) hp
  have hne : v.elements.next x = some none := Lists.next_eq [] h
  have hf : fs.length < n * p / p + 1 := by
    rw [Nat.mul_div_cancel n hp]
    omega
  obtain ⟨w, bs, y, hfi, hw, hs, hy, hl', hle⟩ := fillLoop_spec (k := 0) hp hb
    fs [] (by omega) hf hpa h (fun a ha ↦ absurd ha not_mem_nil) (by rw [hx, zero_mul]) (f :: l)
  rw [zero_add] at hy
  refine ⟨w.back y f, bs ++ [y], ?_, hw.back y f, ?_, hl', hle⟩
  · rw [h.commitAll_eq mem_cons_self ho fun z hz ↦ by
      rw [mem_singleton.mp hz, ho]
      exact hpo]
    rw [commitLoop_split hba hne (by rw [Option.elim, hl, hpa]; exact hfi) (hw.next_eq bs)]
    exact commitLoop_end _ _ l
  · have ho' : w.offset y = fs.length * p := congrArg SparseElement.offset hy
    rw [map_element_back hw, hs, ho', map_nil, nil_append, pagesFrom_append, zero_add]
    rfl

theorem commitLoop_to (e : Option ℕ) (as : List ℕ) (h : v.Lists (as ++ bs))
  (hb : ∀ b ∈ bs, (v.backingAddress b).isSome) {fu : ℕ} (hf : bs.length < fu) (gs : List ℕ) :
  (∀ y, e = some y → y ∈ bs) ∧ commitLoop e fu v bs.head? gs = .ok (v, gs) ∨
  (∃ y, e = some y ∧ y ∉ bs) ∧ commitLoop e fu v bs.head? gs = .error .nullElement := by
  induction bs generalizing as fu with
  | nil =>
    obtain ⟨fu, rfl⟩ : ∃ m, fu = m + 1 := ⟨fu - 1, by omega⟩
    cases e with
    | none => exact .inl ⟨by simp, commitLoop_end fu v gs⟩
    | some y => exact .inr ⟨⟨y, rfl, not_mem_nil⟩, rfl⟩
  | cons b bs ih =>
    obtain ⟨fu, rfl⟩ : ∃ m, fu = m + 1 := ⟨fu - 1, by omega⟩
    rw [forall_mem_cons] at hb
    rw [head?_cons, commitLoop]
    by_cases hs : some b = e
    · rw [if_pos hs]
      refine .inl ⟨fun y hy ↦ ?_, rfl⟩
      cases hs.trans hy
      exact mem_cons_self
    · have hre := ih (as ++ [b]) (by rwa [append_assoc, singleton_append]) hb.2
        (Nat.lt_of_succ_lt_succ hf)
      rw [if_neg hs]
      simp only [h.next_eq as, liftElement, ok_bind, hb.1, if_true]
      refine hre.imp (fun hr ↦ ⟨fun y hy ↦ .tail _ (hr.1 y hy), hr.2⟩) ?_
      rintro ⟨⟨y, rfl, hy⟩, hl⟩
      refine ⟨⟨y, rfl, ?_⟩, hl⟩
      rintro (_ | ⟨_, hm⟩)
      · exact hs rfl
      · exact hy hm

theorem pushLoop_eq (as : List ℕ) (h : v.Lists (as ++ bs)) {fu : ℕ} (hf : bs.length < fu) :
  v.pushLoop fu bs.head? = .ok (bs.flatMap fun b ↦
  (v.backingAddress b).toList.map (v.alignedToPageLevel, ·)) := by
  induction bs generalizing as fu with
  | nil =>
    obtain ⟨fu, rfl⟩ : ∃ m, fu = m + 1 := ⟨fu - 1, by omega⟩
    rfl
  | cons b bs ih =>
    obtain ⟨fu, rfl⟩ : ∃ m, fu = m + 1 := ⟨fu - 1, by omega⟩
    have hr := ih (as ++ [b]) (by rwa [append_assoc, singleton_append]) (Nat.lt_of_succ_lt_succ hf)
    simp only [head?_cons, pushLoop, h.next_eq as, liftElement, ok_bind, hr, flatMap_cons]

structure Backed (v : SparseVmo) (p : ℕ) (fs : List ℕ) : Prop where
  pages : ∃ xs, v.Lists xs ∧ xs.map v.element = pagesFrom p 0 fs
  length : v.length = fs.length * p

variable {fs : List ℕ}

theorem backing_of_map {xs : List ℕ} (hs : xs.map v.element = pagesFrom p 0 fs) :
  xs.map v.backingAddress = fs.map some := by
  rw [← pagesFrom_backingAddress p 0 fs, ← hs, map_map]
  rfl

theorem Backed.isSome (h : v.Backed p fs) : ∃ xs, v.Lists xs ∧
  xs.map v.element = pagesFrom p 0 fs ∧ ∀ b ∈ xs, (v.backingAddress b).isSome := by
  obtain ⟨xs, hv, hs⟩ := h.pages
  refine ⟨xs, hv, hs, fun b hb ↦ ?_⟩
  have hm := mem_map_of_mem (f := v.backingAddress) hb
  rw [backing_of_map hs, mem_map] at hm
  obtain ⟨f, -, hf⟩ := hm
  rw [← hf]
  rfl

theorem Backed.commitAll_eq (h : v.Backed p fs) (hp : 0 < p) (hn : fs ≠ []) (gs : List ℕ) :
  v.commitAll gs = .ok (v, gs) := by
  obtain ⟨xs, hv, hs, hb⟩ := h.isSome
  have hl (y : ℕ) (hy : y ∈ xs) : v.offset y < v.length := by
    have hm := mem_map_of_mem (f := v.element) hy
    rw [hs] at hm
    have hlt := offset_lt_of_mem_pagesFrom hp hm
    rwa [zero_add, ← h.length] at hlt
  cases fs with
  | nil => exact absurd rfl hn
  | cons f fs =>
    cases xs with
    | nil => cases hs
    | cons x xs =>
      rw [map_cons, pagesFrom, List.cons.injEq] at hs
      have hz : v.offset x = 0 := (congrArg SparseElement.offset hs.1).trans (zero_mul p)
      rw [hv.commitAll_eq mem_cons_self hz hl]
      obtain ⟨-, hlo⟩ | ⟨⟨y, hy, -⟩, -⟩ := commitLoop_to none [] hv hb (Nat.lt_succ_self _) gs
      · exact hlo
      · cases hy

theorem Backed.destroy_eq (h : v.Backed p fs) :
  ∃ es, v.destroy = .ok (es, fs.map (v.alignedToPageLevel, ·)) := by
  obtain ⟨xs, hv, hs⟩ := h.pages
  obtain ⟨t, ht, -⟩ := hv.tree
  obtain ⟨es, hd, -⟩ := AvlLinks.destroy_eq (AvlLinks.strictWeak_onElements v.strictWeak_compare) ht
  have hp : xs.flatMap (fun b ↦ (v.backingAddress b).toList.map (v.alignedToPageLevel, ·)) =
    fs.map (v.alignedToPageLevel, ·) := by
    rw [← flatMap_map (f := v.backingAddress)
      (g := fun o ↦ o.toList.map (v.alignedToPageLevel, ·)), backing_of_map hs, flatMap_map]
    exact map_eq_flatMap.symm
  refine ⟨es, ?_⟩
  have hl := pushLoop_eq [] hv (Nat.lt_succ_of_le hv.size_eq.ge)
  rw [hp] at hl
  simp only [destroy, hv.begin_eq, liftElement, ok_bind, hl, hd]

end Commit

theorem roundedLength_lt (l pa : ℕ) : roundedLength l pa < 2 ^ 64 :=
  Nat.mod_lt _ (by decide)

theorem pageSizes_pos (level : Fin Pmm.pageSizeCount) : 0 < Pmm.pageSizes level := by
  revert level
  decide

theorem exists_popped {n : ℕ} {gs : List ℕ} (hn : 1 ≤ n) (he : n ≤ gs.length) :
  ∃ fs f rest, gs = fs ++ f :: rest ∧ fs.length + 1 = n := by
  have hlt : n - 1 < gs.length := by omega
  refine ⟨gs.take (n - 1), gs[n - 1], gs.drop (n - 1 + 1), ?_, ?_⟩
  · rw [← drop_eq_getElem_cons hlt, take_append_drop]
  · rw [length_take]
    omega

theorem vmo_commit_exact (length n : ℕ) (level : Fin Pmm.pageSizeCount) (frames : List ℕ)
    (hn : 1 ≤ n) (hlength : roundedLength length (Pmm.pageSizes level) = n * Pmm.pageSizes level)
    (henough : n ≤ frames.length) : ∃ v w es elements, createSparseVmo length level = .ok v ∧
      v.length = n * Pmm.pageSizes level ∧ v.commitAll frames = .ok (w, frames.drop n) ∧
      w.sparseElements = some es ∧
      es = (List.range n).map (fun k ↦ ⟨k * Pmm.pageSizes level, frames[k]?⟩) ∧
      (frames.Nodup → (es.map SparseElement.backingAddress).Nodup) ∧
      (∀ more, w.commitAll more = .ok (w, more)) ∧
      w.destroy = .ok (elements, (frames.take n).map (level, ·)) := by
  have hp := pageSizes_pos level
  have hbo := hlength ▸ roundedLength_lt length (Pmm.pageSizes level)
  obtain ⟨v, hcr, hv, hx, h, hvl⟩ := createSparseVmo_eq length level
  rw [hlength] at h
  obtain ⟨fs, f, rest, rfl, hfs⟩ := exists_popped hn henough
  have hc : (fs ++ [f]).length = n := by rw [length_append]; exact hfs
  have hs : fs ++ f :: rest = (fs ++ [f]) ++ rest := by
    rw [append_assoc, singleton_append]
  obtain ⟨w, xs, hco, hw, hxs, hwle, hwl⟩ := commitAll_first hp hbo hv hx h
    (by rw [pageSize, hvl]) fs f hfs rest
  have hb : w.Backed (Pmm.pageSizes level) (fs ++ [f]) := ⟨⟨xs, hw, hxs⟩, by rw [hwle, h, hc]⟩
  obtain ⟨elements, hd⟩ := hb.destroy_eq
  rw [hwl, hvl] at hd
  refine ⟨v, w, _, elements, hcr, h, ?_, hw.sparseElements_eq, ?_, fun hno ↦ ?_,
    hb.commitAll_eq hp (concat_ne_nil f fs), ?_⟩
  · rw [hs, ← hc, drop_left, ← hs]
    exact hco
  · rw [hxs, pagesFrom_eq, hc]
    refine map_congr_left fun k hk ↦ ?_
    have hf : ((fs ++ [f]) ++ rest)[k]? = (fs ++ [f])[k]? :=
      getElem?_append_left (by rwa [hc, ← mem_range])
    rw [hs, hf, zero_add]
  · rw [hxs, pagesFrom_backingAddress]
    rw [hs] at hno
    exact hno.of_append_left.map (Option.some_injective ℕ)
  · rw [hd, hs, ← hc, take_left]

theorem vmo_commit_two_pages : ∃ v w es elements, createSparseVmo 0x1001 defaultLevel = .ok v ∧
  v.length = 2 * Pmm.pageSizes defaultLevel ∧
  v.commitAll [0x7000, 0x9000, 0xa000] = .ok (w, [0x7000, 0x9000, 0xa000].drop 2) ∧
  w.sparseElements = some es ∧ es = (List.range 2).map
  (fun k ↦ ⟨k * Pmm.pageSizes defaultLevel, [0x7000, 0x9000, 0xa000][k]?⟩) ∧
  ([0x7000, 0x9000, 0xa000].Nodup → (es.map SparseElement.backingAddress).Nodup) ∧
  (∀ more, w.commitAll more = .ok (w, more)) ∧
  w.destroy = .ok (elements, ([0x7000, 0x9000, 0xa000].take 2).map (defaultLevel, ·)) :=
  vmo_commit_exact 0x1001 2 defaultLevel [0x7000, 0x9000, 0xa000] (by decide) rfl (by decide)

end

open Function Foundation Fallible SearchTree
open AvlLinks (Valid landing landing_mem_after)
open Vas (SparseElement)

def stepBack (v : SparseVmo) (startOffset x : ℕ) : Except VmoFault (Option ℕ) :=
  if startOffset < v.offset x then liftElement (v.elements.prev x) else .ok (some x)

def bounds (v : SparseVmo) (startOffset endOffset : ℕ) :
  Except VmoFault (Option ℕ × Option ℕ) := do
  let less (key x : ℕ) : Bool := v.compare (.inl key) (.inr x)
  let greater (key x : ℕ) : Bool := v.compare (.inr x) (.inl key)
  let it ← liftElement (v.elements.lowerBound (less startOffset) (greater startOffset))
  let x ← liftElement it
  let it ← v.stepBack startOffset x
  let stop ← liftElement (v.elements.upperBound (less endOffset) (greater endOffset))
  .ok (it, stop)

def Lands (v : SparseVmo) (startOffset endOffset : ℕ) : Prop :=
  ∃ it stop, v.bounds startOffset endOffset = .ok (it, stop) ∧
    ∀ y, stop = some y → ∃ x, it = some x ∧ v.offset x ≤ v.offset y

/-- All pages with a byte of the range are backed, backed pages keep their frame, no frame backs two
pages, and each element is at a page. -/
structure Committed (p length : ℕ) (before after : List SparseElement) (startOffset endOffset : ℕ) :
  Prop where
  backed : ∀ k, startOffset < (k + 1) * p → k * p < endOffset → ∃ f, ⟨k * p, some f⟩ ∈ after
  kept : ∀ e ∈ before, e.backingAddress ≠ none → e ∈ after
  distinct : (after.filterMap SparseElement.backingAddress).Nodup
  offsets : ∀ e ∈ after, p ∣ e.offset ∧ e.offset < length

def Commits : SparseVmo → List (ℕ × ℕ) → List ℕ → Prop
  | _, [], _ => True
  | v, (startOffset, endOffset) :: calls, frames =>
    ∃ w rest before after, v.commitBetweenOffsets startOffset endOffset frames = .ok (w, rest) ∧
      v.sparseElements = some before ∧ w.sparseElements = some after ∧
      Committed v.pageSize v.length before after startOffset endOffset ∧ Commits w calls rest

variable {v w : SparseVmo} {xs bs fs frames rest : List ℕ} {x p startOffset endOffset : ℕ}
  {it stop : Option ℕ}

theorem commitBetweenOffsets_eq (v : SparseVmo) (s e : ℕ) (frames : List ℕ) :
  v.commitBetweenOffsets s e frames = v.bounds s e >>= fun b ↦
  commitLoop b.2 (v.elements.size + 1) v b.1 frames := by
  simp only [commitBetweenOffsets, bounds, bind_assoc, ok_bind]
  refine bind_congr fun it ↦ bind_congr fun x ↦ ?_
  rw [stepBack]
  split <;> simp only [ok_bind]

theorem Lists.prev_mem (h : v.Lists xs) {y : ℕ} (hy : y ∈ xs)
  (hx : v.elements.prev y = some (some x)) : x ∈ xs := by
  obtain ⟨t, hv, rfl⟩ := h.tree
  exact hv.prev_mem (AvlLinks.strictWeak_onElements v.strictWeak_compare) hy hx

theorem lt_of_lists {as : List ℕ} (h : v.Lists (as ++ x :: bs)) :
  (∀ a ∈ as, v.offset a < v.offset x) ∧ ∀ b ∈ bs, v.offset x < v.offset b := by
  obtain ⟨t, hv, hl⟩ := h.tree
  have hs := hv.sorted
  rw [hl, pairwise_append, pairwise_cons] at hs
  simp only [comp_iff] at hs
  exact ⟨fun a ha ↦ hs.2.2 a ha x mem_cons_self, hs.2.1.1⟩

theorem wayTo_eq_lt_iff {o y : ℕ} : v.wayTo o y = .lt ↔ o < v.offset y := by
  rw [wayTo, AvlLinks.way_eq_lt_iff, compare_offset, decide_eq_true_eq]

theorem Lists.upperBound_spec (h : v.Lists xs) (o : ℕ) :
  ∃ stop, v.elements.upperBound (fun y ↦ v.compare (.inl o) (.inr y))
  (fun y ↦ v.compare (.inr y) (.inl o)) = some stop ∧
  ∀ y, stop = some y → y ∈ xs ∧ o < v.offset y := by
  obtain ⟨z, hz, he, hl⟩ | ⟨q, hli, -, ha, hl⟩ := h.lowerBound_cases o
  · obtain ⟨as, bs, rfl⟩ := append_of_mem hz
    refine ⟨bs.head?, ?_, fun y hy ↦ ?_⟩
    · rw [AvlLinks.upperBound, hl, Option.bind_some]
      simp only [compare_offset, compare_element, he, lt_irrefl, decide_false, Bool.not_false,
        Bool.and_self, if_true]
      exact h.next_eq as
    · have hm := mem_of_head? hy
      exact ⟨mem_append_right _ (.tail _ hm), he ▸ (lt_of_lists h).2 y hm⟩
  · refine ⟨landing q, ?_, fun y hy ↦ ?_⟩
    · rw [AvlLinks.upperBound, hl, Option.bind_some]
      cases hla : landing q with
      | none => rfl
      | some y =>
        have hlt := wayTo_eq_lt_iff.mp (ha y (landing_mem_after hla))
        simp only [compare_offset, hlt, decide_true, Bool.not_true, Bool.false_and,
          Bool.false_eq_true, if_false]
    · have hm := landing_mem_after hy
      exact ⟨by rw [hli]; exact mem_append_right _ hm, wayTo_eq_lt_iff.mp (ha y hm)⟩

theorem liftElement_eq_ok {α : Type} {o : Option α} {a : α} (h : liftElement o = .ok a) :
  o = some a := by
  cases o with
  | none => cases h
  | some b => exact congrArg some (Except.ok.inj h)

theorem Lists.mem_bounds (h : v.Lists xs) (hb : v.bounds startOffset endOffset = .ok (it, stop)) :
  (∀ x, it = some x → x ∈ xs) ∧ ∀ y, stop = some y → y ∈ xs := by
  obtain ⟨i, hl, hb⟩ := bind_eq_ok hb
  obtain ⟨x, hx, hb⟩ := bind_eq_ok hb
  obtain ⟨it₁, hba, hb⟩ := bind_eq_ok hb
  obtain ⟨st, hu, hb⟩ := bind_eq_ok hb
  cases hb
  obtain rfl := liftElement_eq_ok hx
  have hm : x ∈ xs := by
    obtain ⟨z, hz, -, hf⟩ | ⟨q, hli, -, -, hf⟩ := h.lowerBound_cases startOffset
    · cases (liftElement_eq_ok hl).symm.trans hf
      exact hz
    · have hla := Option.some.inj ((liftElement_eq_ok hl).symm.trans hf)
      rw [hli]
      exact mem_append_right _ (landing_mem_after hla.symm)
  refine ⟨fun y hy ↦ ?_, fun y hy ↦ ?_⟩
  · rw [stepBack] at hba
    split at hba
    · exact h.prev_mem hm (hy ▸ liftElement_eq_ok hba)
    · cases hba
      cases hy
      exact hm
  · obtain ⟨s, hs, hsp⟩ := h.upperBound_spec endOffset
    cases (liftElement_eq_ok hu).symm.trans hs
    exact (hsp y hy).1

theorem Backed.commitBetweenOffsets_eq (h : v.Backed p fs) (s e : ℕ) (gs : List ℕ) : v.Lands s e ∧
  v.commitBetweenOffsets s e gs = .ok (v, gs) ∨
  ¬ v.Lands s e ∧ ∃ fault, v.commitBetweenOffsets s e gs = .error fault := by
  obtain ⟨xs, hv, -, hba⟩ := h.isSome
  rw [SparseVmo.commitBetweenOffsets_eq]
  cases hbo : v.bounds s e with
  | error fault =>
    refine .inr ⟨?_, fault, rfl⟩
    rintro ⟨it, stop, hok, -⟩
    cases hbo.symm.trans hok
  | ok es =>
    obtain ⟨it, stop⟩ := es
    obtain ⟨hi, hs⟩ := hv.mem_bounds hbo
    rw [ok_bind, hv.size_eq]
    cases it with
    | none =>
      obtain ⟨hal, hl⟩ | ⟨⟨y, rfl, -⟩, hl⟩ :=
        commitLoop_to stop xs (by rwa [append_nil]) (by simp) (Nat.succ_pos xs.length) gs
      · exact .inl ⟨⟨none, stop, hbo, fun y hy ↦ absurd (hal y hy) not_mem_nil⟩, hl⟩
      · refine .inr ⟨?_, _, hl⟩
        rintro ⟨it', stop', hok, hle⟩
        cases hbo.symm.trans hok
        obtain ⟨x, hx, -⟩ := hle y rfl
        cases hx
    | some x =>
      obtain ⟨as, bs, rfl⟩ := append_of_mem (hi x rfl)
      obtain ⟨hbe, ha⟩ := lt_of_lists hv
      obtain ⟨hal, hl⟩ | ⟨⟨y, rfl, hy⟩, hl⟩ :=
        commitLoop_to stop as hv (fun b hb ↦ hba b (mem_append_right _ hb))
          (show (x :: bs).length < (as ++ x :: bs).length + 1 by rw [length_append]; omega) gs
      · refine .inl ⟨⟨some x, stop, hbo, fun y hy ↦ ⟨x, rfl, ?_⟩⟩, hl⟩
        obtain _ | ⟨_, hm⟩ := hal y hy
        · exact le_rfl
        · exact (ha y hm).le
      · refine .inr ⟨?_, _, hl⟩
        rintro ⟨it', stop', hok, hle⟩
        cases hbo.symm.trans hok
        obtain ⟨_, hx, hle⟩ := hle y rfl
        cases hx
        have hm := (mem_append.mp (hs y rfl)).resolve_right hy
        exact absurd (hbe y hm) (not_lt.mpr hle)

theorem mem_pagesFrom_iff {n : ℕ} {e : SparseElement} (hn : fs.length = n) :
  e ∈ pagesFrom p 0 fs ↔ ∃ k < n, e = ⟨k * p, fs[k]?⟩ := by
  simp only [pagesFrom_eq, hn, mem_map, mem_range, zero_add, eq_comm]

theorem committed_pagesFrom {n : ℕ} {b : List SparseElement} (hp : 0 < p) (hn : fs.length = n)
  (hno : fs.Nodup) (hen : endOffset ≤ n * p)
  (h : ∀ e ∈ b, e.backingAddress ≠ none → e ∈ pagesFrom p 0 fs) :
  Committed p (n * p) b (pagesFrom p 0 fs) startOffset endOffset where
  backed k _ hk := by
    have hlt := Nat.lt_of_mul_lt_mul_right (hk.trans_le hen)
    have hg : fs[k]? = some fs[k] := getElem?_eq_getElem (hn ▸ hlt)
    exact ⟨fs[k], (mem_pagesFrom_iff hn).mpr ⟨k, hlt, by rw [hg]⟩⟩
  kept := h
  distinct := by
    have hf : (pagesFrom p 0 fs).filterMap SparseElement.backingAddress = fs := by
      have hm := filterMap_map (f := SparseElement.backingAddress) (g := id)
        (l := pagesFrom p 0 fs)
      rw [Function.id_comp] at hm
      rw [← hm, pagesFrom_backingAddress, filterMap_map]
      exact filterMap_some
    rwa [hf]
  offsets e he := by
    obtain ⟨k, hk, rfl⟩ := (mem_pagesFrom_iff hn).mp he
    exact ⟨dvd_mul_left _ _, Nat.mul_lt_mul_of_pos_right hk hp⟩

theorem Backed.commits_from_iff {n : ℕ} (h : v.Backed p fs) (hpa : v.pageSize = p) (hp : 0 < p)
  (hn : fs.length = n) (hno : fs.Nodup) (cs : List (ℕ × ℕ))
  (hca : ∀ c ∈ cs, c.2 ≤ n * p) (gs : List ℕ) : v.Commits cs gs ↔ ∀ c ∈ cs, v.Lands c.1 c.2 := by
  induction cs with
  | nil => simp [Commits]
  | cons c cs ih =>
    rw [forall_mem_cons] at hca ⊢
    rw [← ih hca.2, Commits]
    obtain ⟨xs, hv, hs⟩ := h.pages
    have hel := hv.sparseElements_eq
    rw [hs] at hel
    obtain ⟨hla, hc⟩ | ⟨hla, f, hc⟩ := h.commitBetweenOffsets_eq c.1 c.2 gs
    · refine ⟨?_, fun ⟨_, hr⟩ ↦ ?_⟩
      · rintro ⟨w, rest, before, after, hok, -, -, -, hr⟩
        cases hc.symm.trans hok
        exact ⟨hla, hr⟩
      · refine ⟨v, gs, _, _, hc, hel, hel, ?_, hr⟩
        rw [hpa, h.length, hn]
        exact committed_pagesFrom hp hn hno hca.1 fun e he _ ↦ he
    · refine iff_of_false ?_ fun ⟨hl, _⟩ ↦ hla hl
      rintro ⟨w, rest, before, after, hok, -⟩
      cases hc.symm.trans hok

theorem commit_beyond (h : v.Lists [x]) (hlt : v.offset x < startOffset) (e : ℕ) (gs : List ℕ) :
  v.commitBetweenOffsets startOffset e gs = .error .nullElement := by
  have hl := h.lowerBound_beyond (show ∀ y ∈ [x], v.offset y < startOffset by simpa using hlt)
  simp only [commitBetweenOffsets, hl, liftElement]
  rfl

theorem Backed.lands_of_dvd {n : ℕ} (h : v.Backed p fs) (hn : fs.length = n)
  (hd : p ∣ startOffset) (hlt : startOffset < endOffset) (hen : endOffset ≤ n * p) :
  v.Lands startOffset endOffset := by
  obtain ⟨k, rfl⟩ := hd
  obtain ⟨xs, hv, hxs⟩ := h.pages
  have hk : k < n := by
    rw [mul_comm] at hlt
    exact Nat.lt_of_mul_lt_mul_right (hlt.trans_le hen)
  have hm : (⟨k * p, fs[k]?⟩ : SparseElement) ∈ xs.map v.element := by
    rw [hxs]
    exact (mem_pagesFrom_iff hn).mpr ⟨k, hk, rfl⟩
  obtain ⟨x, hx, he⟩ := mem_map.mp hm
  have ho : v.offset x = p * k := (congrArg SparseElement.offset he).trans (mul_comm k p)
  have hl := hv.lowerBound_eq hx
  rw [ho] at hl
  obtain ⟨stop, hu, hs⟩ := hv.upperBound_spec endOffset
  refine ⟨some x, stop, ?_, fun y hy ↦ ⟨x, rfl, ?_⟩⟩
  · simp only [bounds, stepBack, hl, hu, liftElement, ok_bind, ho, lt_irrefl, if_false]
  · have := (hs y hy).2
    omega

theorem pageSizes_dvd_roundedLength {l : ℕ} (hw : l < 2 ^ 64) (lv : Fin Pmm.pageSizeCount) :
  Pmm.pageSizes lv ∣ roundedLength l (Pmm.pageSizes lv) := by
  have hl : Pmm.pageSizes lv = 2 ^ 12 ∨ Pmm.pageSizes lv = 2 ^ 21 ∨ Pmm.pageSizes lv = 2 ^ 30 := by
    revert lv
    decide
  rw [roundedLength]
  obtain h | h | h := hl <;> rw [h] <;> omega

theorem commits_iff (length : ℕ) (level : Fin Pmm.pageSizeCount) (frames : List ℕ)
    (calls : List (ℕ × ℕ)) (hword : length < 2 ^ 64)
    (hpos : 0 < roundedLength length (Pmm.pageSizes level))
    (henough : roundedLength length (Pmm.pageSizes level) ≤ frames.length * Pmm.pageSizes level)
    (hnodup : frames.Nodup)
    (hcalls : ∀ c ∈ calls, c.1 < c.2 ∧ c.2 ≤ roundedLength length (Pmm.pageSizes level)) :
    ∃ v w rest, createSparseVmo length level = .ok v ∧ v.commitAll frames = .ok (w, rest) ∧
      (v.Commits calls frames ↔ calls = [] ∨ ∃ endOffset later,
        calls = (0, endOffset) :: later ∧ ∀ c ∈ later, w.Lands c.1 c.2) ∧
      ∀ startOffset endOffset, Pmm.pageSizes level ∣ startOffset → startOffset < endOffset →
        endOffset ≤ roundedLength length (Pmm.pageSizes level) → w.Lands startOffset endOffset := by
  have hp := pageSizes_pos level
  obtain ⟨n, hl⟩ := pageSizes_dvd_roundedLength hword level
  rw [mul_comm] at hl
  have hbo := hl ▸ roundedLength_lt length (Pmm.pageSizes level)
  rw [hl] at hpos henough hcalls
  have hn : 1 ≤ n := Nat.pos_of_mul_pos_right hpos
  obtain ⟨v, hcr, hv, hx, hvle, hvl⟩ := createSparseVmo_eq length level
  rw [hl] at hvle
  obtain ⟨fs, f, rest, rfl, hfs⟩ := exists_popped hn (Nat.le_of_mul_le_mul_right henough hp)
  have hcou : (fs ++ [f]).length = n := by rw [length_append]; exact hfs
  have hpa : v.pageSize = Pmm.pageSizes level := by rw [pageSize, hvl]
  obtain ⟨w, xs, h, hw, hs, hwle, hwl⟩ := commitAll_first hp hbo hv hx hvle hpa fs f hfs rest
  have hb : w.Backed (Pmm.pageSizes level) (fs ++ [f]) := ⟨⟨xs, hw, hs⟩, by rw [hwle, hvle, hcou]⟩
  have hd : (fs ++ [f]).Nodup := by
    rw [append_cons] at hnodup
    exact hnodup.of_append_left
  have ho : v.offset 0 = 0 := congrArg SparseElement.offset hx
  refine ⟨v, w, rest, hcr, h, ?_, ?_⟩
  · cases calls with
    | nil => simp [Commits]
    | cons c calls =>
      obtain ⟨startOffset, endOffset⟩ := c
      rw [forall_mem_cons] at hcalls
      obtain ⟨⟨hlt, he⟩, hla⟩ := hcalls
      have hr := hb.commits_from_iff (by rw [pageSize, hwl, hvl]) hp hcou hd
        calls (fun c hc ↦ (hla c hc).2) rest
      obtain rfl | hne := eq_zero_or_pos startOffset
      · have hf : v.commitBetweenOffsets 0 endOffset (fs ++ f :: rest) = .ok (w, rest) := by
          rw [← h, commitAll, hv.commit_from_zero mem_cons_self ho (by simpa [ho]),
            hv.commit_from_zero mem_cons_self ho (by
              rwa [forall_mem_singleton, ho, hvle])]
        have hbe := hv.sparseElements_eq
        have ha := hw.sparseElements_eq
        rw [hs] at ha
        rw [map_singleton, hx] at hbe
        have hco : Committed v.pageSize v.length [⟨0, none⟩]
          (pagesFrom (Pmm.pageSizes level) 0 (fs ++ [f])) 0 endOffset := by
          rw [hpa, hvle]
          exact committed_pagesFrom hp hcou hd he (by simp)
        rw [Commits]
        constructor
        · rintro ⟨w', rest', before, after, hok, -, -, -, hcm⟩
          cases hf.symm.trans hok
          exact .inr ⟨endOffset, calls, rfl, hr.mp hcm⟩
        · rintro (hni | ⟨_, _, heq, hln⟩)
          · cases hni
          · cases heq
            exact ⟨w, rest, _, _, hf, hbe, ha, hco, hr.mpr hln⟩
      · rw [Commits]
        refine iff_of_false ?_ ?_
        · rintro ⟨w', rest', before, after, hok, -⟩
          cases (commit_beyond hv (ho.trans_lt hne) _ _).symm.trans hok
        · rintro (hni | ⟨_, _, heq, -⟩)
          · cases hni
          · cases heq
            exact hne.false
  · intro startOffset endOffset hdv hlt he
    exact hb.lands_of_dvd hcou hdv hlt (by rwa [hl] at he)

theorem commits_two_pages : ∃ v, createSparseVmo 0x2000 defaultLevel = .ok v ∧
  v.Commits [(0, 0x1000), (0x1000, 0x2000)] [0x7000, 0x9000] := by
  obtain ⟨v, w, rest, hcr, hco, h, hl⟩ := commits_iff 0x2000 defaultLevel
    [0x7000, 0x9000] [(0, 0x1000), (0x1000, 0x2000)] (by decide) (by decide) (by decide)
    (by decide) (by decide)
  refine ⟨v, hcr, h.mpr (.inr ⟨_, _, rfl, fun c hc ↦ ?_⟩)⟩
  obtain rfl := mem_singleton.mp hc
  exact hl 0x1000 0x2000 (by decide) (by decide) (by decide)

theorem commits_null_iterator : (∃ v, createSparseVmo 0x2000 defaultLevel = .ok v ∧
      v.commitBetweenOffsets 0x1000 0x2000 [0x7000] = .error .nullElement) ∧
    (∃ v w, createSparseVmo 0x1000 defaultLevel = .ok v ∧
      v.commitBetweenOffsets 0 0x1000 [0x7000] = .ok (w, []) ∧
      w.commitBetweenOffsets 0x800 0x1000 [] = .error .nullElement) ∧
    ∃ v w, createSparseVmo 0x5000 defaultLevel = .ok v ∧
      v.commitBetweenOffsets 0 0x5000 [0x7000, 0x8000, 0x9000, 0xa000, 0xb000] = .ok (w, []) ∧
      w.commitBetweenOffsets 0x1800 0x1900 [] = .error .nullElement := by
  exact ⟨⟨_, rfl, rfl⟩, ⟨_, _, rfl, rfl, rfl⟩, _, _, rfl, rfl, rfl⟩

end

open Foundation.Fallible
open Vas (SparseElement Vmo fillElement commitElements nextOffset)

inductive VmoCreatePanic
  | nonZeroFlags
  | element (fault : VmoFault)

def roseVmoCreateHandler (size flags : ℕ) : Except VmoCreatePanic SparseVmo :=
  if flags ≠ 0 then .error .nonZeroFlags
  else
    match createSparseVmo size defaultLevel with
    | .ok v => .ok v
    | .error fault => .error (.element fault)

def toVmo (v : SparseVmo) : Option Vmo :=
  v.sparseElements.map fun elements ↦
    { state := .sparse elements, length := v.length, alignedToPageLevel := v.alignedToPageLevel }

theorem Lists.toVmo_eq {v : SparseVmo} {xs : List ℕ} (h : v.Lists xs) :
  v.toVmo = some { state := .sparse (xs.map v.element), length := v.length
                   alignedToPageLevel := v.alignedToPageLevel } := by
  rw [toVmo, h.sparseElements_eq]
  rfl

theorem roseVmoCreateHandler_eq (z : ℕ) :
  ∃ v, roseVmoCreateHandler z 0 = .ok v ∧ createSparseVmo z defaultLevel = .ok v ∧
    v.length = roundedLength z (Pmm.pageSizes defaultLevel) ∧
    v.toVmo = some { state := .sparse [⟨0, none⟩]
                     length := roundedLength z (Pmm.pageSizes defaultLevel)
                     alignedToPageLevel := defaultLevel } := by
  obtain ⟨v, hc, hli, hx, hl, hle⟩ := createSparseVmo_eq z defaultLevel
  refine ⟨v, ?_, hc, hl, ?_⟩
  · rw [roseVmoCreateHandler, if_neg (not_not.mpr rfl), hc]
  · rw [hli.toVmo_eq, map_singleton, hx, hl, hle]

section List

variable {p n : ℕ}

theorem fillElement_eq (hp : 0 < p) (fs : List ℕ) {k fu : ℕ} (hn : k + fs.length + 1 = n)
  (hf : fs.length ≤ fu) (g : ℕ) (xs : List ℕ) : fillElement p (n * p) fu (k * p) (fs ++ g :: xs) =
  .ok (pagesFrom p k (fs ++ [g]), xs) := by
  induction fs generalizing k fu with
  | nil =>
    rw [length_nil, add_zero] at hn
    cases fu with
    | zero => rfl
    | succ fu =>
      have hl : ¬ k * p + p < n * p := by
        rw [← hn, Nat.succ_mul]
        exact lt_irrefl _
      rw [nil_append, fillElement, if_neg hl]
      rfl
  | cons f fs ih =>
    rw [length_cons] at hn hf
    obtain ⟨fu, rfl⟩ : ∃ m, fu = m + 1 := ⟨fu - 1, by omega⟩
    have hne : k * p + p < n * p := by
      rw [← Nat.succ_mul]
      exact Nat.mul_lt_mul_of_pos_right (by omega) hp
    rw [cons_append, fillElement, if_pos hne, ← Nat.succ_mul,
      ih (by omega) (Nat.le_of_succ_le_succ hf)]
    rfl

theorem commitElements_new (hp : 0 < p) (fs : List ℕ) (hn : fs.length + 1 = max 1 n) (f : ℕ)
  (xs : List ℕ) : commitElements p (n * p) [⟨0, none⟩] (fs ++ f :: xs) =
  .ok (pagesFrom p 0 (fs ++ [f]), xs) := by
  have hf : fillElement p (n * p) (n * p / p) 0 (fs ++ f :: xs) =
    .ok (pagesFrom p 0 (fs ++ [f]), xs) := by
    rw [Nat.mul_div_cancel n hp]
    rcases eq_zero_or_pos n with rfl | hpo
    · cases eq_nil_of_length_eq_zero (Nat.succ.inj hn)
      simp only [fillElement, pagesFrom, nil_append, zero_mul]
    · have hf := fillElement_eq (k := 0) (n := n) hp fs (by omega) (by omega : fs.length ≤ n) f xs
      rwa [zero_mul] at hf
  simp only [commitElements, not_lt_zero, if_false, nextOffset, hf, ok_bind, append_nil]

theorem fillElement_short (hp : 0 < p) {fs : List ℕ} {k f : ℕ}
  (hs : k + fs.length < n) (hf : fs.length < f) :
  fillElement p (n * p) f (k * p) fs = .error .outOfFrames := by
  induction fs generalizing k f with
  | nil =>
    cases f with
    | zero => rfl
    | succ f => rfl
  | cons g fs ih =>
    rw [length_cons] at hs hf
    obtain ⟨f, rfl⟩ : ∃ m, f = m + 1 := ⟨f - 1, by omega⟩
    have hn : k * p + p < n * p := by
      rw [← Nat.succ_mul]
      exact Nat.mul_lt_mul_of_pos_right (by omega) hp
    rw [fillElement, if_pos hn, ← Nat.succ_mul, ih (by omega) (Nat.lt_of_succ_lt_succ hf)]
    rfl

theorem commitElements_short (hp : 0 < p) {fs : List ℕ} (hs : fs.length < n) :
  commitElements p (n * p) [⟨0, none⟩] fs = .error .outOfFrames := by
  have hf := fillElement_short (k := 0) (n := n) hp (by omega) hs
  rw [zero_mul] at hf
  simp only [commitElements, not_lt_zero, if_false, nextOffset, Nat.mul_div_cancel n hp, hf]
  rfl

end List

theorem commitAll_empty {v : SparseVmo} {x : ℕ} (h : v.Lists [x]) (hx : v.element x = ⟨0, none⟩)
  (hle : v.length = 0) (f : ℕ) (xs : List ℕ) : v.commitAll (f :: xs) = .ok (v.back x f, xs) := by
  have ho : v.offset x = 0 := congrArg SparseElement.offset hx
  have hb : v.backingAddress x = none := congrArg SparseElement.backingAddress hx
  have hn : v.elements.next x = some none := Lists.next_eq [] h
  have hl := h.lowerBound_eq mem_cons_self
  rw [ho] at hl
  have hu : v.elements.upperBound (fun y ↦ v.compare (.inl 0) (.inr y))
    (fun y ↦ v.compare (.inr y) (.inl 0)) = some none := by
    rw [AvlLinks.upperBound, hl, Option.bind_some]
    dsimp only
    rw [compare_offset, compare_element, ho]
    exact hn
  have hf : fillLoop 0 (0 / v.pageSize + 1) v x (f :: xs) = .ok (v, x, f :: xs) :=
    fillLoop_done (Nat.not_lt_zero _) _
  simp only [commitAll, commitBetweenOffsets, hle, hl, hu, liftElement, ok_bind,
    ho, lt_irrefl, if_false, h.size_eq]
  rw [commitLoop_split hb hn (by rw [Option.elim, hle]; exact hf) hn]
  exact commitLoop_end _ _ xs

theorem commitAll_new {v : SparseVmo} {x p n : ℕ} (hp : 0 < p) (hbo : n * p < 2 ^ 64)
  (h : v.Lists [x]) (hx : v.element x = ⟨0, none⟩) (hl : v.length = n * p)
  (hpa : v.pageSize = p) (fs : List ℕ) (f : ℕ) (hn : fs.length + 1 = max 1 n)
  (l : List ℕ) : ∃ w xs, v.commitAll (fs ++ f :: l) = .ok (w, l) ∧ w.Lists xs ∧
  xs.map w.element = pagesFrom p 0 (fs ++ [f]) ∧ w.length = v.length ∧
  w.alignedToPageLevel = v.alignedToPageLevel := by
  rcases eq_zero_or_pos n with rfl | hpo
  · cases eq_nil_of_length_eq_zero (Nat.succ.inj hn)
    rw [zero_mul] at hl
    refine ⟨v.back x f, [x], commitAll_empty h hx hl f l, h.back x f, ?_, rfl,
      rfl⟩
    have ho : v.offset x = 0 := congrArg SparseElement.offset hx
    have hb := map_element_back (show v.Lists ([] ++ [x]) from h) f
    rw [ho, nil_append] at hb
    simpa only [pagesFrom, nil_append, map_nil, zero_mul] using hb
  · exact commitAll_first hp hbo h hx hl hpa fs f (by omega) l

theorem commitAll_refines {size n : ℕ} {level : Fin Pmm.pageSizeCount}
    (hl : roundedLength size (Pmm.pageSizes level) = n * Pmm.pageSizes level)
    {frames : List ℕ} (he : max 1 n ≤ frames.length) :
    ∃ v w rest vmo vmo', createSparseVmo size level = .ok v ∧ v.toVmo = some vmo ∧
      v.commitAll frames = .ok (w, rest) ∧ w.toVmo = some vmo' ∧
      vmo.commitAll frames = .ok vmo' := by
  have hp := pageSizes_pos level
  have hb := hl ▸ roundedLength_lt size (Pmm.pageSizes level)
  obtain ⟨fs, f, rest, rfl, hfs⟩ := exists_popped (Nat.le_max_left 1 n) he
  obtain ⟨v, hc, hv, hx, h, hvl⟩ := createSparseVmo_eq size level
  rw [hl] at h
  obtain ⟨w, xs, hco, hw, hxs, hwle, hwl⟩ := commitAll_new hp hb hv hx h
    (by rw [pageSize, hvl]) fs f hfs rest
  refine ⟨v, w, rest, _, _, hc, hv.toVmo_eq, hco, hw.toVmo_eq, ?_⟩
  rw [map_singleton, hx, hxs, hwle, hwl, h, hvl]
  simp only [Vmo.commitAll, commitElements_new hp fs hfs, ok_bind]

theorem commitAll_refines_pages : ∃ v w rest vmo vmo', createSparseVmo 0x3000 defaultLevel = .ok v ∧
  v.toVmo = some vmo ∧ v.commitAll [0x5000, 0x8000, 0x9000] = .ok (w, rest) ∧
  w.toVmo = some vmo' ∧ vmo.commitAll [0x5000, 0x8000, 0x9000] = .ok vmo' :=
  commitAll_refines (n := 3) (by decide) le_rfl

end ReaverOS.Kernel.SparseVmo
