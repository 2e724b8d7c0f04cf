import ReaverOS.Kernel.Vas
import ReaverOS.Paging.TableLabels

namespace ReaverOS.Kernel.SharedTables

section

open Function Option Foundation Fallible Runs Words Paging TableHeap
open Kernel.Vas (AddressRange Upper mappedRange)

structure System where
  heap : Heap
  roots : List Frame
  tables : List Frame
  frames : List Frame

inductive Op
  | cloneUpperHalf (cr3 : Frame)
  | mapPhysical (root : Frame) (start stop physical : ℕ) (user : Bool)
  | unmap (root : Frame) (start stop : ℕ) (freePhysical : Bool)

def popped (old new : List Frame) : List Frame := old.take (old.length - new.length)

def step (s : System) : Op → Option System
  | .cloneUpperHalf cr3 =>
    if cr3 ∈ s.roots then
      match TableHeap.cloneUpperHalf s.heap cr3 s.frames with
      | .ok (ret, heap, frames) =>
        some ⟨heap, ret :: s.roots, popped s.frames frames ++ s.tables, frames⟩
      | .error _ => none
    else none
  | .mapPhysical root start stop physical user =>
    if root ∈ s.roots then
      match TableHeap.mapPhysical s.heap root start stop physical user s.frames with
      | .ok (heap, frames) =>
        some { s with heap, tables := popped s.frames frames ++ s.tables, frames }
      | .error _ => none
    else none
  | .unmap root start stop freePhysical =>
    if root ∈ s.roots then
      match TableHeap.unmap s.heap root start stop freePhysical with
      | .ok m => some { s with heap := m.heap, frames := m.pushed ++ s.frames }
      | .error _ => none
    else none

/-- What an unmap gives back is no table, is not free already, and is given back once. -/
structure Freeable (s : System) (root : Frame) (r : AddressRange) : Prop where
  unused : ∀ x f, r.start ≤ x → x < r.stop → virtToPhys s.heap 4 root x = some (getPhys f) →
    f ∉ s.tables ∧ f ∉ s.frames
  distinct : ∀ x y f, r.start ≤ x → x < r.stop → r.start ≤ y → y < r.stop →
    virtToPhys s.heap 4 root x = some (getPhys f) →
    virtToPhys s.heap 4 root y = some (getPhys f) → x / pageSize = y / pageSize

def Sensible (s : System) : Op → Prop
  | .cloneUpperHalf _ => True
  | .mapPhysical root start stop _ _ =>
    ∀ x, (mappedRange start stop).start ≤ x → x < (mappedRange start stop).stop →
      meetsLarge s.heap 4 root x = false
  | .unmap root start stop freePhysical =>
    freePhysical = true → Freeable s root (mappedRange start stop)

def Op.Lower (r : Frame) : Op → Prop
  | .cloneUpperHalf _ => False
  | .mapPhysical root start stop _ _ | .unmap root start stop _ =>
    root = r ∧
      ∀ x, (mappedRange start stop).start ≤ x → x < (mappedRange start stop).stop → ¬ Upper x

structure Initial (s : System) : Prop where
  root : ∃ r, s.roots = [r]
  frames : s.frames.Nodup
  tables : ∃ label, Labelled label s.heap ∧ (∀ f, label f ≠ none ↔ f ∈ s.tables) ∧
    (∀ r ∈ s.roots, label r = some (rootLabel r)) ∧ ∀ f ∈ s.frames, f ∉ s.tables

def Shared (s : System) : Prop :=
  ∀ r ∈ s.roots, ∀ r' ∈ s.roots, ∀ x, Upper x →
    virtToPhys s.heap 4 r x = virtToPhys s.heap 4 r' x

/-- A change to the lower half of one root changes no translation of another. -/
def Private (s : System) : Prop :=
  ∀ op r t, op.Lower r → Sensible s op → step s op = some t → ∀ r' ∈ s.roots, r' ≠ r →
    ∀ x, virtToPhys t.heap 4 r' x = virtToPhys s.heap 4 r' x

def core (e : Entry) : Bool × Bool × Frame := (e.present, e.size, e.address)

structure Inv (label : Frame → Option Label) (s : System) : Prop where
  labelled : Labelled label s.heap
  fresh : Fresh label s.frames
  tables : ∀ f, label f ≠ none ↔ f ∈ s.tables
  roots : ∀ r ∈ s.roots, label r = some (rootLabel r)
  agree : ∀ r ∈ s.roots, ∀ r' ∈ s.roots, ∀ i : Fin 512, 256 ≤ (i : ℕ) →
    core (s.heap r i) = core (s.heap r' i)
  full : (∀ r ∈ s.roots, ∀ r' ∈ s.roots, r = r') ∨
    ∀ r ∈ s.roots, ∀ i : Fin 512, 256 ≤ (i : ℕ) → (s.heap r i).present = true

variable {s t : System} {op : Op} {label label' : Frame → Option Label} {root r r' : Frame}
  {start stop : ℕ}

theorem Initial.inv (h : Initial s) : ∃ label, Inv label s := by
  obtain ⟨⟨r, hr⟩, hn, label, hl, ht, hro, hfr⟩ := h
  have hs : ∀ r ∈ s.roots, ∀ r' ∈ s.roots, r = r' := by simp [hr]
  refine ⟨label, hl, ⟨hn, fun f hf ↦ ?_⟩, ht, hro, fun r hr r' hr' i _ ↦ ?_, .inl hs⟩
  · by_contra hne
    exact hfr f hf ((ht f).mp hne)
  · rw [hs r hr r' hr']

theorem virtToPhys_of_core {h : Heap} {I x : ℕ}
  (he : core (h r (tableIndex (I + 1) x)) = core (h r' (tableIndex (I + 1) x))) :
  virtToPhys h (I + 1) r x = virtToPhys h (I + 1) r' x := by
  simp only [core, Prod.mk.injEq] at he
  rw [virtToPhys, virtToPhys, he.1, he.2.1, he.2.2]

theorem Inv.shared (h : Inv label s) : Shared s :=
  fun r hr r' hr' _ hx ↦ virtToPhys_of_core (h.agree r hr r' hr' _ hx)

theorem popped_append (xs ys : List Frame) : popped (xs ++ ys) ys = xs := by
  rw [popped, List.length_append, Nat.add_sub_cancel, List.take_left]

theorem mapPhysical_effect {h : Heap} {fs : List Frame} {p : ℕ} {u : Bool}
  {rs : Heap × List Frame} (hl : Labelled label h) (hf : Fresh label fs)
  (hr : label root = some (rootLabel root))
  (hla : ∀ x, (mappedRange start stop).start ≤ x → x < (mappedRange start stop).stop →
  meetsLarge h 4 root x = false) (hk : TableHeap.mapPhysical h root start stop p u fs = .ok rs) :
  ∃ label', MapEffect 4 root (rootLabel root) (mappedRange start stop).start
  (mappedRange start stop).stop label ⟨h, fs, 0⟩ label' ⟨rs.1, rs.2, 0⟩ := by
  rw [TableHeap.mapPhysical] at hk
  rw [mappedRange] at hla ⊢
  split at hk
  next =>
    cases hk
    exact ⟨label, .refl hl⟩
  next hsize =>
    obtain ⟨m, hm, hre⟩ := bind_eq_ok hk
    cases hre
    rw [if_neg hsize] at hla ⊢
    obtain ⟨label', hg, ho, hs⟩ := vmMap_mapEffect hl hf hr rfl
      (lt_of_le_of_lt Nat.and_le_left (Nat.mod_lt _ (by decide))) hla hm
    exact ⟨label', ⟨hg.keeps, hg.labelled, hg.taken, hg.frame⟩, ho, hs⟩

theorem unmap_effect {h : Heap} {f : Bool} {m : Unmapping} (hl : Labelled label h)
  (hr : label root = some (rootLabel root)) (ho : TableHeap.unmap h root start stop f = .ok m) :
  UnmapEffect f 4 root (rootLabel root) (mappedRange start stop).start
  (mappedRange start stop).stop label ⟨h, []⟩ m := by
  rw [TableHeap.unmap] at ho
  rw [mappedRange]
  split at ho
  next =>
    cases ho
    exact .refl _
  next hsize =>
    rw [if_neg hsize]
    exact vmUnmap_effect hl hr rfl (lt_of_le_of_lt Nat.and_le_left (Nat.mod_lt _ (by decide))) ho

theorem step_cases (h : step s op = some t) : (∃ c rs, op = .cloneUpperHalf c ∧ c ∈ s.roots ∧
  TableHeap.cloneUpperHalf s.heap c s.frames = .ok rs ∧
  t = ⟨rs.2.1, rs.1 :: s.roots, popped s.frames rs.2.2 ++ s.tables, rs.2.2⟩) ∨
  (∃ root start stop p u rs, op = .mapPhysical root start stop p u ∧ root ∈ s.roots ∧
  TableHeap.mapPhysical s.heap root start stop p u s.frames = .ok rs ∧ t = { s with
  heap := rs.1, tables := popped s.frames rs.2 ++ s.tables, frames := rs.2 }) ∨
    ∃ root start stop f m, op = .unmap root start stop f ∧
      root ∈ s.roots ∧ TableHeap.unmap s.heap root start stop f = .ok m ∧
      t = { s with heap := m.heap, frames := m.pushed ++ s.frames } := by
  cases op with
  | cloneUpperHalf c =>
    obtain ⟨hr, h⟩ := ite_none_right_eq_some.mp h
    split at h
    next ret heap frames hok =>
      cases h
      exact .inl ⟨c, _, rfl, hr, hok, rfl⟩
    next => cases h
  | mapPhysical root start stop p u =>
    obtain ⟨hr, h⟩ := ite_none_right_eq_some.mp h
    split at h
    next heap frames hok =>
      cases h
      exact .inr (.inl ⟨root, start, stop, p, u, _, rfl, hr, hok, rfl⟩)
    next => cases h
  | unmap root start stop f =>
    obtain ⟨hr, h⟩ := ite_none_right_eq_some.mp h
    split at h
    next m hok =>
      cases h
      exact .inr (.inr ⟨root, start, stop, f, m, rfl, hr, hok, rfl⟩)
    next => cases h

end

open Function List Option Foundation Fallible Runs Paging TableHeap
open Kernel.Vas (AddressRange Upper mappedRange)

variable {s t : System} {op : Op} {label label' : Frame → Option Label} {root r r' : Frame}
  {start stop : ℕ} {touch : Label → Prop} {m m' : Mapping}

theorem Stable.core_eq {h h' : Heap} {tb : Frame} (hs : Stable h h' tb) {j : Fin 512}
  (hj : (h tb j).present = true) : core (h' tb j) = core (h tb j) := by
  obtain ⟨hp, hsi, ha⟩ := hs j hj
  rw [core, core, hp, hj, hsi, ha]

theorem present_of_core {e e' : Entry} (h : core e = core e') : e.present = e'.present :=
  congrArg Prod.fst h

theorem Grown.tables {tables : List Frame} (h : Grown touch label m label' m')
  (ht : ∀ f, label f ≠ none ↔ f ∈ tables) (f : Frame) :
  label' f ≠ none ↔ f ∈ popped m.frames m'.frames ++ tables := by
  obtain ⟨ta, hf, hl⟩ := h.taken
  rw [hl, ht, hf, popped_append, mem_append, or_comm]

theorem rootLabel_inj (h : rootLabel r = rootLabel r') : r = r' :=
  Owner.root.inj (Prod.mk.inj h).1

theorem not_touched_rootLabel {vs ve : ℕ} (h : r ≠ root) :
  ¬ Touched 4 (rootLabel root) vs ve (rootLabel r) := by
  rintro (heq | ⟨x, -, -, hb⟩)
  · exact h (rootLabel_inj heq)
  · have hl := hb.2.length_le
    rw [childLabel, length_cons] at hl
    exact absurd hl (by simp [rootLabel])

theorem Inv.of_same (h : Inv label s) (hl : Labelled label' t.heap) (hf : Fresh label' t.frames)
  (ht : ∀ f, label' f ≠ none ↔ f ∈ t.tables)
  (hk : ∀ f l, label f = some l → label' f = some l) (hro : t.roots = s.roots)
  (hs : ∀ r ∈ s.roots, ∀ i, (s.heap r i).present = true →
  core (t.heap r i) = core (s.heap r i)) : Inv label' t := by
  refine ⟨hl, hf, ht, fun r hr ↦ ?_, fun r hr r' hr' i hi ↦ ?_, ?_⟩
  · rw [hro] at hr
    exact hk r _ (h.roots r hr)
  · rw [hro] at hr hr'
    rcases h.full with ho | ha
    · rw [ho r hr r' hr']
    · rw [hs r hr i (ha r hr i hi), hs r' hr' i (ha r' hr' i hi)]
      exact h.agree r hr r' hr' i hi
  · rw [hro]
    refine h.full.imp id fun ha r hr i hi ↦ ?_
    rw [present_of_core (hs r hr i (ha r hr i hi))]
    exact ha r hr i hi

theorem Inv.mapPhysical (h : Inv label s) {p : ℕ} {u : Bool} {rs : Heap × List Frame}
  (hro : root ∈ s.roots) (hs : Sensible s (.mapPhysical root start stop p u))
  (ho : TableHeap.mapPhysical s.heap root start stop p u s.frames = .ok rs) : ∃ label', Inv label'
  { s with heap := rs.1, tables := popped s.frames rs.2 ++ s.tables, frames := rs.2 } := by
  obtain ⟨label', he⟩ := mapPhysical_effect h.labelled h.fresh (h.roots root hro) hs ho
  refine ⟨label', h.of_same he.grown.labelled (Fresh.grown h.fresh he.grown)
    (Grown.tables he.grown h.tables) he.grown.keeps rfl fun r hr i hi ↦ ?_⟩
  rcases eq_or_ne r root with rfl | hne
  · exact Stable.core_eq he.stable hi
  · exact congrArg core (congrFun (he.grown.frame r _ (h.roots r hr) (not_touched_rootLabel hne)) i)

theorem Pushed.fresh (h : Inv label s) {rg : AddressRange} (hfr : Freeable s root rg)
  {xs : List ℕ} {fs : List Frame} (hp : Pushed s.heap 4 root rg.start rg.stop xs fs) :
  Fresh label (fs ++ s.frames) := by
  have hpa : ∀ f ∈ fs, ∃ x ∈ xs, virtToPhys s.heap 4 root x = some (getPhys f) := by
    intro f hf
    have hm := mem_map_of_mem (f := fun f ↦ some (getPhys f)) hf
    rw [hp.frames] at hm
    exact mem_map.mp hm
  have hfra : ∀ x ∈ xs, ∃ f, virtToPhys s.heap 4 root x = some (getPhys f) := by
    intro x hx
    have hm := mem_map_of_mem (f := virtToPhys s.heap 4 root) hx
    rw [← hp.frames] at hm
    obtain ⟨f, -, he⟩ := mem_map.mp hm
    exact ⟨f, he.symm⟩
  have hu : ∀ f ∈ fs, f ∉ s.tables ∧ f ∉ s.frames := by
    intro f hf
    obtain ⟨x, hx, hph⟩ := hpa f hf
    obtain ⟨hx, hx'⟩ := hp.bounds x hx
    exact hfr.unused x f hx hx' hph
  have hn : fs.Nodup := by
    refine Nodup.of_map (fun f ↦ some (getPhys f)) ?_
    rw [hp.frames]
    refine pairwise_map.mpr (hp.pages.imp_of_mem fun {x y} hx hy hlt he ↦ ?_)
    obtain ⟨f, hph⟩ := hfra x hx
    obtain ⟨hx, hx'⟩ := hp.bounds x hx
    obtain ⟨hy, hy'⟩ := hp.bounds y hy
    have := hfr.distinct x y f hx hx' hy hy' hph (he ▸ hph)
    omega
  refine ⟨nodup_append.mpr ⟨hn, h.fresh.nodup, fun f hf g hg he ↦ ?_⟩, fun f hf ↦ ?_⟩
  · exact (hu f hf).2 (he ▸ hg)
  · rcases mem_append.mp hf with hf | hf
    · by_contra hne
      exact (hu f hf).1 ((h.tables f).mp hne)
    · exact h.fresh.unlabelled f hf

theorem Inv.unmap (h : Inv label s) {f : Bool} {m : Unmapping}
  (hro : root ∈ s.roots) (hs : Sensible s (.unmap root start stop f))
  (ho : TableHeap.unmap s.heap root start stop f = .ok m) :
  Inv label { s with heap := m.heap, frames := m.pushed ++ s.frames } := by
  have he := unmap_effect h.labelled (h.roots root hro) ho
  refine h.of_same (h.labelled.of_lowest he.lowest) ?_ h.tables (fun _ _ hf ↦ hf) rfl
    fun r hr i _ ↦ ?_
  · obtain ⟨xs, fs, hpu, hp, hn⟩ := he.pushed
    rw [hpu, append_nil]
    cases f with
    | false =>
      rw [hn rfl]
      exact h.fresh
    | true => exact Pushed.fresh h (hs rfl) hp
  · rcases he.lowest r with heq | ⟨l, hl, hle⟩
    · exact congrArg core (congrFun heq i)
    · cases (h.roots r hr).symm.trans hl
      cases hle

theorem Inv.cloneUpperHalf (h : Inv label s) {c : Frame} {rs : Frame × Heap × List Frame}
  (hcr : c ∈ s.roots) (hk : TableHeap.cloneUpperHalf s.heap c s.frames = .ok rs) :
  ∃ label', Inv label' ⟨rs.2.1, rs.1 :: s.roots, popped s.frames rs.2.2 ++ s.tables, rs.2.2⟩ := by
  obtain ⟨label', hf, hre, hg, hs, hc⟩ :=
    cloneUpperHalf_effect h.labelled h.fresh (h.roots c hcr) hk
  -- The entries of every root are those of `cr3`, which are all there now.
  have hco : ∀ r ∈ rs.1 :: s.roots, ∀ i : Fin 512, 256 ≤ (i : ℕ) →
    core (rs.2.1 r i) = core (rs.2.1 c i) := by
    intro r hr i hi
    rcases mem_cons.mp hr with rfl | hr
    · exact congrArg core (hc i hi).1
    rcases eq_or_ne r c with rfl | hne
    · rfl
    have hsa : rs.2.1 r = s.heap r := by
      refine hg.frame r (rootLabel r) (h.roots r hr) ?_
      rintro (heq | heq)
      · exact hne (rootLabel_inj heq)
      · exact ne_of_unlabelled (h.roots r hr) hf (rootLabel_inj heq)
    rcases h.full with ho | ha
    · exact absurd (ho r hr c hcr) hne
    · rw [hsa, h.agree r hr c hcr i hi, Stable.core_eq hs (ha c hcr i hi)]
  refine ⟨label', hg.labelled, Fresh.grown h.fresh hg, Grown.tables hg h.tables, fun r hr ↦ ?_,
    fun r hr r' hr' i hi ↦ ?_, .inr fun r hr i hi ↦ ?_⟩
  · rcases mem_cons.mp hr with rfl | hr
    · exact hre
    · exact hg.keeps r _ (h.roots r hr)
  · rw [hco r hr i hi, hco r' hr' i hi]
  · rw [present_of_core (hco r hr i hi)]
    exact (hc i hi).2

theorem Inv.step (h : Inv label s) (hs : Sensible s op) (hst : step s op = some t) :
  ∃ label', Inv label' t := by
  rcases step_cases hst with ⟨cr3, res, rfl, hr, hok, rfl⟩ |
    ⟨root, start, stop, physical, user, res, rfl, hr, hok, rfl⟩ |
    ⟨root, start, stop, freePhysical, m, rfl, hr, hok, rfl⟩
  · exact h.cloneUpperHalf hr hok
  · exact h.mapPhysical hr hs hok
  · exact ⟨label, h.unmap hr hs hok⟩

theorem Inv.virtToPhys_eq (h : Inv label s) (hr : r ∈ s.roots) {he : Heap}
  (hs : ∀ f l, label f = some l → l.1 = .shared ∨ l.1 = .root r → he f = s.heap f) (x : ℕ) :
  virtToPhys he 4 r x = virtToPhys s.heap 4 r x := by
  have hl := h.roots r hr
  refine follows_virtToPhys.of_entry h.labelled hl rfl
    (congrFun (hs r _ hl (.inr rfl)) _) fun f l hf hb ↦ hs f l hf ?_
  rw [hb.1, childLabel]
  split
  · exact .inl rfl
  · exact .inr rfl

theorem owner_of_touched {vs ve : ℕ} {l : Label} (hl : ∀ x, vs ≤ x → x < ve → ¬ Upper x)
  (h : Touched 4 (rootLabel root) vs ve l) : l.1 = .root root := by
  rcases h with rfl | ⟨x, hx, hx', hb⟩
  · rfl
  · rw [hb.1, childLabel, if_neg fun hu ↦ hl x hx hx' hu.2]
    rfl

theorem not_owner (hn : r' ≠ r) {l : Label} (h : l.1 = .shared ∨ l.1 = .root r') :
  l.1 ≠ .root r := by
  rcases h with h | h
  · simp [h]
  · simp [h, hn]

theorem Inv.isPrivate (h : Inv label s) : Private s := by
  intro op r t hl hs hst r' hr' hn x
  rcases step_cases hst with ⟨cr3, res, rfl, hro, hok, rfl⟩ |
    ⟨root, start, stop, physical, user, res, rfl, hro, hok, rfl⟩ |
    ⟨root, start, stop, freePhysical, m, rfl, hro, hok, rfl⟩
  · exact hl.elim
  · obtain ⟨rfl, hl⟩ := hl
    obtain ⟨label', he⟩ := mapPhysical_effect h.labelled h.fresh (h.roots root hro) hs hok
    exact h.virtToPhys_eq hr' (fun f l hf ho ↦ he.grown.frame f l hf fun ht ↦
      not_owner hn ho (owner_of_touched hl ht)) x
  · obtain ⟨rfl, hl⟩ := hl
    have he := unmap_effect h.labelled (h.roots root hro) hok
    refine h.virtToPhys_eq hr' (fun f l hf ho ↦ ?_) x
    rcases he.frame f with heq | ⟨l', hf', -, ht⟩
    · exact heq
    · cases hf.symm.trans hf'
      exact absurd (owner_of_touched hl ht) (not_owner hn ho)

def booted : System where
  heap f i :=
    if f = 1 ∧ 256 ≤ (i : ℕ) then { present := true, address := BitVec.ofNat 40 (0x3ff00 + i) }
    else if f = 0x40000 ∧ i = 1 then { present := true, size := true, address := 0x40000 }
    else {}
  roots := [1]
  tables := 1 :: (List.range 256).map fun i ↦ BitVec.ofNat 40 (0x40000 + i)
  frames := [2, 3, 4, 5]

def bootedLabel (f : Frame) : Option Label :=
  if f = 1 then some (rootLabel 1)
  else if h : 0x40000 ≤ f.toNat ∧ f.toNat < 0x40100 then
    some (.shared, [⟨f.toNat - 0x3ff00, by omega⟩])
  else none

theorem labelled_booted : Labelled bootedLabel booted.heap := by
  have hw : ∀ i : Fin 512, 256 ≤ (i : ℕ) →
    bootedLabel (BitVec.ofNat 40 (0x3ff00 + i)) = some (childLabel (rootLabel 1) i) := by
    decide +kernel
  refine ⟨fun f l hf _ i hp hs ↦ ?_⟩
  by_cases hr : f = 1 ∧ 256 ≤ (i : ℕ)
  · obtain ⟨rfl, hi⟩ := hr
    cases hf
    simp only [booted, true_and, if_pos hi]
    exact hw i hi
  · simp only [booted, if_neg hr] at hp hs
    split at hs
    · cases hs
    · rw [if_neg ‹_›] at hp
      cases hp

theorem mem_tables_booted (f : Frame) : bootedLabel f ≠ none ↔ f ∈ booted.tables := by
  have hm : (f ∈ (List.range 256).map fun i ↦ BitVec.ofNat 40 (0x40000 + i)) ↔
    0x40000 ≤ f.toNat ∧ f.toNat < 0x40100 := by
    simp only [List.mem_map, List.mem_range]
    constructor
    · rintro ⟨i, hi, rfl⟩
      rw [BitVec.toNat_ofNat]
      omega
    · intro hf
      refine ⟨f.toNat - 0x40000, by omega, BitVec.eq_of_toNat_eq ?_⟩
      rw [BitVec.toNat_ofNat]
      omega
  rw [booted, mem_cons, hm, bootedLabel]
  by_cases hr : f = 1
  · exact iff_of_true (by simp [hr]) (.inl hr)
  · by_cases hf : 0x40000 ≤ f.toNat ∧ f.toNat < 0x40100
    · rw [if_neg hr, dif_pos hf]
      exact iff_of_true (some_ne_none _) (.inr hf)
    · rw [if_neg hr, dif_neg hf]
      exact iff_of_false (fun h ↦ h rfl) (not_or.mpr ⟨hr, hf⟩)

theorem initial_booted : Initial booted := by
  have hr : ∀ r ∈ [(1 : Frame)], bootedLabel r = some (rootLabel r) := by simp [bootedLabel]
  have hfr : ∀ f ∈ [(2 : Frame), 3, 4, 5], bootedLabel f = none := by simp [bootedLabel]
  refine ⟨⟨1, rfl⟩, by decide, bootedLabel, labelled_booted, mem_tables_booted, hr,
    fun f hf ht ↦ ?_⟩
  exact (mem_tables_booted f).mpr ht (hfr f hf)

theorem shared_of_sensible (s t : System) (hs : Initial s) (h : Reachable step Sensible s t) :
    Shared t ∧ Private t := by
  have hi : ∃ label, Inv label t := by
    refine h.invariant (I := fun s ↦ ∃ label, Inv label s) hs.inv ?_
    rintro s op t ⟨label, hi⟩ hse hst
    exact hi.step hse hst
  obtain ⟨label, hi⟩ := hi
  exact ⟨hi.shared, hi.isPrivate⟩

theorem shared_after_clone : ∃ t, Reachable step Sensible booted t ∧ t.roots = [2, 1] ∧
  virtToPhys t.heap 4 2 0xffff808000005000 = some 0x7000 ∧ Shared t ∧ Private t := by
  let page : Op := .mapPhysical 1 0xffff808000005000 0xffff808000006000 0x7000 false
  have hm : (exec step booted [.cloneUpperHalf 1]).all
    (fun u ↦ !meetsLarge u.heap 4 1 0xffff808000005000) = true := by decide +kernel
  have hru : (exec step booted ([.cloneUpperHalf 1] ++ page :: [])).any (fun t ↦
    t.roots == [2, 1] && virtToPhys t.heap 4 2 0xffff808000005000 == some 0x7000) = true := by
    decide +kernel
  obtain ⟨t, he, ht⟩ := (any_eq_true _ _).mp hru
  have hs : ∀ u, exec step booted [.cloneUpperHalf 1] = some u → Sensible u page := by
    intro u hu x hx hx'
    rw [hu] at hm
    rw [show mappedRange _ _ = ⟨0xffff808000005000, 0xffff808000006000⟩ by decide] at hx hx'
    rw [meetsLarge_of_page (y := 0xffff808000005000) (by simp only [pageSize] at hx hx' ⊢; omega)]
    simpa using hm
  have hr : Reachable step Sensible booted t :=
    Reachable.of_exec_split (by simp [Sensible]) hs (by simp) he
  simp only [Bool.and_eq_true, beq_iff_eq] at ht
  exact ⟨t, hr, ht.1, ht.2, shared_of_sensible booted t initial_booted hr⟩

def UpperOnly (_ : System) : Op → Prop
  | .cloneUpperHalf _ => True
  | .mapPhysical _ start stop _ _ | .unmap _ start stop _ =>
    ∀ x, (mappedRange start stop).start ≤ x → x < (mappedRange start stop).stop → Upper x

theorem upper_of_le {x : ℕ} (h : 0xffff800000000000 ≤ x) (h' : x < 2 ^ 64) : Upper x := by
  rw [Upper, tableIndex_val, entrySize_eq]
  omega

def windowOps : List Op :=
  [.cloneUpperHalf 1, .mapPhysical 1 0xffff800040405000 0xffff800040406000 0x2000 false,
    .unmap 1 0xffff800080b00000 0xffff800080b01000 false]

theorem not_shared : ¬ ∀ s t, Initial s → Reachable step UpperOnly s t → Shared t := by
  intro h
  have hru : (exec step booted windowOps).any (fun t ↦ t.roots == [2, 1] &&
    virtToPhys t.heap 4 1 0xffff800040000000 == some 0x40000000 &&
    virtToPhys t.heap 4 2 0xffff800040000000 == none) = true := by decide +kernel
  obtain ⟨t, he, ht⟩ := (any_eq_true _ _).mp hru
  simp only [Bool.and_eq_true, beq_iff_eq] at ht
  obtain ⟨⟨hr, ho⟩, htw⟩ := ht
  have hu : ∀ op ∈ windowOps, ∀ s, UpperOnly s op := by
    simp only [windowOps, forall_mem_cons, UpperOnly]
    rw [show mappedRange 0xffff800040405000 0xffff800040406000 =
      ⟨0xffff800040405000, 0xffff800040406000⟩ by decide,
      show mappedRange 0xffff800080b00000 0xffff800080b01000 =
        ⟨0xffff800080b00000, 0xffff800080b01000⟩ by decide]
    refine ⟨fun _ ↦ trivial, fun _ x hx hx' ↦ ?_, fun _ x hx hx' ↦ ?_, by simp⟩
    · simp only at hx hx'
      exact upper_of_le (by omega) (by omega)
    · simp only at hx hx'
      exact upper_of_le (by omega) (by omega)
  have hs := h booted t initial_booted (Reachable.of_exec hu he) 1 (by simp [hr]) 2
    (by simp [hr]) 0xffff800040000000 (upper_of_le (by decide) (by decide))
  rw [ho, htw] at hs
  cases hs

end ReaverOS.Kernel.SharedTables
