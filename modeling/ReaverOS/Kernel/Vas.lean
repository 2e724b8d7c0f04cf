import ReaverOS.Kernel.AvlTree
import ReaverOS.Kernel.Pmm
import ReaverOS.Paging.MapSuccess

namespace ReaverOS.Kernel.Vas

section Mappings

open Foundation.SearchTree
open Kernel.AvlTree (Avl)
open Kernel.Vm (Flags)
open Paging (Pmlt)

structure AddressRange where
  start : ℕ
  stop : ℕ
  deriving DecidableEq

def addressCompare (lhs rhs : AddressRange) : Bool := lhs.stop ≤ rhs.start

structure SparseElement where
  offset : ℕ
  backingAddress : Option ℕ

inductive VmoState
  | physical (base : ℕ)
  | sparse (elements : List SparseElement)

structure Vmo where
  state : VmoState
  length : ℕ
  alignedToPageLevel : Fin Pmm.pageSizeCount
  isVdso : Bool := false

structure Mapping where
  range : AddressRange := ⟨0, 0⟩
  mappingFlags : Flags := {}
  valid : Bool := true

structure Space where
  asid : Pmlt 4
  frames : List ℕ
  mappings : Avl ℕ := .nil
  objects : ℕ → Mapping := fun _ ↦ {}
  created : ℕ := 0
  vdsoMapping : Option ℕ := none

inductive Panic
  | misaligned (level pageSize base : ℕ)
  | occupied (requested existing : AddressRange)
  | uncommitted
  | paging (fault : Paging.Fault)
  | nullLink

def liftPaging {α : Type} : Except Paging.Fault α → Except Panic α
  | .ok a => .ok a
  | .error fault => .error (.paging fault)

def liftLink {α : Type} : Option α → Except Panic α
  | some a => .ok a
  | none => .error .nullLink

namespace Space

def range (v : Space) (id : ℕ) : AddressRange := (v.objects id).range

def find (v : Space) (r : AddressRange) : Option ℕ :=
  AvlTree.find (fun id ↦ addressCompare r (v.range id)) (fun id ↦ addressCompare (v.range id) r)
    v.mappings

def insert (v : Space) (mapping : Mapping) : Except Panic Space := do
  let objects := Function.update v.objects v.created mapping
  let (mappings, _) ← liftLink (AvlTree.insert
    (fun i j ↦ addressCompare (objects i).range (objects j).range) v.created v.mappings)
  .ok { v with mappings, objects, created := v.created + 1 }

def mapPhysical (v : Space) (start stop physical : ℕ) (flags : Flags) : Except Panic Space := do
  let (asid, frames) ← liftPaging (Vm.mapPhysical v.asid start stop physical flags v.frames)
  .ok { v with asid, frames }

def mapElements (base pageSize : ℕ) (flags : Flags) :
  List SparseElement → Space → Except Panic Space
  | [], v => .ok v
  | element :: elements, v =>
    match element.backingAddress with
    | none => .error .uncommitted
    | some backing => do
      let start := (base + element.offset) % 2 ^ 64
      let v ← v.mapPhysical start ((start + pageSize) % 2 ^ 64) backing flags
      mapElements base pageSize flags elements v

def mapPages (v : Space) (vmo : Vmo) (base pageSize : ℕ) (flags : Flags) : Except Panic Space :=
  match vmo.state with
  | .physical physical => v.mapPhysical base ((base + vmo.length) % 2 ^ 64) physical flags
  | .sparse elements => mapElements base pageSize flags elements v

def mapVmo (v : Space) (vmo : Vmo) (base : ℕ) (flags : Flags) : Except Panic (ℕ × Space) :=
  let pageSize := Pmm.pageSizes vmo.alignedToPageLevel
  if base &&& (pageSize - 1) ≠ 0 then
    .error (.misaligned vmo.alignedToPageLevel pageSize base)
  else
    let r : AddressRange := ⟨base, (base + vmo.length) % 2 ^ 64⟩
    match v.find r with
    | some id => .error (.occupied r (v.range id))
    | none => do
      let w ← v.insert { range := r, mappingFlags := flags }
      let w ← w.mapPages vmo base pageSize flags
      .ok (v.created, { w with
        vdsoMapping := if w.vdsoMapping.isNone && vmo.isVdso then some v.created
          else w.vdsoMapping })

def release (v : Space) (id : ℕ) : Space :=
  let released := { v.objects id with range := ⟨0, 0⟩, valid := false }
  { v with objects := Function.update v.objects id released }

def unmap (v : Space) (id : ℕ) : Except Panic Space := do
  let (asid, out) ← liftPaging (Vm.unmap v.asid (v.range id).start (v.range id).stop false)
  .ok ({ v with asid, frames := out.pushed ++ v.frames }.release id)

def lockAddressRange (v : Space) (start stop : ℕ) (rw : Bool) : Option ℕ :=
  match v.find ⟨start, stop⟩ with
  | none => none
  | some id => if rw && (v.objects id).mappingFlags.readOnly then none else some id

def lockArrayMapping (v : Space) (size ptr count : ℕ) (rw : Bool) : Option ℕ :=
  v.lockAddressRange ptr ((ptr + count * size) % 2 ^ 64) rw

def Live (v : Space) (id : ℕ) : Prop := id < v.created ∧ (v.objects id).valid

instance (v : Space) (id : ℕ) : Decidable (v.Live id) :=
  inferInstanceAs (Decidable (_ ∧ _))

end Space

inductive Op
  | map (vmo : Vmo) (base : ℕ) (flags : Flags)
  | unmap (id : ℕ)

def step (v : Space) : Op → Option Space
  | .map vmo base flags =>
    match v.mapVmo vmo base flags with
    | .ok (_, w) => some w
    | .error _ => none
  | .unmap id =>
    if v.Live id then
      match v.unmap id with
      | .ok w => some w
      | .error _ => none
    else none

open Foundation Fallible Words
open Kernel.Vm (Flags virtToPhys)
open Paging

def cloneLoop : ℕ → Pmlt 4 → Pmlt 4 → List ℕ → Except Fault (Pmlt 4 × Pmlt 4 × List ℕ)
  | 0, cr3, ret, frames => .ok (cr3, ret, frames)
  | room + 1, cr3, ret, frames =>
    let index : Fin 512 := ⟨511 - room, by omega⟩
    match cr3 index, frames with
    | .absent _, [] => .error .outOfFrames
    | .absent user, frame :: frames => do
      let t ← newTable 3
      let e : Pmle (Pmlt 3) := .table user (addressOf frame) t
      cloneLoop room (Function.update cr3 index e) (Function.update ret index e) frames
    | e, frames => cloneLoop room cr3 (Function.update ret index e) frames

def cloneUpperHalf (cr3 : Pmlt 4) (frames : List ℕ) :
  Except Fault (Pmlt 4 × Pmlt 4 × List ℕ) :=
  cloneLoop 256 cr3 (fun _ ↦ .absent false) frames

inductive CreatePanic
  | nonZeroFlags
  | outOfFrames
  | mapping (panic : Panic)

def fillElement (pageSize nextOffset : ℕ) :
  ℕ → ℕ → List ℕ → Except CreatePanic (List SparseElement × List ℕ)
  | _, _, [] => .error .outOfFrames
  | 0, offset, frame :: frames => .ok ([⟨offset, some frame⟩], frames)
  | fuel + 1, offset, frame :: frames =>
    if offset + pageSize < nextOffset then do
      let (elements, frames) ← fillElement pageSize nextOffset fuel (offset + pageSize) frames
      .ok (⟨offset, some frame⟩ :: elements, frames)
    else .ok ([⟨offset, some frame⟩], frames)

def nextOffset (length : ℕ) : List SparseElement → ℕ
  | [] => length
  | next :: _ => next.offset

def commitElements (pageSize length : ℕ) :
  List SparseElement → List ℕ → Except CreatePanic (List SparseElement × List ℕ)
  | [], frames => .ok ([], frames)
  | element :: rest, frames =>
    if length < element.offset then .ok (element :: rest, frames)
    else
      match element.backingAddress with
      | some _ => do
        let (rest, frames) ← commitElements pageSize length rest frames
        .ok (element :: rest, frames)
      | none => do
        let (filled, frames) ← fillElement pageSize (nextOffset length rest)
          (nextOffset length rest / pageSize) element.offset frames
        let (rest, frames) ← commitElements pageSize length rest frames
        .ok (filled ++ rest, frames)

def Vmo.commitAll (vmo : Vmo) (frames : List ℕ) : Except CreatePanic Vmo :=
  match vmo.state with
  | .physical _ => .ok vmo
  | .sparse elements => do
    let (elements, _) ← commitElements (Pmm.pageSizes vmo.alignedToPageLevel) vmo.length elements
      frames
    .ok { vmo with state := .sparse elements }

def Space.roseMappingCreateHandler (v : Space) (vmo : Vmo) (frames : List ℕ) (address flags : ℕ) :
  Except CreatePanic (ℕ × Space) := do
  if flags ≠ 0 then .error .nonZeroFlags
  else
    let vmo ← vmo.commitAll frames
    match v.mapVmo vmo address { user := true } with
    | .ok mapping => .ok mapping
    | .error panic => .error (.mapping panic)

def fillOffsets (pageSize nextOffset : ℕ) : ℕ → ℕ → List ℕ
  | 0, offset => [offset]
  | fuel + 1, offset =>
    if offset + pageSize < nextOffset then
      offset :: fillOffsets pageSize nextOffset fuel (offset + pageSize)
    else [offset]

def committedOffsets (pageSize length : ℕ) : List SparseElement → List ℕ
  | [] => []
  | element :: rest =>
    if length < element.offset then (element :: rest).map SparseElement.offset
    else
      match element.backingAddress with
      | some _ => element.offset :: committedOffsets pageSize length rest
      | none => fillOffsets pageSize (nextOffset length rest)
          (nextOffset length rest / pageSize) element.offset ++
        committedOffsets pageSize length rest

theorem fillElement_offsets {pageSize next : ℕ} (fuel offset : ℕ) {frames rest : List ℕ}
  {filled : List SparseElement}
  (h : fillElement pageSize next fuel offset frames = .ok (filled, rest)) :
  filled.map SparseElement.offset = fillOffsets pageSize next fuel offset := by
  induction fuel generalizing offset frames filled with
  | zero =>
    cases frames with
    | nil => cases h
    | cons frame frames =>
      cases h
      rfl
  | succ fuel ih =>
    cases frames with
    | nil => cases h
    | cons frame frames =>
      rw [fillElement] at h
      rw [fillOffsets]
      split at h
      next hlt =>
        obtain ⟨⟨elements, frames'⟩, hf, hok⟩ := bind_eq_ok h
        cases hok
        rw [if_pos hlt, List.map_cons, ih _ hf]
      next hlt =>
        cases h
        rw [if_neg hlt]
        rfl

theorem commitElements_offsets {p l : ℕ} (elements : List SparseElement)
  {fs xs : List ℕ} {c : List SparseElement} (h : commitElements p l elements fs = .ok (c, xs)) :
  c.map SparseElement.offset = committedOffsets p l elements := by
  induction elements generalizing fs c with
  | nil =>
    cases h
    rfl
  | cons e elements ih =>
    rw [commitElements] at h
    rw [committedOffsets]
    split at h
    next hlt =>
      cases h
      rw [if_pos hlt]
    next hlt =>
      rw [if_neg hlt]
      cases hb : e.backingAddress with
      | some b =>
        simp only [hb] at h ⊢
        obtain ⟨⟨m, frames'⟩, hm, ho⟩ := bind_eq_ok h
        cases ho
        rw [List.map_cons, ih hm]
      | none =>
        simp only [hb] at h ⊢
        obtain ⟨⟨f, frames'⟩, hf, h⟩ := bind_eq_ok h
        obtain ⟨⟨m, fs''⟩, hm, ho⟩ := bind_eq_ok h
        cases ho
        rw [List.map_append, fillElement_offsets _ _ hf, ih hm]

open List

open Foundation Fallible Words
open Kernel.Vm (Flags virtToPhys)
open Paging

def userWalk : (I : ℕ) → Pmlt I → ℕ → List Bool
  | 0, t, _ => nomatch t
  | I + 1, t, virt =>
    match t (tableIndex (I + 1) virt) with
    | .absent user => [user]
    | .page user _ => [user]
    | .table user _ next => user :: userWalk I next virt

def Upper (virt : ℕ) : Prop := 256 ≤ (tableIndex 4 virt : ℕ)

instance (virt : ℕ) : Decidable (Upper virt) := inferInstanceAs (Decidable (_ ≤ _))

structure Isolated (t t' : Pmlt 4) : Prop where
  translation : ∀ x, Upper x → virtToPhys t' x = virtToPhys t x
  user : ∀ x, Upper x → userWalk 4 t' x = userWalk 4 t x
  mapped : ∀ x phys, virtToPhys t x = .error (.unmapped x) → virtToPhys t' x = .ok phys → ¬ Upper x

def mappedRange (start stop : ℕ) : AddressRange :=
  let size := (stop + (2 ^ 64 - start)) % 2 ^ 64
  if size = 0 then ⟨start, start⟩
  else
    let virtStart := andNot start (pageSize - 1)
    ⟨virtStart, andNot ((virtStart + size + pageSize - 1) % 2 ^ 64) (pageSize - 1)⟩

def elementRange (pageSize base offset : ℕ) : AddressRange :=
  let start := (base + offset) % 2 ^ 64
  mappedRange start ((start + pageSize) % 2 ^ 64)

def createdRanges (vmo : Vmo) (base : ℕ) : List AddressRange :=
  match vmo.state with
  | .physical _ => [mappedRange base ((base + vmo.length) % 2 ^ 64)]
  | .sparse elements =>
    (committedOffsets (Pmm.pageSizes vmo.alignedToPageLevel) vmo.length elements).map
      (elementRange (Pmm.pageSizes vmo.alignedToPageLevel) base)

def LowerHalf (vmo : Vmo) (base : ℕ) : Prop :=
  ∀ r ∈ createdRanges vmo base, ∀ x, r.start ≤ x → x < r.stop → ¬ Upper x

structure MappedAll (t t' : Pmlt 4) (ranges : List AddressRange) : Prop where
  vacant : ∀ r ∈ ranges, ∀ x, r.start ≤ x → x < r.stop → virtToPhys t x = .error (.unmapped x)
  mapped : ∀ r ∈ ranges, ∀ x, r.start ≤ x → x < r.stop → ∃ phys, virtToPhys t' x = .ok phys
  kept : ∀ x phys, virtToPhys t x = .ok phys → virtToPhys t' x = .ok phys
  untouched : ∀ j, (∀ r ∈ ranges, ∀ x, r.start ≤ x → x < r.stop → tableIndex 4 x ≠ j) → t' j = t j

variable {v w : Space} {t t' u : Pmlt 4} {flags : Flags} {frames frames' : List ℕ}
  {ranges : List AddressRange}

theorem vmVirtToPhys_cases (I : ℕ) (t : Pmlt I) (x : ℕ) :
  (∃ ps, vmVirtToPhys I t x = .ok ps) ∨ vmVirtToPhys I t x = .error (.unmapped x) := by
  induction I with
  | zero => exact nomatch t
  | succ I ih =>
    rw [vmVirtToPhys_succ]
    cases t (tableIndex (I + 1) x) with
    | absent us => exact .inr rfl
    | page us a => exact .inl ⟨_, rfl⟩
    | table us a nx => exact ih nx

theorem MappedAll.nil (t : Pmlt 4) : MappedAll t t [] :=
  ⟨by simp, by simp, fun _ _ h ↦ h, fun _ _ ↦ rfl⟩

theorem MappedAll.cons {r : AddressRange} (h : MappedAll t u [r]) (h' : MappedAll u t' ranges) :
  MappedAll t t' (r :: ranges) := by
  have hr := mem_singleton_self r
  refine ⟨fun s hs x hx hx' ↦ ?_, fun s hs x hx hx' ↦ ?_, fun x ps hx ↦
    h'.kept x ps (h.kept x ps hx), fun j hj ↦ ?_⟩
  · rcases mem_cons.mp hs with rfl | hs
    · exact h.vacant s hr x hx hx'
    · refine (vmVirtToPhys_cases 4 t x).resolve_left ?_
      rintro ⟨ps, hp⟩
      cases (h.kept x ps hp).symm.trans (h'.vacant s hs x hx hx')
  · rcases mem_cons.mp hs with rfl | hs
    · obtain ⟨ps, hp⟩ := h.mapped s hr x hx hx'
      exact ⟨ps, h'.kept x ps hp⟩
    · exact h'.mapped s hs x hx hx'
  · rw [h'.untouched j fun s hs ↦ hj s (mem_cons_of_mem _ hs), h.untouched j fun s hs ↦ ?_]
    cases mem_singleton.mp hs
    exact hj r (mem_cons_self ..)

theorem MappedAll.isolated_iff (h : MappedAll t t' ranges) :
  Isolated t t' ↔ ∀ r ∈ ranges, ∀ x, r.start ≤ x → x < r.stop → ¬ Upper x := by
  constructor
  · intro hi r hr x hx hx' hu
    obtain ⟨ps, hp⟩ := h.mapped r hr x hx hx'
    cases hp.symm.trans ((hi.translation x hu).trans (h.vacant r hr x hx hx'))
  · intro hl
    have hs (x : ℕ) (hx : Upper x) : t' (tableIndex 4 x) = t (tableIndex 4 x) := by
      refine h.untouched _ fun r hr y hy hy' he ↦ hl r hr y hy hy' ?_
      rwa [Upper, he]
    have ht (x : ℕ) (hx : Upper x) : virtToPhys t' x = virtToPhys t x := by
      simp only [virtToPhys, vmVirtToPhys_succ, hs x hx]
    refine ⟨ht, fun x hx ↦ ?_, fun x ps hb ha hx ↦ ?_⟩
    · simp only [userWalk, hs x hx]
    · cases ha.symm.trans ((ht x hx).trans hb)

theorem mapPhysical_mappedAll {st e ph : ℕ}
  (h : Vm.mapPhysical t st e ph flags frames = .ok (t', frames')) :
  MappedAll t t' [mappedRange st e] := by
  rw [Vm.mapPhysical, mapRange] at h
  rw [mappedRange]
  split at h
  next hzero =>
    cases h
    simp only [hzero, if_true]
    refine ⟨fun r hr x hx hx' ↦ ?_, fun r hr x hx hx' ↦ ?_, fun _ _ hx ↦ hx, fun _ _ ↦ rfl⟩
    all_goals
      cases mem_singleton.mp hr
      exact absurd hx' (not_lt.mpr hx)
  next hsize =>
    simp only [hsize, if_false]
    have he (x m : ℕ) : andNot (x % 2 ^ 64) m < 2 ^ 64 :=
      Nat.and_le_left.trans_lt (Nat.mod_lt x (by decide))
    have hm := vmMap_mapped (by decide) (he _ _) h
    refine ⟨fun r hr ↦ ?_, fun r hr ↦ ?_, hm.kept, fun j hj ↦ ?_⟩
    · cases mem_singleton.mp hr
      exact hm.vacant
    · cases mem_singleton.mp hr
      exact hm.mapped
    · have hn := hj _ (mem_singleton_self _)
      rcases vmMap_effect (by decide) (he _ _) h j with ⟨heq, -⟩ |
        ⟨a, b, p, fs, fs', -, ha, hab, hb, hi, -⟩
      · exact heq
      · exact absurd hi (hn a ha (by simp only; omega))

theorem Space.mapPhysical_mappedAll {b e p : ℕ} (h : v.mapPhysical b e p flags = .ok w) :
  MappedAll v.asid w.asid [mappedRange b e] := by
  rw [Space.mapPhysical] at h
  obtain ⟨⟨a, xs⟩, hm, ho⟩ := bind_eq_ok h
  cases ho
  cases hvm : Vm.mapPhysical v.asid b e p flags v.frames with
  | error f =>
    rw [hvm] at hm
    cases hm
  | ok re =>
    rw [hvm] at hm
    cases hm
    exact Vas.mapPhysical_mappedAll hvm

theorem mapElements_mappedAll {b p : ℕ} (es : List SparseElement)
  (h : Space.mapElements b p flags es v = .ok w) : MappedAll v.asid w.asid
  ((es.map SparseElement.offset).map (elementRange p b)) := by
  induction es generalizing v with
  | nil =>
    cases h
    exact .nil _
  | cons e es ih =>
    rw [Space.mapElements] at h
    split at h
    next => cases h
    next backing hbacking =>
      obtain ⟨u, hu, hr⟩ := bind_eq_ok h
      exact (Space.mapPhysical_mappedAll hu).cons (ih hr)

theorem insert_asid {m : Mapping} (h : v.insert m = .ok w) : w.asid = v.asid := by
  rw [Space.insert] at h
  obtain ⟨⟨ms, id⟩, -, ho⟩ := bind_eq_ok h
  cases ho
  rfl

theorem mapVmo_mapPages {vm : Vmo} {b id : ℕ} (h : v.mapVmo vm b flags = .ok (id, w)) :
  ∃ u u' : Space, u.asid = v.asid ∧ w.asid = u'.asid ∧
  u.mapPages vm b (Pmm.pageSizes vm.alignedToPageLevel) flags = .ok u' := by
  rw [Space.mapVmo] at h
  split at h
  next => cases h
  next =>
    simp only at h
    split at h
    next => cases h
    next =>
      obtain ⟨u, hu, h⟩ := bind_eq_ok h
      obtain ⟨u', hu', ho⟩ := bind_eq_ok h
      cases ho
      exact ⟨u, u', insert_asid hu, rfl, hu'⟩

theorem mappedAll_of_handler {vm : Vmo} {a fs id : ℕ}
  (h : v.roseMappingCreateHandler vm frames a fs = .ok (id, w)) :
  MappedAll v.asid w.asid (createdRanges vm a) := by
  rw [Space.roseMappingCreateHandler] at h
  split at h
  next => cases h
  next =>
    obtain ⟨c, hc, h⟩ := bind_eq_ok h
    split at h
    next mapping hm =>
      cases h
      obtain ⟨u, u', ha, ha', hp⟩ := mapVmo_mapPages hm
      rw [← ha, ha']
      rw [Vmo.commitAll] at hc
      rw [createdRanges]
      cases hs : vm.state with
      | physical base =>
        simp only [hs] at hc ⊢
        cases hc
        rw [Space.mapPages, hs] at hp
        exact Space.mapPhysical_mappedAll hp
      | sparse es =>
        simp only [hs] at hc ⊢
        obtain ⟨⟨f, xs⟩, hf, ho⟩ := bind_eq_ok hc
        cases ho
        rw [Space.mapPages] at hp
        rw [← commitElements_offsets es hf]
        exact mapElements_mappedAll f hp
    next => cases h

theorem isolated_iff_lowerHalf (v w : Space) (vmo : Vmo) (frames : List ℕ) (address flagBits id : ℕ)
    (h : v.roseMappingCreateHandler vmo frames address flagBits = .ok (id, w)) :
    Isolated v.asid w.asid ↔ LowerHalf vmo address :=
  (mappedAll_of_handler h).isolated_iff

def clonedSpace : Space :=
  match cloneUpperHalf (fun _ ↦ .absent false) (List.range 260) with
  | .ok (_, asid, frames) => { asid, frames }
  | .error _ => { asid := fun _ ↦ .absent false, frames := [] }

def onePageVmo : Vmo where
  state := .physical 0x1000
  length := 0x1000
  alignedToPageLevel := ⟨0, Nat.succ_pos _⟩

theorem exists_of_isOk {ε α : Type} {x : Except ε α} (h : x.isOk = true) : ∃ a, x = .ok a := by
  cases x with
  | error e => cases h
  | ok a => exact ⟨a, rfl⟩

theorem isolated_lower_page :
  ∃ id w, clonedSpace.roseMappingCreateHandler onePageVmo [] 0x400000 0 = .ok (id, w) ∧
  Isolated clonedSpace.asid w.asid := by
  obtain ⟨⟨id, w⟩, h⟩ := exists_of_isOk
    (x := clonedSpace.roseMappingCreateHandler onePageVmo [] 0x400000 0) (by decide +kernel)
  refine ⟨id, w, h, (isolated_iff_lowerHalf _ _ _ _ _ _ _ h).mpr fun r hr x hx hx' ↦ ?_⟩
  rw [show createdRanges onePageVmo 0x400000 = [⟨0x400000, 0x401000⟩] by decide] at hr
  cases mem_singleton.mp hr
  rw [Upper, tableIndex_val, entrySize_eq]
  simp only at hx hx'
  omega

theorem not_isolated_kernel_page :
    ∃ id w, clonedSpace.roseMappingCreateHandler onePageVmo [] 0xffffffff80000000 0 = .ok (id, w) ∧
      ¬ Isolated clonedSpace.asid w.asid := by
  obtain ⟨⟨id, w⟩, h⟩ := exists_of_isOk
    (x := clonedSpace.roseMappingCreateHandler onePageVmo [] 0xffffffff80000000 0)
    (by decide +kernel)
  refine ⟨id, w, h, fun hi ↦ ?_⟩
  have hr : (⟨0xffffffff80000000, 0xffffffff80001000⟩ : AddressRange) ∈
      createdRanges onePageVmo 0xffffffff80000000 := by decide
  exact (mappedAll_of_handler h).isolated_iff.mp hi _ hr 0xffffffff80000000 le_rfl (by decide)
    (by decide)

end Mappings

section Bookkeeping

open List Function Foundation Fallible Runs SearchTree
open Kernel.AvlTree (Balanced)
open Kernel.Vm (Flags)

variable {v w : Space} {vmo : Vmo} {base : ℕ} {flags : Flags} {id : ℕ}

def SameMappings (v w : Space) : Prop :=
  w.mappings = v.mappings ∧ w.objects = v.objects ∧ w.created = v.created

theorem SameMappings.trans {u : Space} (h : SameMappings v w) (h' : SameMappings w u) :
  SameMappings v u :=
  ⟨h'.1.trans h.1, h'.2.1.trans h.2.1, h'.2.2.trans h.2.2⟩

theorem sameMappings_mapPhysical {b e p : ℕ}
  (h : v.mapPhysical b e p flags = .ok w) : SameMappings v w := by
  obtain ⟨⟨a, frames⟩, -, h⟩ := bind_eq_ok h
  cases h
  exact ⟨rfl, rfl, rfl⟩

theorem sameMappings_mapElements {p : ℕ} (es : List SparseElement)
  (h : Space.mapElements base p flags es v = .ok w) : SameMappings v w := by
  induction es generalizing v with
  | nil =>
    cases h
    exact ⟨rfl, rfl, rfl⟩
  | cons e es ih =>
    rw [Space.mapElements] at h
    split at h
    next => cases h
    next =>
      obtain ⟨u, hu, h⟩ := bind_eq_ok h
      exact (sameMappings_mapPhysical hu).trans (ih h)

theorem sameMappings_mapPages {p : ℕ} (h : v.mapPages vmo base p flags = .ok w) :
  SameMappings v w := by
  rw [Space.mapPages] at h
  split at h
  next => exact sameMappings_mapPhysical h
  next elements _ => exact sameMappings_mapElements elements h

def requested (vmo : Vmo) (base : ℕ) : AddressRange := ⟨base, (base + vmo.length) % 2 ^ 64⟩

theorem mapVmo_eq_ok (h : v.mapVmo vmo base flags = .ok (id, w)) :
  id = v.created ∧ v.find (requested vmo base) = none ∧
  ∃ u, v.insert { range := requested vmo base, mappingFlags := flags } = .ok u ∧
  SameMappings u w := by
  simp only [Space.mapVmo] at h
  split at h
  next => cases h
  next =>
    split at h
    next => cases h
    next hf =>
      obtain ⟨u, hu, h⟩ := bind_eq_ok h
      obtain ⟨x, hx, h⟩ := bind_eq_ok h
      cases h
      exact ⟨rfl, hf, u, hu, (sameMappings_mapPages hx).trans ⟨rfl, rfl, rfl⟩⟩

structure Held (v : Space) : Prop where
  balanced : Balanced v.mappings
  perm : v.mappings.toList.Perm (List.range v.created)

theorem Held.mem_iff (h : Held v) : id ∈ v.mappings.toList ↔ id < v.created := by
  rw [h.perm.mem_iff, mem_range]

theorem held_empty (asid : Paging.Pmlt 4) (frames : List ℕ) : Held { asid, frames } :=
  ⟨trivial, List.Perm.refl _⟩

def Space.turn (v : Space) (r : AddressRange) (id : ℕ) : Ordering :=
  AvlTree.way (fun id ↦ addressCompare r (v.range id)) (fun id ↦ addressCompare (v.range id) r) id

theorem insert_held (h : Held v) {m : Mapping} (hf : v.find m.range = none) :
  ∃ w, v.insert m = .ok w ∧ Held w ∧
  w.objects = update v.objects v.created m ∧ w.created = v.created + 1 ∧
  ∃ as bs, v.mappings.toList = as ++ bs ∧ w.mappings.toList = as ++ v.created :: bs ∧
  (Directed (v.turn m.range) v.mappings.toList →
  (∀ a ∈ as, v.turn m.range a = .gt) ∧ ∀ b ∈ bs, v.turn m.range b = .lt) := by
  let objects := update v.objects v.created m
  let comp : ℕ → ℕ → Bool := fun i j ↦ addressCompare (objects i).range (objects j).range
  have ht (a : ℕ) (ha : a ∈ v.mappings.toList) :
    v.turn m.range a = AvlTree.way (comp v.created) (comp · v.created) a := by
    have hne : a ≠ v.created := (h.mem_iff.mp ha).ne
    simp only [Space.turn, AvlTree.way, comp, objects, update_self, update_of_ne hne, Space.range]
    rfl
  have hn : AvlTree.find (comp v.created) (comp · v.created) v.mappings = none :=
    (search_congr ht).symm.trans hf
  obtain ⟨t, p, hi, hba, hv, ho, hnw⟩ := AvlTree.insert_spec comp v.created h.balanced hn
  refine ⟨{ v with mappings := t, objects, created := v.created + 1 }, ?_, ⟨hba, ?_⟩, rfl,
    rfl, before p, after p, ho, hnw, fun hd ↦ ?_⟩
  · rw [Space.insert, hi]
    rfl
  · rw [hnw, range_succ]
    exact perm_middle.trans ((h.perm.symm.trans (.of_eq ho)).symm.cons _ |>.trans
      (perm_append_singleton _ _).symm)
  · have hp : ∀ a ∈ before p ++ after p, v.turn m.range a =
      AvlTree.way (comp v.created) (comp · v.created) a := ho ▸ ht
    obtain ⟨hbe, haf⟩ := vacancy_divides (hd.congr ht) hv
      (fun a ha ↦ absurd ha not_mem_nil) (fun a ha ↦ absurd ha not_mem_nil)
    exact ⟨fun a ha ↦ (hp a (mem_append_left _ ha)).trans (hbe a ha),
      fun b hb ↦ (hp b (mem_append_right _ hb)).trans (haf b hb)⟩

variable {r : AddressRange}

theorem find_eq_some (h : Held v) (hf : v.find r = some id) :
  id < v.created ∧ v.turn r id = .eq := by
  obtain ⟨hm, ht⟩ := search_eq_some hf
  exact ⟨h.mem_iff.mp hm, ht⟩

theorem turn_eq_lt : v.turn r id = .lt ↔ r.stop ≤ (v.range id).start := by
  simp only [Space.turn, AvlTree.way, addressCompare, decide_eq_true_eq]
  split_ifs <;> simp_all

theorem turn_eq_gt :
  v.turn r id = .gt ↔ (v.range id).start < r.stop ∧ (v.range id).stop ≤ r.start := by
  simp only [Space.turn, AvlTree.way, addressCompare, decide_eq_true_eq]
  split_ifs <;> simp_all

theorem turn_eq_eq :
  v.turn r id = .eq ↔ (v.range id).start < r.stop ∧ r.start < (v.range id).stop := by
  simp only [Space.turn, AvlTree.way, addressCompare, decide_eq_true_eq]
  split_ifs <;> simp_all

def Overlaps (r s : AddressRange) : Prop := max r.start s.start < min r.stop s.stop

instance (r s : AddressRange) : Decidable (Overlaps r s) :=
  inferInstanceAs (Decidable (_ < _))

structure Ordered (v : Space) : Prop extends Held v where
  sorted : v.mappings.toList.Pairwise fun a b ↦ (v.range a).stop ≤ (v.range b).start
  live : ∀ id, v.Live id → (v.range id).start < (v.range id).stop ∧ (v.range id).stop < 2 ^ 64
  released : ∀ id < v.created, ¬ v.Live id → v.range id = ⟨0, 0⟩

theorem ordered_empty (asid : Paging.Pmlt 4) (frames : List ℕ) : Ordered { asid, frames } where
  toHeld := held_empty asid frames
  sorted := List.Pairwise.nil
  live _ h := absurd h.1 (Nat.not_lt_zero _)
  released _ h := absurd h (Nat.not_lt_zero _)

theorem Ordered.start_le_stop (h : Ordered v) (hi : id < v.created) :
  (v.range id).start ≤ (v.range id).stop := by
  rcases Decidable.em (v.Live id) with hl | hl
  · exact (h.live id hl).1.le
  · rw [h.released id hi hl]

theorem Ordered.directed (h : Ordered v) (r : AddressRange) :
  Directed (v.turn r) v.mappings.toList := by
  refine h.sorted.imp_of_mem fun {a b} ha hb hab ↦ ?_
  have hle := h.start_le_stop (h.mem_iff.mp ha)
  have hle' := h.start_le_stop (h.mem_iff.mp hb)
  rw [turn_eq_lt, turn_eq_lt, turn_eq_gt, turn_eq_gt]
  omega

theorem Ordered.live_of_find (h : Ordered v) (hf : v.find r = some id) : v.Live id := by
  obtain ⟨hid, ht⟩ := find_eq_some h.toHeld hf
  by_contra hl
  have hs := (turn_eq_eq.mp ht).2
  rw [h.released id hid hl] at hs
  exact Nat.not_lt_zero _ hs

theorem Ordered.find_overlap (h : Ordered v) (hl : v.Live id) (ho : Overlaps (v.range id) r) :
  ∃ id', v.find r = some id' ∧ v.Live id' ∧ Overlaps (v.range id') r := by
  have ht : v.turn r id = .eq := by
    rw [turn_eq_eq]
    simp only [Overlaps] at ho
    omega
  obtain ⟨id', hf⟩ := search_isSome (h.directed r) ⟨id, h.mem_iff.mpr hl.1, ht⟩
  have hl' := h.live_of_find hf
  have hr := (h.live id' hl').1
  have ht' := turn_eq_eq.mp (find_eq_some h.toHeld hf).2
  refine ⟨id', hf, hl', ?_⟩
  simp only [Overlaps] at ho ⊢
  omega

end Bookkeeping

section Runs

open Function List Foundation Fallible Runs
open Kernel.Vm (Flags)

variable {v w : Space} {vmo : Vmo} {base : ℕ} {flags : Flags} {id : ℕ} {op : Op}

theorem SameMappings.held (h : SameMappings v w) (hv : Held v) : Held w := by
  obtain ⟨hm, -, hc⟩ := h
  exact ⟨hm ▸ hv.balanced, hm ▸ hc ▸ hv.perm⟩

theorem mapVmo_held (hv : Held v) (h : v.mapVmo vmo base flags = .ok (id, w)) :
  Held w ∧ w.objects = update v.objects v.created
  { range := requested vmo base, mappingFlags := flags } ∧ w.created = v.created + 1 ∧
  ∃ as bs, v.mappings.toList = as ++ bs ∧ w.mappings.toList = as ++ v.created :: bs ∧
  (Foundation.SearchTree.Directed (v.turn (requested vmo base)) v.mappings.toList →
  (∀ a ∈ as, v.turn (requested vmo base) a = .gt) ∧
  ∀ b ∈ bs, v.turn (requested vmo base) b = .lt) := by
  obtain ⟨-, hf, u, hu, hs⟩ := mapVmo_eq_ok h
  obtain ⟨u', hu', hh, ho, hc, as, bs, hl, hn, hd⟩ :=
    @insert_held v hv { range := requested vmo base, mappingFlags := flags } hf
  cases hu.symm.trans hu'
  refine ⟨hs.held hh, hs.2.1.trans ho, hs.2.2.trans hc, as, bs, hl, ?_, hd⟩
  rw [hs.1, hn]

/-- A mapping is made for a non-empty range below the top of the address space, and only the lowest
live one is unmapped. -/
def Lowest (v : Space) : Op → Prop
  | .map vmo base _ => 0 < vmo.length ∧ base + vmo.length < 2 ^ 64
  | .unmap id => ∀ other, v.Live other → other ≠ id →
      (v.range id).stop ≤ (v.range other).start

theorem ordered_mapVmo (hv : Ordered v) (hp : Lowest v (.map vmo base flags))
  (h : v.mapVmo vmo base flags = .ok (id, w)) : Ordered w := by
  obtain ⟨hle, hbo⟩ := hp
  obtain ⟨hh, ho, hc, as, bs, hol, hn, hd⟩ := mapVmo_held hv.toHeld h
  have hst : (requested vmo base).stop = base + vmo.length := Nat.mod_eq_of_lt hbo
  have hs : w.range v.created = requested vmo base := by
    rw [Space.range, ho, update_self]
  have hot (a : ℕ) (ha : a < v.created) : w.objects a = v.objects a := by
    rw [ho, update_of_ne ha.ne]
  have hr (a : ℕ) (ha : a < v.created) : w.range a = v.range a := congrArg Mapping.range (hot a ha)
  refine ⟨hh, ?_, fun a ha ↦ ?_, fun a ha hl ↦ ?_⟩
  · obtain ⟨hbe, hf⟩ := hd (hv.directed _)
    have hm (a : ℕ) (ha : a ∈ as ++ bs) : a < v.created := hv.mem_iff.mp (hol ▸ ha)
    have hso : (as ++ bs).Pairwise fun a b ↦ (w.range a).stop ≤ (w.range b).start := by
      rw [← hol]
      refine hv.sorted.imp_of_mem fun {a b} ha hb hab ↦ ?_
      rwa [hr a (hv.mem_iff.mp ha), hr b (hv.mem_iff.mp hb)]
    obtain ⟨has, hbs, hcr⟩ := pairwise_append.mp hso
    rw [hn, pairwise_append, pairwise_cons]
    refine ⟨has, ⟨fun b hb ↦ ?_, hbs⟩, fun a ha b hb ↦ ?_⟩
    · rw [hs, hr b (hm b (mem_append_right _ hb))]
      exact turn_eq_lt.mp (hf b hb)
    · rcases mem_cons.mp hb with rfl | hb
      · rw [hs, hr a (hm a (mem_append_left _ ha))]
        exact (turn_eq_gt.mp (hbe a ha)).2
      · exact hcr a ha b hb
  · rcases Nat.lt_succ_iff_lt_or_eq.mp (hc ▸ ha.1) with hlt | rfl
    · rw [hr a hlt]
      exact hv.live a ⟨hlt, hot a hlt ▸ ha.2⟩
    · rw [hs, hst]
      exact ⟨Nat.lt_add_of_pos_right hle, hbo⟩
  · rcases Nat.lt_succ_iff_lt_or_eq.mp (hc ▸ ha) with hlt | rfl
    · rw [hr a hlt]
      exact hv.released a hlt fun h ↦ hl ⟨ha, (hot a hlt).symm ▸ h.2⟩
    · exact absurd ⟨ha, by rw [ho, update_self]⟩ hl

theorem unmap_eq_ok (h : v.unmap id = .ok w) : w.mappings = v.mappings ∧ w.created = v.created ∧
  w.objects = update v.objects id { v.objects id with range := ⟨0, 0⟩, valid := false } := by
  obtain ⟨⟨a, o⟩, -, h⟩ := bind_eq_ok h
  cases h
  exact ⟨rfl, rfl, rfl⟩

theorem ordered_unmap (hv : Ordered v) (hl : v.Live id) (hop : Lowest v (.unmap id))
  (h : v.unmap id = .ok w) : Ordered w := by
  obtain ⟨hm, hc, ho⟩ := unmap_eq_ok h
  have hs : w.range id = ⟨0, 0⟩ := by rw [Space.range, ho, update_self]
  have hot (a : ℕ) (ha : a ≠ id) : w.objects a = v.objects a := by
    rw [ho, update_of_ne ha]
  have hr (a : ℕ) (ha : a ≠ id) : w.range a = v.range a := congrArg Mapping.range (hot a ha)
  have hd : ¬ w.Live id := by
    rintro ⟨-, hva⟩
    rw [ho, update_self] at hva
    cases hva
  have hl' (a : ℕ) (ha : a ≠ id) : w.Live a ↔ v.Live a := by
    rw [Space.Live, Space.Live, hc, hot a ha]
  refine ⟨⟨?_, ?_⟩, ?_, fun a ha ↦ ?_, fun a ha hd' ↦ ?_⟩
  · rw [hm]
    exact hv.balanced
  · rw [hm, hc]
    exact hv.perm
  · rw [hm]
    refine hv.sorted.imp_of_mem fun {a b} ha hb hab ↦ ?_
    rcases eq_or_ne a id with rfl | hne
    · rw [hs]
      exact Nat.zero_le _
    · rw [hr a hne]
      rcases eq_or_ne b id with rfl | hne'
      · -- Everything before the lowest live mapping has been released.
        rw [hs]
        rcases Decidable.em (v.Live a) with hlo | hlo
        · have := hop a hlo hne
          have := (hv.live a hlo).1
          have := (hv.live b hl).1
          omega
        · rw [hv.released a (hv.mem_iff.mp ha) hlo]
      · rwa [hr b hne']
  · have hne : a ≠ id := fun h ↦ hd (h ▸ ha)
    rw [hr a hne]
    exact hv.live a ((hl' a hne).mp ha)
  · rcases eq_or_ne a id with rfl | hne
    · exact hs
    · rw [hr a hne]
      exact hv.released a (hc ▸ ha) fun h ↦ hd' ((hl' a hne).mpr h)

theorem ordered_step (hv : Ordered v) (ho : Lowest v op) (h : step v op = some w) : Ordered w := by
  cases op with
  | map vmo base flags =>
    rw [step] at h
    split at h
    next id u hmap =>
      cases h
      exact ordered_mapVmo hv ho hmap
    next => cases h
  | unmap id =>
    rw [step] at h
    split at h
    next hlive =>
      split at h
      next hunmap =>
        cases h
        exact ordered_unmap hv hlive ho hunmap
      next => cases h
    next => cases h

theorem ordered_reachable {u : Space} (hu : Ordered u) (h : Reachable step Lowest u v) :
  Ordered v :=
  h.invariant hu fun _ _ _ hi ho hs ↦ ordered_step hi ho hs

/-- `find` returns an overlapping live mapping when there is one, and `lock_address_range` locks one
unless it may not be written. -/
structure Bookkept (v : Space) : Prop where
  find : ∀ r, (∃ id, v.find r = some id ∧ v.Live id ∧ Overlaps (v.range id) r) ↔
    ∃ id, v.Live id ∧ Overlaps (v.range id) r
  lock : ∀ start stop rw, (∃ id, v.Live id ∧ Overlaps (v.range id) ⟨start, stop⟩) →
    ∃ id, v.Live id ∧ Overlaps (v.range id) ⟨start, stop⟩ ∧
      (v.lockAddressRange start stop rw = some id ∨
        rw = true ∧ (v.objects id).mappingFlags.readOnly = true)

theorem Ordered.bookkept (h : Ordered v) : Bookkept v := by
  refine ⟨fun r ↦ ⟨fun ⟨id, _, hid⟩ ↦ ⟨id, hid⟩, fun ⟨id, hl, ho⟩ ↦ h.find_overlap hl ho⟩, ?_⟩
  rintro start stop rw ⟨id, hl, ho⟩
  obtain ⟨id', hf, hid'⟩ := h.find_overlap hl ho
  refine ⟨id', hid'.1, hid'.2, ?_⟩
  rw [Space.lockAddressRange, hf]
  cases rw with
  | false => exact .inl rfl
  | true =>
    cases hro : (v.objects id').mappingFlags.readOnly with
    | false => exact .inl (by simp [hro])
    | true => exact .inr ⟨rfl, rfl⟩

theorem bookkept_of_lowest (asid : Paging.Pmlt 4) (frames : List ℕ) (v : Space)
    (h : Reachable step Lowest { asid, frames } v) :
    Bookkept v ∧ ∀ vmo base flags id w, Lowest v (.map vmo base flags) →
      v.mapVmo vmo base flags = .ok (id, w) →
      ∀ other, v.Live other → ¬ Overlaps (v.range other) ⟨base, base + vmo.length⟩ := by
  have hv := ordered_reachable (ordered_empty asid frames) h
  refine ⟨hv.bookkept, fun vmo base flags id w hop hm other hot ho ↦ ?_⟩
  obtain ⟨-, hf, -⟩ := mapVmo_eq_ok hm
  rw [requested, Nat.mod_eq_of_lt hop.2] at hf
  obtain ⟨id', hf', -⟩ := hv.find_overlap hot ho
  cases hf.symm.trans hf'

def fresh : Space where
  asid := fun _ ↦ .absent false
  frames := [0x10000, 0x11000, 0x12000]

def onePage : Vmo := ⟨.physical 0, 0x1000, ⟨0, by decide⟩, false⟩

theorem bookkept_unmapped : ∃ v, exec step fresh
  [.map onePage 0x1000 {}, .map onePage 0x2000 {}, .unmap 0] = some v ∧ v.Live 1 ∧
  ¬ v.Live 0 ∧ Bookkept v := by
  have hru : (exec step fresh ([.map onePage 0x1000 {}, .map onePage 0x2000 {}] ++
    .unmap 0 :: [])).any (fun v ↦ v.Live 1 ∧ ¬ v.Live 0) = true := by decide
  have hlo : (exec step fresh [.map onePage 0x1000 {}, .map onePage 0x2000 {}]).all (fun u ↦
    u.created = 2 ∧ (u.range 0).stop ≤ (u.range 1).start) = true := by decide
  obtain ⟨v, he, hv⟩ := (Option.any_eq_true _ _).mp hru
  have ha : ∀ u, exec step fresh [.map onePage 0x1000 {}, .map onePage 0x2000 {}] = some u →
    Lowest u (.unmap 0) := by
    intro u hu y hl hne
    rw [hu] at hlo
    obtain ⟨hc, h⟩ := of_decide_eq_true hlo
    obtain rfl : y = 1 := by
      have := hl.1
      omega
    exact h
  have hr : Reachable step Lowest fresh v :=
    Reachable.of_exec_split (by simp [Lowest, onePage]) ha (by simp) he
  obtain ⟨hl, hd⟩ := of_decide_eq_true hv
  exact ⟨v, he, hl, hd, (bookkept_of_lowest _ _ v hr).1⟩

theorem bookkept_fails :
    ¬ ∀ asid frames v, Reachable step Unrestricted { asid, frames } v → Bookkept v := by
  intro h
  have hr : (exec step fresh
    [.map onePage 0x2000 {}, .map onePage 0x1000 {}, .unmap 0]).any (fun v ↦
    v.find ⟨0x1000, 0x2000⟩ = none ∧ v.Live 1 ∧ Overlaps (v.range 1) ⟨0x1000, 0x2000⟩) := by
    decide
  obtain ⟨v, hv, hl⟩ := Reachable.of_any hr
  obtain ⟨hn, hli⟩ := of_decide_eq_true hl
  obtain ⟨id, hf, -⟩ := ((h _ _ v hv).find ⟨0x1000, 0x2000⟩).mpr ⟨1, hli⟩
  cases hn.symm.trans hf

end Runs

open Function Foundation Runs SearchTree

def MapsOnly (_ : Space) : Op → Prop
  | .map _ _ _ => True
  | .unmap _ => False

def ProperMaps (_ : Space) : Op → Prop
  | .map vmo base _ => 0 < vmo.length ∧ base + vmo.length < 2 ^ 64
  | .unmap _ => False

variable {v w : Space} {id : ℕ} {op : Op}

structure AllLive (v : Space) : Prop extends Held v where
  live : ∀ id < v.created, v.Live id

theorem allLive_step (hv : AllLive v) (hp : MapsOnly v op) (h : step v op = some w) :
  AllLive w := by
  cases op with
  | unmap id => cases hp
  | map vmo base flags =>
    rw [step] at h
    split at h
    next id u hm =>
      cases h
      obtain ⟨hh, ho, hc, -⟩ := mapVmo_held hv.toHeld hm
      refine ⟨hh, fun a ha ↦ ⟨ha, ?_⟩⟩
      rcases Nat.lt_succ_iff_lt_or_eq.mp (hc ▸ ha) with hlt | rfl
      · rw [ho, update_of_ne hlt.ne]
        exact (hv.live a hlt).2
      · rw [ho, update_self]
    next => cases h

theorem allLive_reachable {u : Space} (hu : AllLive u) (h : Reachable step MapsOnly u v) :
  AllLive v :=
  h.invariant hu fun _ _ _ hi ho hs ↦ allLive_step hi ho hs

theorem ordered_of_properMaps {u : Space} (hu : Ordered u) (h : Reachable step ProperMaps u v) :
  Ordered v := by
  refine h.invariant hu fun x op y hi ho hs ↦ ordered_step hi ?_ hs
  cases op with
  | map vmo base flags => exact ho
  | unmap id => cases ho

def Space.Beside (v : Space) (a b : ℕ) : Prop :=
  (v.range a).stop ≤ (v.range b).start ∨ (v.range b).stop ≤ (v.range a).start

instance (v : Space) : Std.Symm v.Beside := ⟨fun _ _ ↦ Or.symm⟩

theorem Ordered.eq_of_overlaps (h : Ordered v) {a b : ℕ} (ha : v.Live a) (hb : v.Live b)
  (ho : Overlaps (v.range a) (v.range b)) : a = b := by
  by_contra hne
  have hbe : v.mappings.toList.Pairwise v.Beside := h.sorted.imp Or.inl
  have hap := hbe.forall (h.mem_iff.mpr ha.1) (h.mem_iff.mpr hb.1) hne
  simp only [Overlaps, Space.Beside] at ho hap
  omega

def Covers (r : AddressRange) (start stop : ℕ) : Prop :=
  ∀ a, start ≤ a → a < stop → r.start ≤ a ∧ a < r.stop

def Guards (v : Space) (lock : Option ℕ) (start stop : ℕ) (rw : Bool) : Prop :=
  lock.isSome → ∃ id, v.Live id ∧ Covers (v.range id) start stop ∧
    (rw = true → (v.objects id).mappingFlags.readOnly = false)

def NoStraddle (v : Space) (start stop : ℕ) : Prop :=
  ∀ id, v.Live id → (v.range id).start < stop % 2 ^ 64 → start < (v.range id).stop →
    Covers (v.range id) start stop

variable {start stop : ℕ}

theorem lockAddressRange_eq_some {rw : Bool} (h : v.lockAddressRange start stop rw = some id) :
  v.find ⟨start, stop⟩ = some id ∧ (rw = true → (v.objects id).mappingFlags.readOnly = false) := by
  rw [Space.lockAddressRange] at h
  split at h
  next => cases h
  next id' hf =>
    split at h
    next => cases h
    next hflags =>
      cases h
      refine ⟨hf, ?_⟩
      rintro rfl
      simpa using hflags

theorem guards_of_noStraddle (hv : AllLive v) (h : NoStraddle v start stop) (rw : Bool) :
  Guards v (v.lockAddressRange start (stop % 2 ^ 64) rw) start stop rw := by
  intro hs
  obtain ⟨id, hl⟩ := Option.isSome_iff_exists.mp hs
  obtain ⟨hfi, hf⟩ := lockAddressRange_eq_some hl
  obtain ⟨hi, ht⟩ := find_eq_some hv.toHeld hfi
  obtain ⟨hlo, hh⟩ := turn_eq_eq.mp ht
  exact ⟨id, hv.live id hi, h id (hv.live id hi) hlo hh, hf⟩

theorem noStraddle_of_guards (hv : Ordered v)
  (h : Guards v (v.lockAddressRange start (stop % 2 ^ 64) false) start stop false) :
  NoStraddle v start stop := by
  intro id hl hlw hh a ha hs
  have ht : v.turn ⟨start, stop % 2 ^ 64⟩ id = .eq := turn_eq_eq.mpr ⟨hlw, hh⟩
  obtain ⟨found, hf⟩ := search_isSome (hv.directed _) ⟨id, hv.mem_iff.mpr hl.1, ht⟩
  have hlo : v.lockAddressRange start (stop % 2 ^ 64) false = some found := by
    rw [Space.lockAddressRange, show v.find _ = some found from hf]
    rfl
  obtain ⟨id', hl', hc, -⟩ := h (by rw [hlo]; rfl)
  have hfi := hc start le_rfl (by omega)
  have hla := hc (stop - 1) (by omega) (by omega)
  have hto := (hv.live id' hl').2
  have hr := (hv.live id hl).1
  -- The guarded bytes end below the top, so the wrapped end is the real one.
  have hw : stop % 2 ^ 64 = stop := Nat.mod_eq_of_lt (by omega)
  have hsa : id = id' := by
    apply hv.eq_of_overlaps hl hl'
    simp only [Overlaps]
    omega
  rw [hsa]
  exact hc a ha hs

theorem user_pointers_guarded_iff (asid : Paging.Pmlt 4) (frames : List ℕ) (v : Space)
    (h : Reachable step MapsOnly { asid, frames } v) (start stop : ℕ) :
    (NoStraddle v start stop → ∀ rw,
      Guards v (v.lockAddressRange start (stop % 2 ^ 64) rw) start stop rw ∧
      ∀ size count, stop = start + count * size →
        Guards v (v.lockArrayMapping size start count rw) start stop rw) ∧
    (Reachable step ProperMaps { asid, frames } v →
      ((∀ rw, Guards v (v.lockAddressRange start (stop % 2 ^ 64) rw) start stop rw) ↔
        NoStraddle v start stop)) := by
  have hv : AllLive v := allLive_reachable
    ⟨held_empty asid frames, fun _ h ↦ absurd h (Nat.not_lt_zero _)⟩ h
  refine ⟨fun hs rw ↦ ⟨guards_of_noStraddle hv hs rw, ?_⟩, fun hp ↦ ?_⟩
  · rintro size count rfl
    exact guards_of_noStraddle hv hs rw
  · refine ⟨fun hg ↦ ?_, guards_of_noStraddle hv⟩
    exact noStraddle_of_guards (ordered_of_properMaps (ordered_empty asid frames) hp) (hg false)

theorem noStraddle_of_single {r : AddressRange} (hc : v.created = 1) (hr : v.range 0 = r)
  (h : Covers r start stop) : NoStraddle v start stop := by
  intro id hl _ _
  obtain rfl : id = 0 := Nat.lt_one_iff.mp (hc ▸ hl.1)
  rwa [hr]

theorem user_pointers_guarded_onePage : ∃ v, step fresh (.map onePage 0x2000 {}) = some v ∧
  ∀ rw, Guards v (v.lockArrayMapping 8 0x2010 1 rw) 0x2010 0x2018 rw := by
  have hru : (step fresh (.map onePage 0x2000 {})).any fun v ↦
    v.created = 1 ∧ v.range 0 = ⟨0x2000, 0x3000⟩ := by
    decide
  obtain ⟨v, hst, hc, hr⟩ : ∃ v, step fresh (.map onePage 0x2000 {}) = some v ∧
    v.created = 1 ∧ v.range 0 = ⟨0x2000, 0x3000⟩ := by
    simpa [Option.any_eq_true] using hru
  have hre : Reachable step MapsOnly fresh v :=
    Reachable.head (.map onePage 0x2000 {}) trivial hst (Reachable.refl ..)
  have hs : NoStraddle v 0x2010 0x2018 := noStraddle_of_single hc hr fun a ha h ↦
    ⟨ha.trans' (by decide), h.trans (by decide)⟩
  exact ⟨v, hst, fun rw ↦ (((user_pointers_guarded_iff _ _ v hre 0x2010 0x2018).1 hs) rw).2 8 1 rfl⟩

theorem user_pointers_not_guarded :
    ¬ ∀ asid frames v, Reachable step MapsOnly { asid, frames } v → ∀ size ptr rw,
      Guards v (v.lockArrayMapping size ptr 1 rw) ptr (ptr + size) rw := by
  intro h
  have hru : (step fresh (.map onePage 0x1000 {})).any fun v ↦
    v.created = 1 ∧ v.range 0 = ⟨0x1000, 0x2000⟩ ∧
    (v.lockArrayMapping 16 0x1ff8 1 false).isSome = true := by
    decide
  obtain ⟨v, hs, hc, hr, hl⟩ : ∃ v, step fresh (.map onePage 0x1000 {}) = some v ∧ v.created = 1 ∧
    v.range 0 = ⟨0x1000, 0x2000⟩ ∧ (v.lockArrayMapping 16 0x1ff8 1 false).isSome = true := by
    simpa [Option.any_eq_true] using hru
  have hre : Reachable step MapsOnly fresh v :=
    Reachable.head (.map onePage 0x1000 {}) trivial hs (Reachable.refl ..)
  obtain ⟨id, hli, hco, -⟩ := h _ _ v hre 16 0x1ff8 false hl
  obtain rfl : id = 0 := Nat.lt_one_iff.mp (hc ▸ hli.1)
  have hb := (hco 0x2000 (by decide) (by decide)).2
  rw [hr] at hb
  exact lt_irrefl _ hb

end ReaverOS.Kernel.Vas
