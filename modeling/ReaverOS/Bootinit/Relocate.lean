import Mathlib.Tactic.FinCases
import ReaverOS.Bootinit.InitOrder
import ReaverOS.Bootinit.LoadRanges

namespace ReaverOS.Bootinit

open Foundation

section

open Foundation.Fallible

def byteOf (value k : ℕ) : UInt8 :=
  UInt8.ofNat (value / 256 ^ k)

def store (bytes : List UInt8) (offset value : ℕ) : List UInt8 :=
  bytes.mapIdx fun k b ↦ if offset ≤ k ∧ k < offset + 8 then byteOf value (k - offset) else b

def Segment.Contains (s : Segment) (v : ℕ) : Prop :=
  s.virtualAddress ≤ v ∧ v < s.virtualAddress + s.size

instance (s : Segment) (v : ℕ) : Decidable (s.Contains v) :=
  inferInstanceAs (Decidable (_ ∧ _))

namespace Relocation

def Covers (r : Relocation) (v : ℕ) : Prop :=
  r.offset ≤ v ∧ v < r.offset + 8

end Relocation

namespace LoadedElf

def resolve (e : LoadedElf) (name : Name) : Except Fault (Option ℕ) :=
  e.findSymbolDefinition name e.depth

end LoadedElf

def Loaded.mappings (a : Loaded) : List (ℕ × List UInt8) :=
  List.zipWith (fun s bytes ↦ (a.elfBase + s.virtualAddress, bytes)) a.elf.loadSegments
    a.segmentMappings

def LoadedElf.target (e : LoadedElf) (address : ℕ) : Option UInt8 :=
  (e.images.flatMap Loaded.mappings).findSome? fun mapping ↦
    if mapping.1 ≤ address then mapping.2[address - mapping.1]? else none

open List

@[simp]
theorem length_store (bs : List UInt8) (o va : ℕ) : (store bs o va).length = bs.length :=
  length_mapIdx

variable {offset value : ℕ}

def Ascending (segments : List Segment) : Prop :=
  segments.Pairwise fun s t ↦ s.virtualAddress + s.size ≤ t.virtualAddress

instance (segments : List Segment) : Decidable (Ascending segments) :=
  inferInstanceAs (Decidable (List.Pairwise _ _))

variable {segments : List Segment}

def Relocation.word (resolve : Name → Except Fault (Option ℕ)) (elfBase : ℕ) (r : Relocation) :
  Option ℕ :=
  match r.type with
  | .globDat => (resolve r.symbolName).toOption.join
  | .relative => some (((elfBase : ℤ) + r.addend) % 2 ^ 64).toNat
  | .other => none

def Loaded.remap (f : Segment → List UInt8 → List UInt8) (a : Loaded) : Loaded :=
  { a with segmentMappings := List.zipWith f a.elf.loadSegments a.segmentMappings }

section Image

variable {resolve : Name → Except Fault (Option ℕ)} {a : Loaded} {r : Relocation}

structure Relocatable (rs : List Relocation) (a : Loaded) : Prop where
  ascending : Ascending a.elf.loadSegments
  length : a.segmentMappings.length = a.elf.loadSegments.length
  segment : ∀ r ∈ rs, ∃ s ∈ a.elf.loadSegments, s.Contains r.offset

variable {rs : List Relocation}

theorem Relocatable.tail (h : Relocatable (r :: rs) a) (f : Segment → List UInt8 → List UInt8) :
  Relocatable rs (a.remap f) where
  ascending := h.ascending
  length := by simp [Loaded.remap, h.length]
  segment := (forall_mem_cons.mp h.segment).2

variable {s : Segment} {elfBase v : ℕ} {bytes : List UInt8} {rs : List Relocation}

end Image

end

open List

section

open Foundation.Fallible

structure ImageTree where
  image : Name × ElfImage
  dependencies : Forest (Name × ElfImage) Name := .nil

namespace ImageTree

def nodes (t : ImageTree) : List ((Name × ElfImage) × Forest (Name × ElfImage) Name) :=
  (t.image, t.dependencies) :: t.dependencies.nodes

def images (t : ImageTree) : List (Name × ElfImage) :=
  t.image :: t.dependencies.labels

def names (t : ImageTree) : List Name :=
  t.images.map Prod.fst

end ImageTree

def World.Stores (w : World) (p : (Name × ElfImage) × Forest (Name × ElfImage) Name) : Prop :=
  w.initrd p.1.1 = some p.1.2 ∧ p.1.2.needed = p.2.row Prod.fst

instance (w : World) (p : (Name × ElfImage) × Forest (Name × ElfImage) Name) :
  Decidable (w.Stores p) :=
  inferInstanceAs (Decidable (_ ∧ _))

structure Laid (st st' : LoadState) (images : List Loaded) : Prop where
  sum : st'.binaryBase = st.binaryBase + (images.map fun a ↦ a.elf.extent + pageSize).sum
  subset : st.log ⊆ st'.log
  aligned : pageSize ∣ st.binaryBase →
    pageSize ∣ st'.binaryBase ∧ ∀ a ∈ images, pageSize ∣ a.elfBase
  from_base : ∀ a ∈ images, st.binaryBase ≤ a.elfBase
  to_base : ∀ a ∈ images, a.elfBase + a.elf.extent ≤ st'.binaryBase
  apart : images.Pairwise fun a b ↦ a.elfBase + a.elf.extent ≤ b.elfBase
  mapped : ∀ a ∈ images, a.segmentMappings = a.elf.loadSegments.map (Segment.storage a.elf.data)
  ranges : st'.mapped = st.mapped ++ images.flatMap fun a ↦ a.elf.segmentRanges a.elfBase
  placed : ∀ a ∈ images, ∃ range, .loaded a.filename (some range) ∈ st'.log

theorem Laid.nil (st : LoadState) : Laid st st [] where
  sum := rfl
  subset := List.Subset.refl _
  aligned h := ⟨h, by simp⟩
  from_base := by simp
  to_base := by simp
  apart := .nil
  mapped := by simp
  ranges := by simp
  placed := by simp

theorem Laid.le {st st' : LoadState} {l : List Loaded} (h : Laid st st' l) :
  st.binaryBase ≤ st'.binaryBase :=
  h.sum ▸ Nat.le_add_right _ _

theorem Laid.append {st st₁ st₂ : LoadState} {l l' : List Loaded} (h : Laid st st₁ l)
  (h' : Laid st₁ st₂ l') : Laid st st₂ (l ++ l') where
  sum := by rw [h'.sum, h.sum, map_append, sum_append, add_assoc]
  subset := List.Subset.trans h.subset h'.subset
  aligned hb := ⟨(h'.aligned (h.aligned hb).1).1,
    forall_mem_append.mpr ⟨(h.aligned hb).2, (h'.aligned (h.aligned hb).1).2⟩⟩
  from_base := forall_mem_append.mpr
    ⟨h.from_base, fun a ha ↦ h.le.trans (h'.from_base a ha)⟩
  to_base := forall_mem_append.mpr
    ⟨fun a ha ↦ (h.to_base a ha).trans h'.le, h'.to_base⟩
  apart := pairwise_append.mpr
    ⟨h.apart, h'.apart, fun a ha b hb ↦ (h.to_base a ha).trans (h'.from_base b hb)⟩
  mapped := forall_mem_append.mpr ⟨h.mapped, h'.mapped⟩
  ranges := by rw [h'.ranges, h.ranges, flatMap_append, append_assoc]
  placed := by
    refine forall_mem_append.mpr ⟨?_, h'.placed⟩
    intro a ha
    obtain ⟨r, hr⟩ := h.placed a ha
    exact ⟨r, h'.subset hr⟩

def Apart (names : List Name) : Prop :=
  names.Pairwise fun x y ↦ StringView.equal x y = false

theorem prepared_eq_false_iff {ns : List Name} {y : Name} :
  prepared ns y = false ↔ (∀ x ∈ ns, StringView.equal x y = false) ∧ y ≠ [] := by
  rw [prepared, Bool.or_eq_false_iff, any_eq_false, ← Bool.not_eq_true, equal_unassigned_iff]
  simp

namespace World

variable {w : World}

/-- The images of a row of trees are stored, none is taken for the vdso, each has a LOAD segment,
and no search finds one before it is loaded. -/
structure Loadable (w : World) (f : Forest (Name × ElfImage) Name) (names : List Name) :
  Prop where
  stores : ∀ p ∈ f.nodes, w.Stores p
  owned : f.links = []
  plain : ∀ a ∈ f.labels, isVdso a.1 = false ∧ a.2.loadSegments ≠ []
  apart : Apart (f.labels.map Prod.fst)
  fresh : ∀ a ∈ f.labels, prepared names a.1 = false

theorem Loadable.children {a : Name × ElfImage} {c r : Forest (Name × ElfImage) Name}
  {ns : List Name} (h : w.Loadable (.tree a c r) ns) : w.Loadable c ns where
  stores p hp := h.stores p (mem_cons_of_mem _ (mem_append_left _ hp))
  owned := (append_eq_nil_iff.mp h.owned).1
  plain b hb := h.plain b (mem_cons_of_mem _ (mem_append_left _ hb))
  apart := by
    have := h.apart
    rw [Forest.labels, map_cons, map_append] at this
    exact (pairwise_append.mp (pairwise_cons.mp this).2).1
  fresh b hb := h.fresh b (mem_cons_of_mem _ (mem_append_left _ hb))

theorem Loadable.rest {a : Name × ElfImage} {c r : Forest (Name × ElfImage) Name}
  {ns ns' : List Name} (h : w.Loadable (.tree a c r) ns)
  (hn : ns' ⊆ ns ++ a.1 :: c.labels.map Prod.fst) : w.Loadable r ns' where
  stores p hp := h.stores p (mem_cons_of_mem _ (mem_append_right _ hp))
  owned := (append_eq_nil_iff.mp h.owned).2
  plain b hb := h.plain b (mem_cons_of_mem _ (mem_append_right _ hb))
  apart := by
    have := h.apart
    rw [Forest.labels, map_cons, map_append] at this
    exact (pairwise_append.mp (pairwise_cons.mp this).2).2.1
  fresh := by
    intro b hb
    obtain ⟨ho, he⟩ := prepared_eq_false_iff.mp
      (h.fresh b (mem_cons_of_mem _ (mem_append_right _ hb)))
    have ha := h.apart
    rw [Forest.labels, map_cons, map_append, ← cons_append] at ha
    apply prepared_eq_false_iff.mpr
    refine ⟨?_, he⟩
    intro x hx
    obtain hx | hx := mem_append.mp (hn hx)
    · exact ho x hx
    · exact (pairwise_append.mp ha).2.2 x hx b.1 (mem_map_of_mem hb)

end World

end

open Option

structure ElfImage.Regular (elf : ElfImage) : Prop where
  nonEmpty : ∀ s ∈ elf.loadSegments, 0 < s.size
  aligned : ∀ s ∈ elf.loadSegments, pageSize ∣ s.virtualAddress
  ascending : Ascending elf.loadSegments
  inMemory : ∀ s ∈ elf.loadSegments, s.fileSize ≤ s.size
  inFile : ∀ s ∈ elf.loadSegments, s.offset + s.fileSize ≤ elf.data.length
  types : ∀ r ∈ elf.relocations, r.type = .relative ∨ r.type = .globDat
  inside : ∀ r ∈ elf.relocations, ∃ s ∈ elf.loadSegments,
    s.virtualAddress ≤ r.offset ∧ r.offset + 8 ≤ s.virtualAddress + s.size
  apart : elf.relocations.Pairwise fun r r' ↦
    r.offset + 8 ≤ r'.offset ∨ r'.offset + 8 ≤ r.offset

namespace ElfImage.Regular

variable {elf : ElfImage} {s t : Segment}

end ElfImage.Regular

/-- The images of a tree fit below the vdso, so that no address passes 64 bits. -/
structure ImageTree.Fits (w : World) (t : ImageTree) : Prop where
  vdso : w.vdsoPreload ≤ 2 ^ 63
  room : start.binaryBase + (t.images.map fun a ↦ a.2.extent + pageSize).sum ≤ w.vdsoPreload

section Target

variable {e e' : LoadedElf} {a : Loaded} {s : Segment} {v : ℕ} {st st' : LoadState}

end Target

namespace World

variable {w : World} {t : ImageTree}

end World

end ReaverOS.Bootinit
