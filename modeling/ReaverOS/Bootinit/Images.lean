import Mathlib.Algebra.BigOperators.Group.List.Basic
import Mathlib.Data.List.Nodup
import Mathlib.Tactic.Ring
import ReaverOS.Foundation.DepthFirst
import ReaverOS.Foundation.Fallible
import ReaverOS.Foundation.Forest
import ReaverOS.Rosestd.StringView

namespace ReaverOS.Bootinit

open Foundation

section

open List

inductive Fault
  | notFound
  | outOfBounds
  | unfilled
  | unresolved
  | noLoadSegment
  | undefinedInstruction
  | unfinished
  deriving DecidableEq

structure FunctionTable where
  offset : ℕ
  byteSize : ℕ
  deriving DecidableEq

structure Symbol where
  name : Name
  value : ℕ
  deriving DecidableEq

def Symbol.isDefined (s : Symbol) : Bool :=
  s.value ≠ 0

structure Segment where
  virtualAddress : ℕ
  size : ℕ
  offset : ℕ
  fileSize : ℕ
  deriving DecidableEq

inductive RelocationType
  | globDat
  | relative
  | other
  deriving DecidableEq

structure Relocation where
  offset : ℕ
  type : RelocationType
  symbolName : Name := []
  addend : ℤ := 0
  deriving DecidableEq

/-- What the parser gives of an image: program headers other than LOAD and dynamic entries other
than NEEDED are left out. -/
structure ElfImage where
  data : List UInt8 := []
  loadSegments : List Segment := []
  needed : List Name := []
  symtab : List Symbol := []
  relocations : List Relocation := []
  preinit : Option FunctionTable := none
  init : Option FunctionTable := none
  fini : Option FunctionTable := none
  deriving DecidableEq

structure Loaded where
  id : ℕ
  filename : Name
  elf : ElfImage := {}
  elfBase : ℕ := 0
  segmentMappings : List (List UInt8) := []
  deriving DecidableEq

abbrev Dependencies := Forest Loaded ℕ

structure LoadedElf where
  image : Loaded
  dependencies : Dependencies := .nil
  deriving DecidableEq

namespace LoadedElf

def nodes (e : LoadedElf) : List (Loaded × Dependencies) :=
  (e.image, e.dependencies) :: e.dependencies.nodes

def images (e : LoadedElf) : List Loaded :=
  e.image :: e.dependencies.labels

def ids (e : LoadedElf) : List ℕ :=
  e.images.map Loaded.id

theorem images_eq_map_nodes (e : LoadedElf) : e.images = e.nodes.map Prod.fst := by
  rw [images, nodes, map_cons, Forest.labels_eq_map_nodes]

def DependsOn (e : LoadedElf) (y x : ℕ) : Prop :=
  ∃ p ∈ e.nodes, p.1.id = y ∧ x ∈ p.2.row Loaded.id

def OwnedFirst (e : LoadedElf) : Prop :=
  ∀ p ∈ e.nodes, ∀ t r, p.2 ≠ .link t r

end LoadedElf

structure LoadedImages extends LoadedElf where
  nodup : toLoadedElf.ids.Nodup
  linked : dependencies.links ⊆ toLoadedElf.ids

theorem LoadedElf.nodes_sub (e : LoadedElf) {p : Loaded × Dependencies} (h : p ∈ e.nodes) :
  p.2.nodes ⊆ e.nodes ∧ p.2.links ⊆ e.dependencies.links := by
  obtain h | h := mem_cons.mp h
  · subst h
    exact ⟨subset_cons_self _ _, List.Subset.refl _⟩
  · obtain ⟨hn, hl⟩ := Forest.nodes_sub h
    exact ⟨subset_cons_of_subset _ hn, hl⟩

theorem LoadedImages.row_subset_ids (s : LoadedImages) {p : Loaded × Dependencies}
  (h : p ∈ s.nodes) : p.2.row Loaded.id ⊆ s.ids := by
  intro x hx
  obtain ⟨hn, hl⟩ := s.nodes_sub h
  obtain hx | hx := Forest.mem_of_mem_row _ hx
  · rw [LoadedElf.ids, LoadedElf.images_eq_map_nodes]
    rw [Forest.labels_eq_map_nodes] at hx
    exact map_subset _ (map_subset _ hn) hx
  · exact s.linked (hl hx)

theorem LoadedElf.mem_ids_cases (e : LoadedElf) {x : ℕ} (h : x ∈ e.ids) :
  x = e.image.id ∨ ∃ p ∈ e.nodes, x ∈ p.2.row Loaded.id := by
  obtain ⟨a, ha, rfl⟩ := mem_map.mp h
  obtain rfl | ha := mem_cons.mp ha
  · exact .inl rfl
  · right
    obtain h | ⟨p, hp, h⟩ := Forest.mem_row_of_mem_labels Loaded.id ha
    · exact ⟨_, mem_cons_self, h⟩
    · exact ⟨p, mem_cons_of_mem _ hp, h⟩

/-- A sum over `owned_dependencies()`. The iterator starts at the first element, and skips pointers
only from there on; a pointer read as an object shows the default one. -/
def ownedSum (own : Loaded → ℕ) (stale : ℕ) : Bool → Dependencies → ℕ
  | _, .nil => 0
  | _, .tree a c r => (own a + ownedSum own stale true c) + ownedSum own stale false r
  | first, .link _ r => (if first then stale else 0) + ownedSum own stale false r

def ownedDepth : Bool → Dependencies → ℕ
  | _, .nil => 0
  | _, .tree _ c r => max (ownedDepth true c + 1) (ownedDepth false r)
  | first, .link _ r => max (if first then 1 else 0) (ownedDepth false r)

namespace LoadedElf

def depth (e : LoadedElf) : ℕ :=
  ownedDepth true e.dependencies + 1

def count (e : LoadedElf) : ℕ :=
  1 + ownedSum (fun _ ↦ 1) 1 true e.dependencies

end LoadedElf

theorem height_le_ownedDepth (x : Bool) (d : Dependencies) : d.height ≤ ownedDepth x d := by
  induction d generalizing x with
  | nil => exact le_rfl
  | tree a c r i ihr => exact max_le_max (Nat.succ_le_succ (i true)) (ihr false)
  | link t r ih => exact (ih false).trans (le_max_right _ _)

def misreads : Bool → Dependencies → ℕ
  | _, .nil => 0
  | _, .tree _ c r => misreads true c + misreads false r
  | first, .link _ r => (if first then 1 else 0) + misreads false r

theorem ownedSum_eq (o : Loaded → ℕ) (s : ℕ) (x : Bool) (d : Dependencies) :
  ownedSum o s x d = (d.labels.map o).sum + s * misreads x d := by
  induction d generalizing x with
  | nil => rfl
  | tree a c r i ihr =>
    rw [ownedSum, i, ihr, misreads, Forest.labels, map_cons, map_append, sum_cons, sum_append]
    ring
  | link t r ih =>
    rw [ownedSum, ih, misreads, Forest.labels]
    cases x <;> simp only [if_true, Bool.false_eq_true, if_false] <;> ring

theorem misreads_true_eq_zero_iff (d : Dependencies) :
  misreads true d = 0 ↔ (∀ t r, d ≠ .link t r) ∧ misreads false d = 0 := by
  cases d <;> simp [misreads]

theorem misreads_false_eq_zero_iff (d : Dependencies) :
  misreads false d = 0 ↔ ∀ p ∈ d.nodes, ∀ t r, p.2 ≠ .link t r := by
  induction d with
  | nil => simp [misreads, Forest.nodes]
  | tree a c r i ihr =>
    rw [misreads, Nat.add_eq_zero_iff, misreads_true_eq_zero_iff, i, ihr, Forest.nodes,
      forall_mem_cons, forall_mem_append, and_assoc]
  | link t r ih => simpa [misreads, Forest.nodes] using ih

namespace LoadedElf

theorem misreads_eq_zero_iff (e : LoadedElf) : misreads true e.dependencies = 0 ↔ e.OwnedFirst := by
  rw [misreads_true_eq_zero_iff, misreads_false_eq_zero_iff, OwnedFirst, nodes, forall_mem_cons]

theorem count_eq (e : LoadedElf) : e.count = e.ids.length + misreads true e.dependencies := by
  rw [count, ownedSum_eq, ids, images]
  simp [add_comm, add_left_comm]

end LoadedElf

open Foundation.Fallible

structure World where
  initrd : Name → Option ElfImage
  vdso : ElfImage := {}
  vdsoPreload : ℕ := 0
  stale : Name → ℕ := fun _ ↦ 0

inductive Event
  /-- An image of the initrd is placed. -/
  | loaded (filename : Name) (range : Option (ℕ × ℕ))
  | preloaded (filename : Name)
  /-- A NEEDED name becomes a pointer to an image. -/
  | linked (name target : Name)
  /-- A NEEDED entry without a name becomes a pointer to an element that is not assigned yet. -/
  | dangling
  /-- A pointer is read as if it were a `loaded_elf`. -/
  | misread
  deriving DecidableEq

structure LoadState where
  binaryBase : ℕ
  nextId : ℕ := 0
  log : List Event := []
  mapped : List (ℕ × ℕ) := []
  deriving DecidableEq

def LoadState.record (st : LoadState) (events : List Event) : LoadState :=
  { st with log := st.log ++ events }

def pageSize : ℕ := 4096

def Segment.endAligned (s : Segment) : ℕ :=
  (s.virtualAddress + s.size + pageSize - 1) / pageSize * pageSize

def Segment.storage (data : List UInt8) (s : Segment) : List UInt8 :=
  (List.range (s.endAligned - s.virtualAddress)).map fun k ↦
    if k < s.fileSize then data.getD (s.offset + k) 0 else 0

def ElfImage.finalSegmentEnd (elf : ElfImage) (binaryBase : ℕ) : Option ℕ :=
  elf.loadSegments.foldl (fun _ s ↦ some (binaryBase + s.endAligned)) none

def ElfImage.segmentRanges (elf : ElfImage) (binaryBase : ℕ) : List (ℕ × ℕ) :=
  elf.loadSegments.map fun s ↦ (binaryBase + s.virtualAddress, binaryBase + s.endAligned)

def ElfImage.range (elf : ElfImage) (binaryBase : ℕ) : Option (ℕ × ℕ) :=
  (elf.finalSegmentEnd binaryBase).map fun finalSegmentEnd ↦ (binaryBase, finalSegmentEnd)

def vdsoName : Name := ['l', 'i', 'b', 'v', 'd', 's', 'o', '.', 's', 'o']

def isVdso (filename : Name) : Bool :=
  StringView.equal filename vdsoName

/-- What the elements that are not assigned yet hold, and what a pointer shows when it is read as an
object: no name and no dependencies. -/
def unassigned : Loaded where
  id := 0
  filename := []
  elf := {}
  elfBase := 0

def isSharedObjectPrepared (name : Name) : Dependencies → Option Loaded × ℕ
  | .nil => (none, 0)
  | .tree a c r =>
    if StringView.equal a.filename name then (some a, 0)
    else
      match isSharedObjectPrepared name c with
      | (some b, m) => (some b, m)
      | (none, m) => ((isSharedObjectPrepared name r).1, m + (isSharedObjectPrepared name r).2)
  | .link _ r =>
    if StringView.equal unassigned.filename name then (some unassigned, 1)
    else ((isSharedObjectPrepared name r).1, (isSharedObjectPrepared name r).2 + 1)

/-- The mappings are recorded; those that `map_vmo` refuses are told apart by `Mapped`. -/
def World.place (w : World) (filename : Name) (elf : ElfImage) (st : LoadState) :
  Loaded × LoadState :=
  ({ id := st.nextId, filename, elf, elfBase := st.binaryBase,
     segmentMappings := elf.loadSegments.map (Segment.storage elf.data) },
   { binaryBase := (elf.finalSegmentEnd st.binaryBase).getD (w.stale filename) + pageSize,
     nextId := st.nextId + 1,
     log := st.log ++ [.loaded filename (elf.range st.binaryBase)],
     mapped := st.mapped ++ elf.segmentRanges st.binaryBase })

def Separate (p q : ℕ × ℕ) : Prop :=
  ∀ x, p.1 ≤ x → x < p.2 → ¬ (q.1 ≤ x ∧ x < q.2)

/-- `map_vmo` panics on a range that begins inside a page or meets one that is mapped already. The
vdso is mapped above all images. -/
structure Mapped (w : World) (st : LoadState) : Prop where
  aligned : ∀ p ∈ st.mapped, pageSize ∣ p.1
  apart : st.mapped.Pairwise Separate
  below : ∀ p ∈ st.mapped, p.2 ≤ w.vdsoPreload

def World.preload (w : World) (filename : Name) (st : LoadState) : LoadedElf × LoadState :=
  ({ image := { id := st.nextId, filename, elf := w.vdso, elfBase := w.vdsoPreload } },
   { st with nextId := st.nextId + 1, log := st.log ++ [.preloaded filename] })

abbrev Loader := Dependencies → Name → LoadState → Except Fault (LoadedElf × LoadState)

def mention (load : Loader) (root : Dependencies) (name : Name) (st : LoadState) :
  Except Fault (Dependencies × LoadState) :=
  let st := st.record (List.replicate (isSharedObjectPrepared name root).2 .misread)
  match (isSharedObjectPrepared name root).1 with
  | some found => .ok (.link found.id .nil, st.record [.linked name found.filename])
  | none =>
    if StringView.equal unassigned.filename name then
      .ok (.link unassigned.id .nil, st.record [.dangling])
    else do
      let (e, st) ← load root name st
      .ok (.tree e.image e.dependencies .nil, st)

/-- The loop over the NEEDED entries. The objects prepared so far are seen from the root, which does
not change during an inner call. -/
def loadNeeded (load : Loader) (root : Dependencies → Dependencies) :
  Dependencies → List Name → LoadState → Except Fault (Dependencies × LoadState)
  | done, [], st => .ok (done, st)
  | done, name :: names, st => do
    let (d, st) ← mention load (root done) name st
    loadNeeded load root (done.append d) names st

def rootOf (root : Option Dependencies) (ret : Loaded) (done : Dependencies) : Dependencies :=
  root.getD (.tree ret done .nil)

def World.load (w : World) : ℕ → Option Dependencies → Name → LoadState →
  Except Fault (LoadedElf × LoadState)
  | 0, _, _, _ => .error .unfinished
  | n + 1, root, filename, st =>
    if isVdso filename then .ok (w.preload filename st)
    else
      match w.initrd filename with
      | none => .error .notFound
      | some elf =>
        let placed := w.place filename elf st
        (loadNeeded (fun root ↦ w.load n (some root)) (rootOf root placed.1) .nil elf.needed
          placed.2).map fun p ↦ (⟨placed.1, p.1⟩, p.2)

def start : LoadState where
  binaryBase := 0x400000

def World.needed (w : World) (name : Name) : List Name :=
  if name = vdsoName then []
  else
    match w.initrd name with
    | some elf => elf.needed
    | none => []

def World.Reaches (w : World) : Name → Name → Prop :=
  Relation.ReflTransGen fun a b ↦ b ∈ w.needed a

variable {name : Name}

theorem ne_vdsoName (h : isVdso name = false) : name ≠ vdsoName := by
  intro he
  rw [he] at h
  exact absurd h (by decide)

variable {w : World}

theorem World.needed_eq {e : ElfImage} (hv : isVdso name = false)
  (he : w.initrd name = some e) : w.needed name = e.needed := by
  rw [World.needed, if_neg (ne_vdsoName hv), he]

theorem World.place_log (w : World) (f : Name) (e : ElfImage) (st : LoadState) :
  (w.place f e st).2.log = st.log ++ [.loaded f (e.range st.binaryBase)] :=
  rfl

theorem World.preload_log (w : World) (f : Name) (st : LoadState) :
  (w.preload f st).2.log = st.log ++ [.preloaded f] :=
  rfl

theorem equal_unassigned_iff : StringView.equal unassigned.filename name = true ↔ name = [] := by
  rw [StringView.equal_iff]
  simp [unassigned]

variable {st st' : LoadState}

theorem mention_eq_ok {ld : Loader} {r d : Dependencies} (h : mention ld r name st = .ok (d, st')) :
  let st₀ := st.record (List.replicate (isSharedObjectPrepared name r).2 .misread)
  (∃ f, (isSharedObjectPrepared name r).1 = some f ∧ d = .link f.id .nil ∧
      st' = st₀.record [.linked name f.filename]) ∨
    (name = [] ∧ d = .link unassigned.id .nil ∧ st' = st₀.record [.dangling]) ∨
    ((isSharedObjectPrepared name r).1 = none ∧ name ≠ [] ∧
      ∃ e, ld r name st₀ = .ok (e, st') ∧ d = .tree e.image e.dependencies .nil) := by
  intro st₀
  rw [mention] at h
  cases hf : (isSharedObjectPrepared name r).1 with
  | some f =>
    rw [hf] at h
    cases h
    exact .inl ⟨f, rfl, rfl, rfl⟩
  | none =>
    rw [hf] at h
    by_cases hn : name = []
    · simp only [equal_unassigned_iff, if_pos hn] at h
      cases h
      exact .inr (.inl ⟨hn, rfl, rfl⟩)
    · simp only [equal_unassigned_iff, if_neg hn] at h
      obtain ⟨⟨e, st₁⟩, hl, hr⟩ := bind_eq_ok h
      cases hr
      exact .inr (.inr ⟨rfl, hn, e, hl, rfl⟩)

theorem loadNeeded_cons_eq_ok {ld : Loader} {r : Dependencies → Dependencies}
  {dn d : Dependencies} {ns : List Name} (h : loadNeeded ld r dn (n :: ns) st = .ok (d, st')) :
  ∃ d₁ s, mention ld (r dn) n st = .ok (d₁, s) ∧
  loadNeeded ld r (dn.append d₁) ns s = .ok (d, st') := by
  obtain ⟨⟨d₁, s⟩, hm, hr⟩ := bind_eq_ok h
  exact ⟨d₁, s, hm, hr⟩

theorem World.load_succ_eq_ok {n : ℕ} {r : Option Dependencies} {f : Name} {e : LoadedElf}
  (h : w.load (n + 1) r f st = .ok (e, st')) : (isVdso f = true ∧ (e, st') = w.preload f st) ∨
  ∃ el d, isVdso f = false ∧ w.initrd f = some el ∧
  loadNeeded (fun r ↦ w.load n (some r)) (rootOf r (w.place f el st).1) .nil
  el.needed (w.place f el st).2 = .ok (d, st') ∧ e = ⟨(w.place f el st).1, d⟩ := by
  rw [World.load] at h
  cases hv : isVdso f with
  | true =>
    rw [hv, if_pos rfl] at h
    cases h
    exact .inl ⟨rfl, rfl⟩
  | false =>
    rw [hv, if_neg Bool.false_ne_true] at h
    cases he : w.initrd f with
    | none =>
      rw [he] at h
      cases h
    | some el =>
      rw [he] at h
      cases hne : loadNeeded (fun r ↦ w.load n (some r))
        (rootOf r (w.place f el st).1) .nil el.needed (w.place f el st).2 with
      | error fa =>
        simp only [hne] at h
        cases h
      | ok p =>
        simp only [hne] at h
        cases h
        exact .inr ⟨el, p.1, rfl, rfl, hne, rfl⟩

def Event.Quiet : Event → Prop
  | .loaded _ _ | .preloaded _ => False
  | .linked _ _ | .dangling | .misread => True

theorem quiet_replicate (m : ℕ) : ∀ e ∈ List.replicate m Event.misread, e.Quiet := by
  intro e he
  rw [eq_of_mem_replicate he]
  trivial

section Invariant

variable {w : World} {I : LoadState → Prop} {P : Name → Prop}
  (hne : ∀ a b, P a → b ∈ w.needed a → P b)
  (hq : ∀ st events, (∀ event ∈ events, event.Quiet) → I st → I (st.record events))
  (hpr : ∀ st filename, P filename → isVdso filename = true → I st →
    I (w.preload filename st).2)
  (hpl : ∀ st filename elf, P filename → isVdso filename = false →
    w.initrd filename = some elf → I st → I (w.place filename elf st).2)

include hq in
theorem loadNeeded_invariant {ld : Loader} {r : Dependencies → Dependencies}
  (hl : ∀ r name st e st', P name → ld r name st = .ok (e, st') → I st → I st')
  {dn d : Dependencies} {ns : List Name} {st st' : LoadState} (hn : ∀ y ∈ ns, P y)
  (h : loadNeeded ld r dn ns st = .ok (d, st')) (hst : I st) : I st' := by
  induction ns generalizing dn st with
  | nil =>
    cases h
    exact hst
  | cons name ns ih =>
    obtain ⟨hna, hn⟩ := forall_mem_cons.mp hn
    obtain ⟨d₁, st₁, hm, hr⟩ := loadNeeded_cons_eq_ok h
    apply ih hn hr
    have hst₀ := hq st _ (quiet_replicate (isSharedObjectPrepared name (r dn)).2) hst
    obtain ⟨found, -, -, rfl⟩ | ⟨-, -, rfl⟩ | ⟨-, -, e, hru, -⟩ := mention_eq_ok hm
    · exact hq _ _ (by simp [Event.Quiet]) hst₀
    · exact hq _ _ (by simp [Event.Quiet]) hst₀
    · exact hl _ _ _ _ _ hna hru hst₀

include hne hq hpr hpl in
theorem load_invariant {n : ℕ} {r : Option Dependencies} {f : Name} {st st' : LoadState}
  {e : LoadedElf} (hn : P f) (h : w.load n r f st = .ok (e, st')) (hs : I st) : I st' := by
  induction n generalizing r f st st' e with
  | zero => cases h
  | succ n ih =>
    obtain ⟨hv, heq⟩ | ⟨elf, d, hv, he, hr, -⟩ := World.load_succ_eq_ok h
    · obtain ⟨-, rfl⟩ := Prod.mk.inj heq
      exact hpr _ _ hn hv hs
    · apply loadNeeded_invariant hq (P := P) _ _ hr (hpl _ _ _ hn hv he hs)
      · intro r name st e st' hn hr hs
        exact ih hn hr hs
      · intro y hy
        apply hne _ _ hn
        rwa [World.needed_eq hv he]

end Invariant

theorem exists_log_append {n : ℕ} {r : Option Dependencies} {f : Name} {e : LoadedElf}
  (h : w.load n r f st = .ok (e, st')) : ∃ events, st'.log = st.log ++ events := by
  have hg {s : LoadState} (m : List Event) (h : ∃ events, s.log = st.log ++ events) :
    ∃ events, s.log ++ m = st.log ++ events := by
    obtain ⟨events, h⟩ := h
    exact ⟨events ++ m, by rw [h, append_assoc]⟩
  refine load_invariant (I := fun st' ↦ ∃ events, st'.log = st.log ++ events) (P := fun _ ↦ True)
    ?_ ?_ ?_ ?_ trivial h ⟨[], (append_nil _).symm⟩
  · intro a b _ _
    trivial
  · intro s events _ h
    exact hg _ h
  · intro s f _ _ h
    exact hg _ h
  · intro s f elf _ _ _ h
    exact hg _ h

end

open Foundation Fallible DepthFirst

section

inductive Mark
  | image (name : Name)
  | pointer
  deriving DecidableEq

def marks : Dependencies → List Mark
  | .nil => []
  | .tree a c r => .image a.filename :: (marks c ++ marks r)
  | .link _ r => .pointer :: marks r

inductive Search
  | missing
  | found (name : Name)
  | blocked
  deriving DecidableEq

/-- A pointer that the search meets is read as if it were an image, so it ends there. -/
def search (name : Name) : List Mark → Search
  | [] => .missing
  | .image x :: ms => if StringView.equal x name then .found x else search name ms
  | .pointer :: _ => .blocked

theorem search_append (nm : Name) (ms ms' : List Mark) :
  search nm (ms ++ ms') = if search nm ms = .missing then search nm ms'
  else search nm ms := by
  induction ms with
  | nil => rfl
  | cons m ms ih =>
    cases m with
    | image x =>
      rw [List.cons_append, search, search]
      split
      · simp
      · exact ih
    | pointer => simp [search]

def verdict : Option Loaded × ℕ → Search
  | (_, _ + 1) => .blocked
  | (some a, 0) => .found a.filename
  | (none, 0) => .missing

theorem verdict_isSharedObjectPrepared (nm : Name) (d : Dependencies) :
  verdict (isSharedObjectPrepared nm d) = search nm (marks d) := by
  induction d with
  | nil => rfl
  | tree a c r i ihr =>
    rw [isSharedObjectPrepared, marks, search]
    split
    · rfl
    · rw [search_append, ← i, ← ihr]
      cases hc : isSharedObjectPrepared nm c with
      | mk b m =>
        cases b with
        | some b => cases m <;> rfl
        | none =>
          cases m with
          | zero => simp [verdict]
          | succ m =>
            simp only [add_right_comm m 1]
            rfl
  | link t r ih =>
    rw [isSharedObjectPrepared, marks, search]
    split <;> rfl

theorem missing_iff {nm : Name} {d : Dependencies} :
  search nm (marks d) = .missing ↔ isSharedObjectPrepared nm d = (none, 0) := by
  rw [← verdict_isSharedObjectPrepared]
  obtain ⟨b | b, m | m⟩ := isSharedObjectPrepared nm d <;> simp [verdict]

theorem found_iff {nm x : Name} {d : Dependencies} : search nm (marks d) = .found x ↔
  ∃ a, isSharedObjectPrepared nm d = (some a, 0) ∧ a.filename = x := by
  rw [← verdict_isSharedObjectPrepared]
  obtain ⟨b | b, m | m⟩ := isSharedObjectPrepared nm d <;> simp [verdict]

theorem mem_of_search_found {nm x : Name} {ms : List Mark} (h : search nm ms = .found x) :
  .image x ∈ ms := by
  induction ms with
  | nil => cases h
  | cons m ms ih =>
    cases m with
    | image y =>
      rw [search] at h
      split at h
      · cases h
        exact List.mem_cons_self
      · exact List.mem_cons_of_mem _ (ih h)
    | pointer => cases h

open List

def entryMark : Entry Name → Mark
  | .first y => .image y
  | .again _ => .pointer

def Clean (ms : List Mark) : Entry Name → Prop
  | .first y => search y ms = .missing ∧ y ≠ []
  | .again y => search y ms = .found y

instance (ms : List Mark) (e : Entry Name) : Decidable (Clean ms e) :=
  match e with
  | .first _ => inferInstanceAs (Decidable (_ ∧ _))
  | .again _ => inferInstanceAs (Decidable (_ = _))

def CleanBlocks (outermost : Bool) : List Mark → List (List (Entry Name)) → Prop
  | _, [] => True
  | ms, block :: blocks =>
    (∀ e ∈ block, Clean ms e) ∧
      CleanBlocks outermost (if outermost then ms ++ block.map entryMark else ms) blocks

instance decidableCleanBlocks (outermost : Bool) :
  (ms : List Mark) → (bs : List (List (Entry Name))) → Decidable (CleanBlocks outermost ms bs)
  | _, [] => .isTrue trivial
  | ms, block :: blocks =>
    have := decidableCleanBlocks outermost
      (if outermost then ms ++ block.map entryMark else ms) blocks
    inferInstanceAs (Decidable (_ ∧ _))

inductive Traced : Entry Name → Event → Prop
  | first (y : Name) (range : Option (ℕ × ℕ)) : Traced (.first y) (.loaded y range)
  | vdso : Traced (.first vdsoName) (.preloaded vdsoName)
  | again (y : Name) : Traced (.again y) (.linked y y)

def Traces : List (Entry Name) → List Event → Prop :=
  List.Forall₂ Traced

theorem Traced.unique {e e' : Entry Name} {ev : Event} (h : Traced e ev)
  (h' : Traced e' ev) : e = e' := by
  cases h <;> cases h' <;> rfl

def loads : List Event → List Name
  | [] => []
  | .loaded y _ :: events => y :: loads events
  | .preloaded _ :: events => vdsoName :: loads events
  | .linked _ _ :: events => loads events
  | .dangling :: events => loads events
  | .misread :: events => loads events

@[simp]
theorem loads_append (ev events' : List Event) :
  loads (ev ++ events') = loads ev ++ loads events' := by
  induction ev with
  | nil => rfl
  | cons e ev ih => cases e <;> simp [loads, ih]

variable {es : List (Entry Name)} {events : List Event}

theorem Traces.loads_eq (h : Traces es events) : loads events = firsts es := by
  induction h with
  | nil => rfl
  | cons h _ ih => cases h <;> simp [loads, firsts, ih]

theorem Traces.not_misread {m : ℕ} (h : Traces es (List.replicate m .misread ++ events)) :
  m = 0 := by
  cases m with
  | zero => rfl
  | succ m =>
    rw [replicate_succ, cons_append] at h
    cases h with
    | cons h _ => cases h

theorem Traces.split {events' : List Event} (h : Traces es (events ++ events')) :
  ∃ e es₂, es = e ++ es₂ ∧ Traces e events ∧ Traces es₂ events' :=
  ⟨_, _, (take_append_drop events.length es).symm, forall₂_take_append _ _ _ h,
    forall₂_drop_append _ _ _ h⟩

theorem marks_append (d d' : Dependencies) : marks (d.append d') = marks d ++ marks d' := by
  induction d with
  | nil => rfl
  | tree a c r _ i => simp [Forest.append, marks, i]
  | link t r ih => simp [Forest.append, marks, ih]

theorem image_mem_map_entryMark {x : Name} (h : .image x ∈ es.map entryMark) : x ∈ firsts es := by
  induction es with
  | nil => cases h
  | cons e es ih =>
    cases e with
    | first y =>
      obtain h | h := mem_cons.mp h
      · cases h
        exact mem_cons_self
      · exact mem_cons_of_mem _ (ih h)
    | again y => exact ih ((mem_cons.mp h).resolve_left (by simp [entryMark]))

theorem cleanBlocks_false_iff {ms : List Mark} {bs : List (List (Entry Name))} :
  CleanBlocks false ms bs ↔ ∀ e ∈ bs.flatten, Clean ms e := by
  induction bs with
  | nil => simp [CleanBlocks]
  | cons b bs ih =>
    rw [CleanBlocks, flatten_cons, forall_mem_append]
    exact and_congr_right fun _ ↦ ih

def World.Plain (w : World) (y : Name) : Prop :=
  ∀ m, w.Reaches y m → m = vdsoName ∨ isVdso m = false ∧ (w.initrd m).isSome

variable {y : Name}

theorem World.Plain.of_needed {w : World} {z : Name} (h : w.Plain y) (hz : z ∈ w.needed y) :
  w.Plain z :=
  fun m hm ↦ h m (.head hz hm)

def Known (loaded : List Name) (root : Dependencies) : Prop :=
  ∀ x, .image x ∈ marks root → x ∈ loaded

section Mention

variable {load : Loader} {root : Dependencies} {st : LoadState} {y : Name}
  {visit : List Name → Name → Option (List (Entry Name))} {es : List (Entry Name)}

/-- The run returns, and what it adds to the log is the visit `es`. -/
def Follows {α : Type} (run : Except Fault (α × LoadState)) (st : LoadState)
  (es : List (Entry Name)) : Prop :=
  ∃ a st' events, run = .ok (a, st') ∧ st'.log = st.log ++ events ∧ Traces es events ∧
    (loads st.log ++ firsts es).Nodup

def Visits (load : Loader) (visit : List Name → Name → Option (List (Entry Name)))
  (root : Dependencies) (y : Name) : Prop :=
  ∀ st es, (loads st.log).Nodup → y ∉ loads st.log → Known (loads st.log) root →
    ((visit (loads st.log) y = some es ∧ ∀ e ∈ es.tail, Clean (marks root) e) ↔
      Follows (load root y st) st es)

def Starts (load : Loader) (root : Dependencies) (y : Name) : Prop :=
  ∀ st e st', load root y st = .ok (e, st') →
    ∃ event events, st'.log = st.log ++ event :: events ∧ Traced (.first y) event

theorem record_nil (st : LoadState) : st.record [] = st := by
  simp [LoadState.record]

theorem mention_follows_of_missing (h : isSharedObjectPrepared y root = (none, 0)) (hy : y ≠ []) :
  Follows (mention load root y st) st es ↔ Follows (load root y st) st es := by
  rw [mention, h, replicate_zero, record_nil]
  simp only [equal_unassigned_iff, if_neg hy]
  cases load root y st with
  | error e => simp [Follows]
  | ok p =>
    obtain ⟨e, st'⟩ := p
    simp [Follows]

def Logs (load : Loader) : Prop :=
  ∀ root name st e st', load root name st = .ok (e, st') → ∃ events, st'.log = st.log ++ events

theorem mention_log (hlo : Logs load) {d : Dependencies} {st' : LoadState}
  (h : mention load root y st = .ok (d, st')) : ∃ events, st'.log = st.log ++
  (List.replicate (isSharedObjectPrepared y root).2 .misread ++ events) ∧
  ((∃ f, (isSharedObjectPrepared y root).1 = some f ∧ d = .link f.id .nil ∧
  events = [.linked y f.filename]) ∨ events = [.dangling] ∨
  ((isSharedObjectPrepared y root).1 = none ∧ y ≠ [] ∧ ∃ s e,
  load root y s = .ok (e, st') ∧ st'.log = s.log ++ events ∧
  d = .tree e.image e.dependencies .nil)) := by
  obtain ⟨f, hf, rfl, rfl⟩ | ⟨-, -, rfl⟩ | ⟨hn, hy, e, hl, rfl⟩ := mention_eq_ok h
  · exact ⟨_, List.append_assoc _ _ _, .inl ⟨f, hf, rfl, rfl⟩⟩
  · exact ⟨_, List.append_assoc _ _ _, .inr (.inl rfl)⟩
  · obtain ⟨events, hlg⟩ := hlo _ _ _ _ _ hl
    exact ⟨events, hlg.trans (List.append_assoc _ _ _), .inr (.inr ⟨hn, hy, _, e, hl, hlg, rfl⟩)⟩

theorem mention_follows_iff (hl : Logs load) (hv : Visits load visit root y)
  (hs : Starts load root y) (hfi : ∀ s es, visit s y = some es → es.head? = some (.first y))
  (hnd : (loads st.log).Nodup) (hk : Known (loads st.log) root) :
  (block visit (loads st.log) y = some es ∧ ∀ e ∈ es, Clean (marks root) e) ↔
  Follows (mention load root y st) st es := by
  constructor
  · rintro ⟨hes, hc⟩
    by_cases hy : y ∈ loads st.log
    · rw [block_of_mem hy] at hes
      cases hes
      have hfo : search y (marks root) = .found y := hc _ List.mem_cons_self
      obtain ⟨a, ha, rfl⟩ := found_iff.mp hfo
      refine ⟨_, _, [.linked a.filename a.filename],
      by rw [mention, ha, List.replicate_zero, record_nil], rfl, ?_, ?_⟩
      · exact .cons (.again _) .nil
      · simpa [firsts] using hnd
    · rw [block_of_not_mem hy] at hes
      obtain ⟨τ, rfl⟩ := List.head?_eq_some_iff.mp (hfi _ _ hes)
      obtain ⟨hm, hn⟩ := hc _ List.mem_cons_self
      rw [mention_follows_of_missing (missing_iff.mp hm) hn, ← hv st _ hnd hy hk]
      exact ⟨hes, fun e he ↦ hc e (List.mem_cons_of_mem _ he)⟩
  · rintro ⟨d, st', events, hr, hlg, ht, hne⟩
    obtain ⟨events', heve, hca⟩ := mention_log hl hr
    rw [hlg, List.append_cancel_left_eq] at heve
    subst heve
    have hz := ht.not_misread
    have hf : Follows (mention load root y st) st es := ⟨d, st', _, hr, hlg, ht, hne⟩
    rw [hz, List.replicate_zero, List.nil_append] at ht
    obtain ⟨f, hfo, -, rfl⟩ | rfl | ⟨hno, hn, st₀, e, hlo, h, -⟩ := hca
    · obtain _ | ⟨⟨⟩, ⟨⟩⟩ := ht
      have hp := found_iff.mpr ⟨f, Prod.ext hfo hz, rfl⟩
      rw [block_of_mem (hk _ (mem_of_search_found hp))]
      refine ⟨rfl, ?_⟩
      intro e he
      obtain rfl := List.mem_singleton.mp he
      exact hp
    · obtain _ | ⟨⟨⟩, -⟩ := ht
    · have hp : isSharedObjectPrepared y root = (none, 0) := Prod.ext hno hz
      obtain ⟨ev, events, hlg', hev⟩ := hs _ _ _ hlo
      rw [h, List.append_cancel_left_eq] at hlg'
      subst hlg'
      have hy : y ∉ loads st.log := by
        cases ht with
        | cons he _ =>
          obtain rfl := he.unique hev
          intro hy
          exact (List.nodup_append.mp hne).2.2 y hy y List.mem_cons_self rfl
      rw [mention_follows_of_missing hp hn, ← hv st es hnd hy hk] at hf
      rw [block_of_not_mem hy]
      refine ⟨hf.1, ?_⟩
      obtain ⟨τ, rfl⟩ := List.head?_eq_some_iff.mp (hfi _ _ hf.1)
      intro e he
      obtain rfl | he := List.mem_cons.mp he
      · exact ⟨missing_iff.mpr hp, hn⟩
      · exact hf.2 e he

end Mention

variable {load : Loader} {d : Dependencies} {st st' : LoadState}

theorem mention_grows (hl : Logs load) {r : Dependencies}
  (h : mention load r y st = .ok (d, st')) : ∃ events, st'.log = st.log ++ events := by
  obtain ⟨events, hlo, -⟩ := mention_log hl h
  exact ⟨_, hlo⟩

variable {root : Dependencies → Dependencies} {dn : Dependencies} {ns : List Name}

theorem loadNeeded_grows (hl : Logs load) (h : loadNeeded load root dn ns st = .ok (d, st')) :
  ∃ events, st'.log = st.log ++ events := by
  induction ns generalizing dn st with
  | nil =>
    cases h
    exact ⟨[], (List.append_nil _).symm⟩
  | cons nm ns ih =>
    obtain ⟨d₁, s, hm, hr⟩ := loadNeeded_cons_eq_ok h
    obtain ⟨ev, h₁⟩ := mention_grows hl hm
    obtain ⟨e, h₂⟩ := ih hr
    exact ⟨ev ++ e, by rw [h₂, h₁, List.append_assoc]⟩

def Shows (load : Loader) : Prop :=
  ∀ root y st e st' events es, load root y st = .ok (e, st') → st'.log = st.log ++ events →
    Traces es events → marks (.tree e.image e.dependencies .nil) = es.map entryMark

theorem mention_marks (hl : Logs load) (hlo : Shows load) {r : Dependencies}
  (h : mention load r y st = .ok (d, st')) (he : st'.log = st.log ++ events)
  (ht : Traces es events) : marks d = es.map entryMark := by
  obtain ⟨events', hlg, hc⟩ := mention_log hl h
  rw [he, append_cancel_left_eq] at hlg
  subst hlg
  rw [ht.not_misread, replicate_zero, nil_append] at ht
  obtain ⟨f, -, rfl, rfl⟩ | rfl | ⟨-, -, s, e, hr, hlg, rfl⟩ := hc
  · obtain _ | ⟨⟨⟩, ⟨⟩⟩ := ht
    rfl
  · obtain _ | ⟨⟨⟩, -⟩ := ht
  · exact hlo _ _ _ _ _ _ _ hr hlg ht

theorem loadNeeded_marks (hl : Logs load) (hlo : Shows load)
  (h : loadNeeded load root dn ns st = .ok (d, st')) (he : st'.log = st.log ++ events)
  (ht : Traces es events) : marks d = marks dn ++ es.map entryMark := by
  induction ns generalizing dn st es events with
  | nil =>
    cases h
    rw [self_eq_append_right] at he
    subst he
    cases ht
    exact (List.append_nil _).symm
  | cons nm ns ih =>
    obtain ⟨d₁, s, hm, hr⟩ := loadNeeded_cons_eq_ok h
    obtain ⟨ev, h₁⟩ := mention_grows hl hm
    obtain ⟨e, h₂⟩ := loadNeeded_grows hl hr
    rw [h₂, h₁, List.append_assoc, append_cancel_left_eq] at he
    subst he
    obtain ⟨es₁, es₂, rfl, ht₁, ht₂⟩ := ht.split
    rw [ih hr h₂ ht₂, marks_append, mention_marks hl hlo hm h₁ ht₁, map_append, List.append_assoc]

/-- A row is followed by following its first mention and then the rest. -/
theorem follows_cons_iff (hl : Logs load) {y : Name} {es : List (Entry Name)} :
  Follows (loadNeeded load root dn (y :: ns) st) st es ↔
  ∃ es₁ es₂ d s events, es = es₁ ++ es₂ ∧ mention load (root dn) y st = .ok (d, s) ∧
  s.log = st.log ++ events ∧ Traces es₁ events ∧
  Follows (loadNeeded load root (dn.append d) ns s) s es₂ := by
  constructor
  · rintro ⟨d', st', events, hru, he, ht, hne⟩
    obtain ⟨d, s, h, hr⟩ := loadNeeded_cons_eq_ok hru
    obtain ⟨ev, he₁⟩ := mention_grows hl h
    obtain ⟨e, he₂⟩ := loadNeeded_grows hl hr
    rw [he₂, he₁, List.append_assoc, append_cancel_left_eq] at he
    subst he
    obtain ⟨es₁, es₂, rfl, ht₁, ht₂⟩ := ht.split
    refine ⟨es₁, es₂, d, s, ev, rfl, h, he₁, ht₁, d', st', e, hr, he₂, ht₂, ?_⟩
    rwa [he₁, loads_append, ht₁.loads_eq, List.append_assoc, ← firsts_append]
  · rintro ⟨es₁, es₂, d, s, events, rfl, hru, he, ht, d', st', events', hru', he', ht', hne⟩
    refine ⟨d', st', events ++ events', ?_, ?_, rel_append ht ht', ?_⟩
    · rw [loadNeeded, hru]
      exact hru'
    · rw [he', he, List.append_assoc]
    · rwa [he, loads_append, ht.loads_eq, List.append_assoc, ← firsts_append] at hne

theorem Known.mention {l : List Name} {es : List (Entry Name)}
  {r r' : Dependencies} (hk : Known l r)
  (hr : marks r' = marks r ++ es.map entryMark ∨ marks r' = marks r) :
  Known (l ++ firsts es) r' := by
  intro x hx
  rcases hr with hr | hr
  · rw [hr] at hx
    obtain hx | hx := mem_append.mp hx
    · exact mem_append_left _ (hk x hx)
    · exact mem_append_right _ (image_mem_map_entryMark hx)
  · rw [hr] at hx
    exact mem_append_left _ (hk x hx)

theorem loadNeeded_follows_iff (hlo : Logs load) (hsh : Shows load)
  {v : List Name → Name → Option (List (Entry Name))}
  (hf : ∀ s y es, v s y = some es → es.head? = some (.first y)) {o : Bool}
  (hro : ∀ dn d, marks (root (Forest.append dn d)) =
  if o then marks (root dn) ++ marks d else marks (root dn))
  (hv : ∀ y ∈ ns, ∀ root, Visits load v root y)
  (hs : ∀ y ∈ ns, ∀ root, Starts load root y) (hn : (loads st.log).Nodup)
  (hk : Known (loads st.log) (root dn)) (es : List (Entry Name)) :
  (∃ bs, blocks v (loads st.log) ns = some bs ∧
  CleanBlocks o (marks (root dn)) bs ∧ bs.flatten = es) ↔
  Follows (loadNeeded load root dn ns st) st es := by
  induction ns generalizing dn st es with
  | nil =>
    constructor
    · rintro ⟨bs, hbs, -, rfl⟩
      cases hbs
      refine ⟨dn, st, [], rfl, (List.append_nil _).symm, .nil, ?_⟩
      simpa [firsts] using hn
    · rintro ⟨d, st', events, hru, he, ht, -⟩
      cases hru
      rw [self_eq_append_right] at he
      subst he
      cases ht
      exact ⟨[], rfl, trivial, rfl⟩
  | cons y ns ih =>
    have hm (es₁ : List (Entry Name)) :
      (block v (loads st.log) y = some es₁ ∧ ∀ e ∈ es₁, Clean (marks (root dn)) e) ↔
      Follows (mention load (root dn) y st) st es₁ :=
      mention_follows_iff hlo (hv y mem_cons_self _) (hs y mem_cons_self _)
        (fun s es ↦ hf s y es) hn hk
    -- after the mention of `y` the rest of the row is in the same position
    have hr {d : Dependencies} {st₁ : LoadState} {es₁ : List (Entry Name)} {events : List Event}
      (hru : mention load (root dn) y st = .ok (d, st₁))
      (he : st₁.log = st.log ++ events) (ht : Traces es₁ events)
      (hne : (loads st.log ++ firsts es₁).Nodup) (es₂ : List (Entry Name)) :
      (∃ bs, blocks v (loads st.log ++ firsts es₁) ns = some bs ∧
      CleanBlocks o (if o then marks (root dn) ++ es₁.map entryMark
            else marks (root dn)) bs ∧ bs.flatten = es₂) ↔
          Follows (loadNeeded load root (dn.append d) ns st₁) st₁ es₂ := by
      have hl : loads st₁.log = loads st.log ++ firsts es₁ := by
        rw [he, loads_append, ht.loads_eq]
      have hma := hro dn d
      rw [mention_marks hlo hsh hru he ht] at hma
      have hkn : Known (loads st.log ++ firsts es₁) (root (dn.append d)) :=
        hk.mention (by rw [hma]; cases o <;> simp)
      rw [← hl] at hne hkn ⊢
      rw [← hma]
      exact ih (fun z hz ↦ hv z (mem_cons_of_mem _ hz)) (fun z hz ↦ hs z (mem_cons_of_mem _ hz))
        hne hkn es₂
    rw [follows_cons_iff hlo]
    constructor
    · rintro ⟨bs, hbs, hc, rfl⟩
      obtain ⟨es₁, xs, h, hb, rfl⟩ := blocks_cons_eq_some.mp hbs
      obtain ⟨d, st₁, events, hru, he, ht, hne⟩ := (hm es₁).mp ⟨h, hc.1⟩
      exact ⟨es₁, xs.flatten, d, st₁, events, flatten_cons, hru, he, ht,
        (hr hru he ht hne _).mp ⟨xs, hb, hc.2, rfl⟩⟩
    · rintro ⟨es₁, es₂, d, st₁, events, rfl, hru, he, ht, hfo⟩
      have hne : (loads st.log ++ firsts es₁).Nodup := by
        obtain ⟨-, -, -, -, -, -, hne⟩ := hfo
        rw [he, loads_append, ht.loads_eq] at hne
        exact hne.of_append_left
      obtain ⟨h, hc⟩ := (hm es₁).mpr ⟨d, st₁, events, hru, he, ht, hne⟩
      obtain ⟨xs, hb, hcl, rfl⟩ := (hr hru he ht hne es₂).mpr hfo
      exact ⟨es₁ :: xs, blocks_cons_eq_some.mpr ⟨es₁, xs, h, hb, rfl⟩, ⟨hc, hcl⟩, rfl⟩

end

open List

namespace World

variable {w : World} {n : ℕ} {y : Name}

theorem logs (w : World) (n : ℕ) : Logs fun root ↦ w.load n (some root) :=
  fun _ _ _ _ _ h ↦ exists_log_append h

variable {root : Option Dependencies}

theorem load_succ_of_plain {e : ElfImage} (st : LoadState) (hv : isVdso y = false)
  (he : w.initrd y = some e) : w.load (n + 1) root y st =
  (loadNeeded (fun root ↦ w.load n (some root)) (rootOf root (w.place y e st).1) .nil
  e.needed (w.place y e st).2).map fun p ↦ (⟨(w.place y e st).1, p.1⟩, p.2) := by
  rw [load, hv, if_neg Bool.false_ne_true, he]

theorem starts (hp : w.Plain y) (r : Dependencies) : Starts (fun r ↦ w.load n (some r)) r y := by
  intro st e st' h
  cases n with
  | zero => cases h
  | succ n =>
    obtain ⟨hv, hq⟩ | ⟨el, d, -, hel, hr, -⟩ := load_succ_eq_ok h
    · obtain rfl | hp := hp y .refl
      · obtain ⟨rfl, rfl⟩ := Prod.mk.inj hq
        exact ⟨_, [], w.preload_log _ st, .vdso⟩
      · rw [hp.1] at hv
        cases hv
    · obtain ⟨events, he⟩ := loadNeeded_grows (w.logs n) hr
      refine ⟨.loaded y (el.range st.binaryBase), events, ?_, .first y _⟩
      rw [he, place_log, List.append_assoc]
      rfl

theorem shows (w : World) (n : ℕ) : Shows fun root ↦ w.load n (some root) := by
  induction n with
  | zero =>
    intro root y st e st' events es h
    cases h
  | succ n ih =>
    intro root y st e st' events es h he ht
    obtain ⟨-, hq⟩ | ⟨elf, d, -, -, hr, rfl⟩ := load_succ_eq_ok h
    · cases hq
      change st.log ++ [.preloaded y] = st.log ++ events at he
      rw [append_cancel_left_eq] at he
      subst he
      obtain _ | ⟨⟨⟩, ⟨⟩⟩ := ht
      rfl
    · obtain ⟨events', he'⟩ := loadNeeded_grows (w.logs n) hr
      rw [he', place_log, List.append_assoc, append_cancel_left_eq] at he
      subst he
      obtain _ | ⟨⟨⟩, ht⟩ := ht
      have hm := loadNeeded_marks (w.logs n) ih hr he' ht
      simp only [marks, hm, nil_append, List.append_nil, map_cons]
      rfl

theorem loads_place (w : World) (y : Name) (e : ElfImage) (st : LoadState) :
  loads (w.place y e st).2.log = loads st.log ++ [y] := by
  rw [place_log, loads_append]
  rfl

variable {st : LoadState}

theorem place_follows_iff {el : ElfImage} {es : List (Entry Name)} (hv : isVdso y = false)
  (h : w.initrd y = some el) :
  Follows (w.load (n + 1) root y st) st es ↔ ∃ es', es = .first y :: es' ∧
  Follows (loadNeeded (fun root ↦ w.load n (some root)) (rootOf root (w.place y el st).1) .nil
  el.needed (w.place y el st).2) (w.place y el st).2 es' := by
  rw [load_succ_of_plain st hv h]
  constructor
  · rintro ⟨e, st', events, hr, he, ht, hn⟩
    cases hl : loadNeeded (fun root ↦ w.load n (some root))
      (rootOf root (w.place y el st).1) .nil el.needed (w.place y el st).2 with
    | error e =>
      rw [hl] at hr
      cases hr
    | ok p =>
      rw [hl] at hr
      cases hr
      obtain ⟨events', he'⟩ := loadNeeded_grows (w.logs n) hl
      have heq := he
      rw [he', place_log, List.append_assoc, append_cancel_left_eq] at heq
      subst heq
      obtain _ | ⟨⟨⟩, ht⟩ := ht
      refine ⟨_, rfl, p.1, p.2, events', rfl, he', ht, ?_⟩
      rw [loads_place, List.append_assoc]
      exact hn
  · rintro ⟨es', rfl, d, st', events, hr, he, ht, hn⟩
    rw [hr]
    refine ⟨_, st', .loaded y (el.range st.binaryBase) :: events, rfl, ?_,
      .cons (.first y _) ht, ?_⟩
    · rw [he, place_log, List.append_assoc]
      rfl
    · rw [loads_place, List.append_assoc] at hn
      exact hn

theorem visit_head? {succ : Name → List Name} (n : ℕ) (seen : List Name) (y : Name)
  (es : List (Entry Name)) (h : visit succ n seen y = some es) : es.head? = some (.first y) := by
  cases n with
  | zero => cases h
  | succ n =>
    obtain ⟨bs, -, rfl⟩ := visit_succ_eq_some.mp h
    rfl

theorem vdsoName_follows_iff {es : List (Entry Name)} (hn : (loads st.log).Nodup)
  (hne : vdsoName ∉ loads st.log) :
  es = [.first vdsoName] ↔ Follows (w.load (n + 1) root vdsoName st) st es := by
  rw [load, show isVdso vdsoName = true by decide, if_pos rfl]
  constructor
  · intro h
    subst h
    refine ⟨_, _, [.preloaded vdsoName], rfl, rfl, .cons .vdso .nil, ?_⟩
    exact hn.append (nodup_singleton _) (by simpa [firsts] using hne)
  · rintro ⟨e, st', events, hr, he, ht, -⟩
    cases hr
    change st.log ++ [.preloaded vdsoName] = st.log ++ events at he
    rw [append_cancel_left_eq] at he
    subst he
    obtain _ | ⟨⟨⟩, ⟨⟩⟩ := ht
    rfl

theorem load_follows_iff (hp : w.Plain y) (h : ∀ z ∈ w.needed y, ∀ root,
  Visits (fun root ↦ w.load n (some root)) (visit w.needed n) root z)
  (hn : (loads st.log).Nodup) (hy : y ∉ loads st.log)
  (hk : ∀ d, root = some d → Known (loads st.log) d) (es : List (Entry Name)) :
  (∃ bs, blocks (visit w.needed n) (loads st.log ++ [y]) (w.needed y) = some bs ∧
  CleanBlocks root.isNone ((root.map marks).getD [.image y]) bs ∧ es = .first y :: bs.flatten) ↔
  Follows (w.load (n + 1) root y st) st es := by
  obtain rfl | ⟨hv, hso⟩ := hp y .refl
  · rw [← vdsoName_follows_iff hn hy, needed, if_pos rfl]
    simp [blocks, CleanBlocks]
  obtain ⟨e, he⟩ := Option.isSome_iff_exists.mp hso
  have hne := w.needed_eq hv he
  have hs (z : Name) (hz : z ∈ e.needed) (root : Dependencies) :
    Starts (fun root ↦ w.load n (some root)) root z :=
    starts (hp.of_needed (hne ▸ hz)) root
  have hm : marks (rootOf root (w.place y e st).1 .nil) = (root.map marks).getD [.image y] := by
    cases root <;> rfl
  have hr (dn d : Dependencies) : marks (rootOf root (w.place y e st).1 (dn.append d)) =
      if root.isNone then marks (rootOf root (w.place y e st).1 dn) ++ marks d
      else marks (rootOf root (w.place y e st).1 dn) := by
    cases root with
    | none => simp [rootOf, marks, marks_append]
    | some d => rfl
  have hn' : (loads (w.place y e st).2.log).Nodup := by
    rw [loads_place]
    exact hn.append (nodup_singleton y) (by simpa using hy)
  have hk' : Known (loads (w.place y e st).2.log) (rootOf root (w.place y e st).1 .nil) := by
    rw [loads_place]
    cases root with
    | none =>
      intro x hx
      cases mem_singleton.mp hx
      exact mem_append_right _ mem_cons_self
    | some d => exact fun x hx ↦ mem_append_left _ (hk d rfl x hx)
  rw [place_follows_iff hv he]
  simp only [← loadNeeded_follows_iff (w.logs n) (w.shows n) (visit_head? n) hr
    (hne ▸ h) hs hn' hk']
  rw [hne, loads_place, hm]
  constructor
  · rintro ⟨bs, hbs, hc, rfl⟩
    exact ⟨_, rfl, bs, hbs, hc, rfl⟩
  · rintro ⟨_, rfl, bs, hbs, hc, rfl⟩
    exact ⟨bs, hbs, hc, rfl⟩

theorem visits (n : ℕ) (hp : w.Plain y) (r : Dependencies) :
  Visits (fun r ↦ w.load n (some r)) (visit w.needed n) r y := by
  induction n generalizing y r with
  | zero =>
    intro st es _ _ _
    simp [visit, load, Follows]
  | succ n ih =>
    intro st es hn hy hk
    rw [← load_follows_iff hp (fun z hz ↦ ih (hp.of_needed hz)) hn hy
      (by simpa using hk), visit_succ_eq_some]
    constructor
    · rintro ⟨⟨bs, hbs, rfl⟩, hc⟩
      exact ⟨bs, hbs, cleanBlocks_false_iff.mpr hc, rfl⟩
    · rintro ⟨bs, hbs, hc, rfl⟩
      exact ⟨⟨bs, hbs, rfl⟩, cleanBlocks_false_iff.mp hc⟩

end World

end ReaverOS.Bootinit
