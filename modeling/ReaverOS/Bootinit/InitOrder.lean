import ReaverOS.Bootinit.Images
import ReaverOS.Foundation.Breadth
import ReaverOS.Foundation.Recency
import ReaverOS.Rosestd.Rotate

namespace ReaverOS.Bootinit

open Foundation Fallible List

section

open Foundation.Recency

structure InitOrder where
  remaining : ℕ
  filled : List ℕ
  deriving DecidableEq

/-- `rotate` of the places up to and with the `k`-th, the last of which comes to the front. -/
abbrev Rotation := List ℕ → ℕ → Except Fault (List ℕ)

/-- As the C++ standard has it. -/
def standardRotate : Rotation := fun l k ↦
  .ok ((l.drop k).take 1 ++ (l.take k ++ l.drop (k + 1)))

def rosestdRotate (fuel : ℕ) : Rotation := fun l k ↦
  match Rosestd.Rotate.rotate .randomAccess (fuel + 1) l 0 k (k + 1) with
  | some (l, _) => .ok l
  | none => .error .unfinished

variable (rotate : Rotation)

def meet (o : InitOrder) (x : ℕ) : Except Fault InitOrder :=
  let k := o.filled.idxOf x
  if k = o.filled.length then
    match o.remaining with
    | 0 => .error .outOfBounds
    | r + 1 => .ok ⟨r, x :: o.filled⟩
  else (rotate o.filled k).map fun filled ↦ { o with filled }

def meetAll : List ℕ → InitOrder → Except Fault InitOrder
  | [], o => .ok o
  | x :: xs, o => meet rotate o x >>= meetAll xs

def computeInitOrderAtDepth : Dependencies → ℕ → InitOrder → Except Fault InitOrder
  | d, 0, o => meetAll rotate (d.row Loaded.id) o
  | .nil, _ + 1, o => .ok o
  | .tree _ c r, n + 1, o => computeInitOrderAtDepth c n o >>= computeInitOrderAtDepth r (n + 1)
  | .link _ r, n + 1, o => computeInitOrderAtDepth r (n + 1) o

def computeInitOrderTo (d : Dependencies) : List ℕ → InitOrder → Except Fault InitOrder
  | [], o => .ok o
  | i :: is, o => computeInitOrderAtDepth rotate d i o >>= computeInitOrderTo d is

def LoadedElf.computeInitOrderBy (e : LoadedElf) : Except Fault (List ℕ) := do
  let imageCount := e.count
  let o ← computeInitOrderTo rotate e.dependencies (List.range e.depth)
    ⟨imageCount - 1, [e.image.id]⟩
  if o.remaining ≠ 0 then .error .unfilled else .ok o.filled

def LoadedElf.computeInitOrder (e : LoadedElf) : Except Fault (List ℕ) :=
  e.computeInitOrderBy standardRotate

def mentionsAt (d : Dependencies) : ℕ → List ℕ
  | 0 => d.row Loaded.id
  | n + 1 => (d.level n).flatMap fun p ↦ p.2.row Loaded.id

def LoadedElf.mentions (e : LoadedElf) : List ℕ :=
  (List.range e.depth).flatMap (mentionsAt e.dependencies)

theorem meetAll_append (xs ys : List ℕ) (o : InitOrder) :
  meetAll rotate (xs ++ ys) o = meetAll rotate xs o >>= meetAll rotate ys := by
  induction xs generalizing o with
  | nil => rfl
  | cons x xs ih =>
    rw [cons_append, meetAll, meetAll]
    cases meet rotate o x with
    | error e => rfl
    | ok o' => exact ih o'

theorem computeInitOrderAtDepth_succ (d : Dependencies) (n : ℕ) (o : InitOrder) :
  computeInitOrderAtDepth rotate d (n + 1) o = meetAll rotate (mentionsAt d (n + 1)) o := by
  induction d generalizing n o with
  | nil => rfl
  | tree a c r i ihr =>
    have hc : computeInitOrderAtDepth rotate c n o = meetAll rotate (mentionsAt c n) o := by
      cases n with
      | zero => rw [computeInitOrderAtDepth, mentionsAt]
      | succ n => exact i n o
    have hm : mentionsAt (.tree a c r) (n + 1) = mentionsAt c n ++ mentionsAt r (n + 1) := by
      cases n <;> simp [mentionsAt, Forest.level]
    rw [computeInitOrderAtDepth, hc, hm, meetAll_append]
    exact congrArg _ (funext fun o ↦ ihr n o)
  | link t r ih =>
    rw [computeInitOrderAtDepth, ih]
    simp only [mentionsAt, Forest.level]

theorem computeInitOrderAtDepth_eq (d : Dependencies) (n : ℕ) (o : InitOrder) :
  computeInitOrderAtDepth rotate d n o = meetAll rotate (mentionsAt d n) o := by
  cases n with
  | zero => rw [computeInitOrderAtDepth, mentionsAt]
  | succ n => exact computeInitOrderAtDepth_succ rotate d n o

theorem computeInitOrderTo_eq (d : Dependencies) (is : List ℕ) (o : InitOrder) :
  computeInitOrderTo rotate d is o = meetAll rotate (is.flatMap (mentionsAt d)) o := by
  induction is generalizing o with
  | nil => rfl
  | cons i is ih =>
    rw [computeInitOrderTo, computeInitOrderAtDepth_eq, flatMap_cons, meetAll_append]
    exact congrArg _ (funext ih)

theorem standardRotate_idxOf {l : List ℕ} {x : ℕ} (h : x ∈ l) :
  standardRotate l (l.idxOf x) = .ok (toFront l x) := by
  have hlt := idxOf_lt_length_of_mem h
  rw [standardRotate, toFront, erase_eq_eraseIdx_of_idxOf rfl, eraseIdx_eq_take_drop_succ,
    drop_eq_getElem_cons hlt]
  simp

section Rosestd

variable {fuel : ℕ} {o o' : InitOrder} {done : List ℕ}

end Rosestd

structure Filling (ids : List ℕ) (size : ℕ) (o : InitOrder) : Prop where
  nodup : o.filled.Nodup
  subset : o.filled ⊆ ids
  size_eq : o.remaining + o.filled.length = size

theorem Filling.meet_eq {ids : List ℕ} {z : ℕ} {o : InitOrder} {x : ℕ}
  (h : Filling ids z o) (hsi : ids.length ≤ z) (hx : x ∈ ids) :
  ∃ r, meet standardRotate o x = .ok ⟨r, toFront o.filled x⟩ ∧
  Filling ids z ⟨r, toFront o.filled x⟩ := by
  have hn := nodup_toFront h.nodup x
  have hs : toFront o.filled x ⊆ ids := by
    intro y hy
    obtain rfl | hy := mem_toFront.mp hy
    · exact hx
    · exact h.subset hy
  rw [meet]
  by_cases hm : x ∈ o.filled
  · have hlt := idxOf_lt_length_of_mem hm
    refine ⟨o.remaining, ?_, hn, hs, ?_⟩
    · simp only [hlt.ne, if_false, standardRotate_idxOf hm]
      rfl
    · have hl := h.size_eq
      have hp := length_pos_of_mem hm
      simp only [toFront, length_cons, length_erase_of_mem hm]
      omega
  · have he : toFront o.filled x = x :: o.filled := by
      rw [toFront, erase_of_not_mem hm]
    have hl := (subperm_of_subset hn hs).length_le
    have hre := h.size_eq
    rw [he] at hn hs hl ⊢
    rw [length_cons] at hl
    obtain ⟨r, hr⟩ := Nat.exists_eq_succ_of_ne_zero (show o.remaining ≠ 0 by omega)
    refine ⟨r, ?_, hn, hs, ?_⟩
    · simp only [idxOf_of_notMem hm, if_true, hr]
    · simp only [length_cons]
      omega

theorem Filling.meetAll_eq {i : List ℕ} {z : ℕ} {o : InitOrder} {xs : List ℕ}
  (h : Filling i z o) (hs : i.length ≤ z) (hxs : xs ⊆ i) :
  ∃ r, meetAll standardRotate xs o = .ok ⟨r, xs.foldl toFront o.filled⟩ ∧
  Filling i z ⟨r, xs.foldl toFront o.filled⟩ := by
  induction xs generalizing o with
  | nil => exact ⟨o.remaining, rfl, h⟩
  | cons x xs ih =>
    obtain ⟨hx, hxs⟩ := cons_subset.mp hxs
    obtain ⟨r, hm, hf⟩ := h.meet_eq hs hx
    rw [meetAll, hm]
    exact ih hf hxs

theorem LoadedElf.mem_mentions_iff (e : LoadedElf) {x : ℕ} :
  x ∈ e.mentions ↔ ∃ p ∈ e.nodes, x ∈ p.2.row Loaded.id := by
  have hh := height_le_ownedDepth true e.dependencies
  rw [mentions, depth, range_succ_eq_map, flatMap_cons, mem_append, nodes, flatMap_map]
  simp only [mem_cons, exists_eq_or_imp, mentionsAt]
  apply or_congr Iff.rfl
  rw [← flatMap_assoc, mem_flatMap]
  apply exists_congr
  intro p
  rw [Forest.mem_flatMap_level_iff hh]

namespace LoadedImages

theorem mentions_subset (s : LoadedImages) : s.mentions ⊆ s.ids := by
  intro x hx
  obtain ⟨p, hp, hx⟩ := s.mem_mentions_iff.mp hx
  exact s.row_subset_ids hp hx

theorem foldl_mentions_perm (s : LoadedImages) :
  (s.mentions.foldl toFront [s.image.id]).Perm s.ids := by
  rw [perm_ext_iff_of_nodup (nodup_foldl_toFront _ (nodup_singleton _)) s.nodup]
  intro x
  rw [mem_foldl_toFront, mem_singleton]
  constructor
  · intro h
    obtain h | rfl := h
    · exact s.mentions_subset h
    · exact mem_cons_self
  · intro h
    rw [s.mem_mentions_iff]
    exact (s.mem_ids_cases h).symm

theorem computeInitOrder_eq (s : LoadedImages) :
  s.computeInitOrder = if misreads true s.dependencies = 0 then
  .ok (s.mentions.foldl toFront [s.image.id]) else .error .unfilled := by
  have hc := s.count_eq
  have hp : 0 < s.ids.length := length_pos_of_mem mem_cons_self
  have hs : Filling s.ids s.count ⟨s.count - 1, [s.image.id]⟩ := by
    refine ⟨nodup_singleton _, ?_, ?_⟩
    · exact cons_subset.mpr ⟨mem_cons_self, nil_subset _⟩
    · simp only [length_singleton]
      omega
  obtain ⟨r, h, hf⟩ := hs.meetAll_eq (by omega) s.mentions_subset
  have hl := s.foldl_mentions_perm.length_eq
  have hsi := hf.size_eq
  rw [LoadedElf.computeInitOrder, LoadedElf.computeInitOrderBy, computeInitOrderTo_eq]
  change (meetAll _ s.mentions _ >>= _) = _
  rw [h]
  simp only [ok_bind] at hsi ⊢
  have hr : r = misreads true s.dependencies := by omega
  rw [hr]
  split <;> simp_all

def Respects (s : LoadedImages) (order : List ℕ) : Prop :=
  ∀ y x, Relation.TransGen s.DependsOn y x → Before order x y

theorem respects_iff (s : LoadedImages) (od : List ℕ) :
  s.Respects od ↔ ∀ y x, s.DependsOn y x → Before od x y := by
  constructor
  · intro h y x hy
    exact h y x (.single hy)
  · intro h y x hy
    induction hy with
    | single hy => exact h _ _ hy
    | tail _ hl ih => exact lt_trans (h _ _ hl) ih

theorem initOrder_respects_iff (s : LoadedImages) :
    (∃ order, s.computeInitOrder = .ok order ∧ order.Perm s.ids ∧ s.Respects order) ↔ s.OwnedFirst ∧
        ∀ y x, s.DependsOn y x → Before (s.mentions.reverse ++ [s.image.id]) x y := by
  rw [s.computeInitOrder_eq, ← s.misreads_eq_zero_iff]
  simp only [respects_iff, ← before_foldl_toFront]
  split
  · rename_i hz
    constructor
    · rintro ⟨order, hok, -, hr⟩
      cases hok
      exact ⟨hz, hr⟩
    · intro h
      exact ⟨_, rfl, s.foldl_mentions_perm, h.2⟩
  · rename_i hz
    constructor
    · rintro ⟨order, hok, -⟩
      cases hok
    · intro h
      exact absurd h.1 hz

theorem acyclic_of_ascending (s : LoadedImages)
  (h : ∀ p ∈ s.nodes, ∀ x ∈ p.2.row Loaded.id, p.1.id < x) (x : ℕ) :
  ¬ Relation.TransGen s.DependsOn x x := by
  have hlt (y x : ℕ) (hy : Relation.TransGen s.DependsOn y x) : y < x := by
    induction hy with
    | single hy =>
      obtain ⟨p, hp, rfl, hx⟩ := hy
      exact h p hp _ hx
    | tail _ hl ih =>
      obtain ⟨p, hp, rfl, hx⟩ := hl
      exact ih.trans (h p hp _ hx)
  intro hx
  exact (hlt x x hx).false

def metAgainElf : LoadedElf where
  image := ⟨0, ['r'], {}, 0, []⟩
  dependencies :=
    .tree ⟨2, ['a'], {}, 0, []⟩ (.tree ⟨3, ['w'], {}, 0, []⟩ .nil .nil)
      (.tree ⟨1, ['b'], {}, 0, []⟩ (.tree ⟨4, ['x'], {}, 0, []⟩ .nil (.link 2 .nil)) .nil)

theorem metAgainElf_nodup : metAgainElf.ids.Nodup := by
  decide

theorem metAgainElf_linked : metAgainElf.dependencies.links ⊆ metAgainElf.ids := by
  decide

def metAgain : LoadedImages :=
  ⟨metAgainElf, metAgainElf_nodup, metAgainElf_linked⟩

def pointerFirstElf : LoadedElf where
  image := ⟨0, ['r'], {}, 0, []⟩
  dependencies :=
    .tree ⟨2, ['a'], {}, 0, []⟩ .nil (.tree ⟨1, ['b'], {}, 0, []⟩ (.link 2 .nil) .nil)

theorem pointerFirstElf_nodup : pointerFirstElf.ids.Nodup := by
  decide

theorem pointerFirstElf_linked : pointerFirstElf.dependencies.links ⊆ pointerFirstElf.ids := by
  decide

def pointerFirst : LoadedImages :=
  ⟨pointerFirstElf, pointerFirstElf_nodup, pointerFirstElf_linked⟩

theorem not_initOrder_respects :
    (∀ x, ¬ Relation.TransGen metAgain.DependsOn x x) ∧ metAgain.OwnedFirst ∧
      metAgain.computeInitOrder = .ok [2, 4, 3, 1, 0] ∧ ¬ metAgain.Respects [2, 4, 3, 1, 0] ∧
      (∀ x, ¬ Relation.TransGen pointerFirst.DependsOn x x) ∧
      pointerFirst.computeInitOrder = .error .unfilled := by
  refine ⟨metAgain.acyclic_of_ascending (by decide), ?_, rfl, ?_,
    pointerFirst.acyclic_of_ascending (by decide), rfl⟩
  · rw [← LoadedElf.misreads_eq_zero_iff]
    rfl
  · intro h
    have hd : metAgain.DependsOn 2 3 :=
      ⟨(⟨2, ['a'], {}, 0, []⟩, .tree ⟨3, ['w'], {}, 0, []⟩ .nil .nil), by decide, rfl, by decide⟩
    exact absurd (h 2 3 (.single hd)) (by decide)

end LoadedImages

abbrev Message := ℕ × ℕ

def visitAll (table : ElfImage → Option FunctionTable) (initOrder : List Loaded) : List Message :=
  initOrder.filterMap fun a ↦
    (table a.elf).map fun t ↦ (a.elfBase + t.offset, a.elfBase + t.offset + t.byteSize)

def visitAllPreinits : List Loaded → List Message :=
  visitAll ElfImage.preinit

def visitAllInits : List Loaded → List Message :=
  visitAll ElfImage.init

def visitAllFinis (initOrder : List Loaded) : List Message :=
  visitAll ElfImage.fini initOrder.reverse

namespace LoadedElf

def tableCount (table : ElfImage → Option FunctionTable) (e : LoadedElf) : ℕ :=
  let own := fun a : Loaded ↦ if (table a.elf).isSome then 1 else 0
  own e.image + ownedSum own 0 true e.dependencies

def preinitCount : LoadedElf → ℕ :=
  tableCount ElfImage.preinit

def initCount : LoadedElf → ℕ :=
  tableCount ElfImage.init

def finiCount : LoadedElf → ℕ :=
  tableCount ElfImage.fini

def image? (e : LoadedElf) (id : ℕ) : Option Loaded :=
  e.images.find? fun a ↦ a.id = id

def sendRuntimeInitialization (e : LoadedElf) : Except Fault (List Message) := do
  let order ← e.computeInitOrderBy rotate
  let initOrder := order.filterMap e.image?
  .ok ((e.preinitCount + e.initCount, 0) ::
    (visitAllPreinits initOrder ++ (visitAllInits initOrder ++
      ((e.finiCount, 0) :: visitAllFinis initOrder))))

end LoadedElf

def runCtors : ℕ → ℕ → ℕ → List ℕ
  | 0, _, _ => []
  | n + 1, ctor, last => if ctor < last then ctor :: runCtors n (ctor + 8) last else []

def ctors (range : Message) : List ℕ :=
  runCtors (range.2 - range.1) range.1 range.2

/-- The loop of `__init`: what it runs and what it leaves unread. Without a message to read the
process does not get past the read. -/
def readRanges : ℕ → List Message → Option (List ℕ × List Message)
  | 0, unread => some ([], unread)
  | _ + 1, [] => none
  | n + 1, range :: unread => (readRanges n unread).map fun p ↦ (ctors range ++ p.1, p.2)

def rosertInit : List Message → Option (List ℕ × List Message)
  | [] => none
  | (initCount, _) :: unread => readRanges initCount unread

namespace LoadedElf

end LoadedElf

namespace LoadedImages

theorem image?_id (s : LoadedImages) {a : Loaded} (h : a ∈ s.images) : s.image? a.id = some a := by
  obtain ⟨b, hb⟩ := Option.isSome_iff_exists.mp
    (find?_isSome.mpr ⟨a, h, decide_eq_true_iff.mpr rfl⟩ : (s.image? a.id).isSome)
  have hid : b.id = a.id := by simpa using find?_some hb
  have heq : b = a := inj_on_of_nodup_map s.nodup (mem_of_find?_eq_some hb) h hid
  rw [LoadedElf.image?, hb, heq]

/-- Loader and runtime agree on the counts; the arrays are run once in the order of initialization,
and the fini arrays are left in the reverse order. -/
def Agrees (s : LoadedImages) : Prop :=
  ∃ fuel, ∃ order : List Loaded, order.Perm s.images ∧
    s.computeInitOrderBy (rosestdRotate fuel) = .ok (order.map Loaded.id) ∧
    ∃ initRanges finiRanges : List Message,
      initRanges = visitAllPreinits order ++ visitAllInits order ∧
      finiRanges = visitAllFinis order ∧
      ∃ sent, s.sendRuntimeInitialization (rosestdRotate fuel) = .ok sent ∧
        sent = (initRanges.length, 0) :: (initRanges ++ ((finiRanges.length, 0) :: finiRanges)) ∧
        rosertInit sent = some (initRanges.flatMap ctors, (finiRanges.length, 0) :: finiRanges)

end LoadedImages

end

open Foundation.Breadth

/-- `symbols()` runs from entry 1 to the size of the table. Without a table that end lies behind
it. -/
def ElfImage.symbols (elf : ElfImage) : Except Fault (List Symbol) :=
  match elf.symtab with
  | [] => .error .outOfBounds
  | _ :: entries => .ok entries

def firstFound {α β : Type} (f : α → Except Fault (Option β)) : List α → Except Fault (Option β)
  | [] => .ok none
  | x :: xs => do
    match ← f x with
    | some b => .ok (some b)
    | none => firstFound f xs

def Loaded.definition (wanted : Name → Bool) (a : Loaded) : Option ℕ :=
  (a.elf.symtab.tail.find? fun s ↦ wanted s.name && s.isDefined).map fun s ↦ a.elfBase + s.value

def Loaded.findSymbol (name : Name) (a : Loaded) : Except Fault (Option ℕ) := do
  let symbols ← a.elf.symbols
  .ok ((symbols.find? fun s ↦ StringView.equal s.name name && s.isDefined).map fun s ↦
    a.elfBase + s.value)

namespace LoadedElf

def node? (e : LoadedElf) (id : ℕ) : Option (Loaded × Dependencies) :=
  e.nodes.find? fun p ↦ p.1.id = id

def allDependencies (e : LoadedElf) : Dependencies → List (Loaded × Dependencies)
  | .nil => []
  | .tree a c r => (a, c) :: e.allDependencies r
  | .link t r => (e.node? t).toList ++ e.allDependencies r

def findSymbolDefinitionAtDepth (e : LoadedElf) (name : Name) :
  ℕ → Loaded × Dependencies → Except Fault (Option ℕ)
  | 0, p => p.1.findSymbol name
  | n + 1, p => firstFound (e.findSymbolDefinitionAtDepth name n) (e.allDependencies p.2)

def findSymbolDefinition (e : LoadedElf) (name : Name) (depth : ℕ) : Except Fault (Option ℕ) :=
  firstFound (fun i ↦ e.findSymbolDefinitionAtDepth name i (e.image, e.dependencies))
    (List.range depth)

end LoadedElf

def stop {β : Type} : Except Fault (Option β) → Option (Except Fault β)
  | .ok none => none
  | .ok (some b) => some (.ok b)
  | .error e => some (.error e)

def outcome {β : Type} : Option (Except Fault β) → Except Fault (Option β)
  | none => .ok none
  | some (.ok b) => .ok (some b)
  | some (.error e) => .error e

variable {β : Type}

theorem outcome_stop (r : Except Fault (Option β)) : outcome (stop r) = r := by
  obtain e | _ | b := r <;> rfl

theorem stop_outcome (r : Option (Except Fault β)) : stop (outcome r) = r := by
  obtain _ | e | b := r <;> rfl

theorem firstFound_eq {α : Type} (f : α → Except Fault (Option β)) (l : List α) :
  firstFound f l = outcome (l.findSome? fun x ↦ stop (f x)) := by
  induction l with
  | nil => rfl
  | cons x l ih =>
    rw [firstFound, findSome?_cons]
    obtain e | _ | b := f x
    · rfl
    · exact ih
    · rfl

namespace LoadedImages

variable {p : Loaded × Dependencies}

theorem node?_id (s : LoadedImages) (h : p ∈ s.nodes) : s.node? p.1.id = some p := by
  have hn : (s.nodes.map fun p ↦ p.1.id).Nodup := by
    have := s.nodup
    rwa [LoadedElf.ids, LoadedElf.images_eq_map_nodes, map_map] at this
  obtain ⟨q, hq⟩ := Option.isSome_iff_exists.mp
    (find?_isSome.mpr ⟨p, h, decide_eq_true_iff.mpr rfl⟩ : (s.node? p.1.id).isSome)
  have hid : q.1.id = p.1.id := by simpa using find?_some hq
  have heq : q = p := inj_on_of_nodup_map hn (mem_of_find?_eq_some hq) h hid
  rw [LoadedElf.node?, hq, heq]

theorem exists_node_of_mem_ids (s : LoadedImages) {i : ℕ} (h : i ∈ s.ids) :
  ∃ p ∈ s.nodes, p.1.id = i ∧ s.node? i = some p := by
  rw [LoadedElf.ids, LoadedElf.images_eq_map_nodes, map_map] at h
  obtain ⟨p, hp, rfl⟩ := mem_map.mp h
  exact ⟨p, hp, rfl, s.node?_id hp⟩

theorem image?_eq (s : LoadedImages) (i : ℕ) : s.image? i = (s.node? i).map Prod.fst := by
  rw [LoadedElf.image?, LoadedElf.images_eq_map_nodes, find?_map]
  rfl

def needs (s : LoadedImages) (i : ℕ) : List ℕ :=
  match s.node? i with
  | some p => p.2.row Loaded.id
  | none => []

theorem needs_id (s : LoadedImages) (h : p ∈ s.nodes) : s.needs p.1.id = p.2.row Loaded.id := by
  rw [needs, s.node?_id h]

theorem needs_subset_ids (s : LoadedImages) (i : ℕ) : s.needs i ⊆ s.ids := by
  rw [needs]
  split
  · rename_i p hp
    exact s.row_subset_ids (mem_of_find?_eq_some hp)
  · exact nil_subset _

theorem allDependencies_eq (s : LoadedImages) {d : Dependencies} (h : d.nodes ⊆ s.nodes) :
  s.allDependencies d = (d.row Loaded.id).filterMap s.node? := by
  induction d with
  | nil => rfl
  | tree a c r _ i =>
    obtain ⟨ha, hr⟩ := cons_subset.mp h
    rw [LoadedElf.allDependencies, Forest.row, filterMap_cons, s.node?_id ha,
      i (List.Subset.trans (subset_append_right _ _) hr)]
  | link t r ih =>
    rw [LoadedElf.allDependencies, Forest.row, filterMap_cons, ih h]
    cases s.node? t <;> rfl

def look (s : LoadedImages) (name : Name) (i : ℕ) : Option (Except Fault ℕ) :=
  (s.image? i).bind fun a ↦ stop (a.findSymbol name)

theorem findSymbolDefinitionAtDepth_eq (s : LoadedImages) (nm : Name) (n : ℕ) (h : p ∈ s.nodes) :
  s.findSymbolDefinitionAtDepth nm n p =
  outcome ((walks s.needs n p.1.id).findSome? (s.look nm)) := by
  induction n generalizing p with
  | zero =>
    rw [LoadedElf.findSymbolDefinitionAtDepth, walks, findSome?_singleton, look, image?_eq,
      s.node?_id h, Option.map_some, Option.bind_some, outcome_stop]
  | succ n ih =>
    rw [LoadedElf.findSymbolDefinitionAtDepth, firstFound_eq,
      s.allDependencies_eq (s.nodes_sub h).1, walks, s.needs_id h, findSome?_flatMap]
    refine congrArg _ ?_
    have hro := s.row_subset_ids h
    generalize p.2.row Loaded.id = r at hro ⊢
    induction r with
    | nil => rfl
    | cons i r ihr =>
      obtain ⟨hi, hr⟩ := cons_subset.mp hro
      obtain ⟨q, hq, rfl, hn⟩ := s.exists_node_of_mem_ids hi
      rw [filterMap_cons, hn, findSome?_cons, findSome?_cons, ih hq, stop_outcome, ihr hr]

theorem mem_walks_of_mem_level (s : LoadedImages) {n : ℕ} {q : Loaded × Dependencies}
  (hp : p ∈ s.nodes) (hq : q ∈ p.2.level n) : q.1.id ∈ walks s.needs (n + 1) p.1.id := by
  induction n generalizing p with
  | zero =>
    rw [walks, s.needs_id hp, mem_flatMap]
    exact ⟨_, Forest.key_mem_row_of_mem_level_zero _ hq, mem_singleton_self _⟩
  | succ n ih =>
    obtain ⟨t, ht, hq⟩ := Forest.exists_mem_level_zero hq
    rw [walks, s.needs_id hp, mem_flatMap]
    have hm : t ∈ s.nodes := (s.nodes_sub hp).1 (Forest.mem_nodes_iff.mpr ⟨0, ht⟩)
    exact ⟨_, Forest.key_mem_row_of_mem_level_zero _ ht, ih hm hq⟩

theorem ids_subset_breadth (s : LoadedImages) :
  s.ids ⊆ breadth s.needs s.dependencies.height [s.image.id] [s.image.id] := by
  intro i hi
  rw [breadth_eq_fresh, mem_fresh, rings_eq_flatMap_walks, mem_flatMap]
  refine ⟨?_, not_mem_nil⟩
  obtain ⟨p, hp, rfl, -⟩ := s.exists_node_of_mem_ids hi
  obtain rfl | hp := mem_cons.mp hp
  · exact ⟨0, by simp, mem_singleton_self _⟩
  · obtain ⟨n, hn⟩ := Forest.mem_nodes_iff.mp hp
    have hlt : n < s.dependencies.height := by
      by_contra hge
      rw [Forest.level_eq_nil (by omega)] at hn
      cases hn
    exact ⟨n + 1, mem_range.mpr (by omega),
      s.mem_walks_of_mem_level (p := (s.image, s.dependencies)) mem_cons_self hn⟩

theorem breadth_eq_of_height_le (s : LoadedImages) {n : ℕ} (h : s.dependencies.height ≤ n) :
  breadth s.needs n [s.image.id] [s.image.id] =
  breadth s.needs s.dependencies.height [s.image.id] [s.image.id] := by
  obtain ⟨k, rfl⟩ := Nat.exists_eq_add_of_le h
  apply breadth_add
  intro y
  exact List.Subset.trans (s.needs_subset_ids y) s.ids_subset_breadth

def breadthFirst (s : LoadedImages) : List Loaded :=
  (breadth s.needs s.ids.length [s.image.id] [s.image.id]).filterMap s.image?

def firstDefinition (s : LoadedImages) (wanted : Name → Bool) : Option ℕ :=
  s.breadthFirst.findSome? (Loaded.definition wanted)

theorem findSymbolDefinition_eq (s : LoadedImages) (n : Name) :
  s.findSymbolDefinition n s.depth = firstFound (Loaded.findSymbol n) s.breadthFirst := by
  have hh := Forest.height_le_length s.dependencies
  have hl : s.ids.length = s.dependencies.labels.length + 1 := by
    rw [LoadedElf.ids, LoadedElf.images, length_map, length_cons]
  rw [LoadedElf.findSymbolDefinition, firstFound_eq, firstFound_eq, breadthFirst,
    s.breadth_eq_of_height_le (by omega)]
  have hd : (fun i ↦ stop (s.findSymbolDefinitionAtDepth n i (s.image, s.dependencies))) =
    fun i ↦ (walks s.needs i s.image.id).findSome? (s.look n) := by
    funext i
    rw [s.findSymbolDefinitionAtDepth_eq n i mem_cons_self, stop_outcome]
  rw [hd, ← findSome?_flatMap, ← rings_eq_flatMap_walks, LoadedElf.depth, findSome?_rings,
    s.breadth_eq_of_height_le (height_le_ownedDepth _ _)]
  refine congrArg _ ?_
  induction breadth s.needs s.dependencies.height [s.image.id] [s.image.id] with
  | nil => rfl
  | cons i l ih =>
    rw [findSome?_cons, filterMap_cons, ih, look]
    cases s.image? i with
    | none => rfl
    | some a => rw [Option.bind_some, findSome?_cons]

theorem mem_breadthFirst (s : LoadedImages) {a : Loaded} : a ∈ s.breadthFirst ↔ a ∈ s.images := by
  have hh := Forest.height_le_length s.dependencies
  have hl : s.ids.length = s.dependencies.labels.length + 1 := by
    rw [LoadedElf.ids, LoadedElf.images, length_map, length_cons]
  rw [breadthFirst, s.breadth_eq_of_height_le (by omega), mem_filterMap]
  constructor
  · rintro ⟨i, -, ha⟩
    exact mem_of_find?_eq_some ha
  · intro h
    exact ⟨a.id, s.ids_subset_breadth (mem_map_of_mem h), s.image?_id h⟩

end LoadedImages

theorem Loaded.findSymbol_eq (nm : Name) (a : Loaded) (h : a.elf.symtab ≠ []) :
  a.findSymbol nm = .ok (a.definition fun n ↦ StringView.equal n nm) := by
  obtain ⟨e, es, he⟩ := exists_cons_of_ne_nil h
  rw [findSymbol, definition, ElfImage.symbols, he]
  rfl

def Searchable (name : Name) (l : List Loaded) : Prop :=
  ∀ pre a post, l = pre ++ a :: post →
    (∀ b ∈ pre, b.definition (fun n ↦ StringView.equal n name) = none) → a.elf.symtab ≠ []

theorem searchable_cons {nm : Name} {a : Loaded} {l : List Loaded} :
  Searchable nm (a :: l) ↔ a.elf.symtab ≠ [] ∧
  (a.definition (fun n ↦ StringView.equal n nm) = none → Searchable nm l) := by
  constructor
  · intro h
    refine ⟨h [] a l rfl fun b hb ↦ absurd hb not_mem_nil, ?_⟩
    intro ha pr b po hl hp
    apply h (a :: pr) b po (by rw [hl, cons_append])
    intro c hc
    obtain rfl | hc := mem_cons.mp hc
    · exact ha
    · exact hp c hc
  · intro h pr b po hl hp
    cases pr with
    | nil =>
      cases hl
      exact h.1
    | cons c pr =>
      cases hl
      exact h.2 (hp a mem_cons_self) pr b po rfl fun d hd ↦ hp d (mem_cons_of_mem _ hd)

theorem firstFound_findSymbol_eq_ok_iff (nm : Name) (l : List Loaded) (r : Option ℕ) :
  firstFound (Loaded.findSymbol nm) l = .ok r ↔ Searchable nm l ∧
  l.findSome? (Loaded.definition fun n ↦ StringView.equal n nm) = r := by
  induction l with
  | nil =>
    have hs : Searchable nm [] := by
      intro pre a po h
      simp at h
    simp [firstFound, hs]
  | cons a l ih =>
    rw [firstFound, searchable_cons, findSome?_cons]
    by_cases ha : a.elf.symtab = []
    · rw [Loaded.findSymbol, ElfImage.symbols, ha]
      simp
    · rw [a.findSymbol_eq nm ha, ok_bind]
      cases hd : a.definition fun n ↦ StringView.equal n nm with
      | none => simpa [ha] using ih
      | some b => simp [ha]

theorem Loaded.definition_eq_none_iff (w : Name → Bool) (a : Loaded) : a.definition w = none ↔
  ∀ s ∈ a.elf.symtab.tail, s.isDefined = true → w s.name = false := by
  rw [definition, Option.map_eq_none_iff, find?_eq_none]
  apply forall₂_congr
  intro s _
  cases w s.name <;> simp

namespace LoadedImages

theorem firstDefinition_eq_none_iff (s : LoadedImages) (w : Name → Bool) :
  s.firstDefinition w = none ↔ ∀ a ∈ s.images,
  ∀ sy ∈ a.elf.symtab.tail, sy.isDefined = true → w sy.name = false := by
  rw [firstDefinition, findSome?_eq_none_iff]
  simp only [s.mem_breadthFirst, Loaded.definition_eq_none_iff]

theorem findSymbolDefinition_exact_iff (s : LoadedImages) (name : Name) :
    (∃ r, s.findSymbolDefinition name s.depth = .ok r ∧ r = s.firstDefinition (fun n ↦ n = name) ∧
      (r = none ↔ ∀ a ∈ s.images,
        ∀ sym ∈ a.elf.symtab.tail, sym.isDefined = true → sym.name ≠ name)) ↔
      Searchable name s.breadthFirst ∧ s.firstDefinition (fun n ↦ StringView.equal n name) =
          s.firstDefinition (fun n ↦ n = name) := by
  rw [s.findSymbolDefinition_eq]
  simp only [firstFound_findSymbol_eq_ok_iff]
  constructor
  · rintro ⟨r, ⟨hs, hf⟩, hr, -⟩
    exact ⟨hs, hf.trans hr⟩
  · intro h
    refine ⟨_, h, rfl, ?_⟩
    rw [s.firstDefinition_eq_none_iff]
    simp only [decide_eq_false_iff_not, ne_eq]

def confusedElf : LoadedElf where
  image := ⟨0, ['r'], { symtab := [⟨[], 0⟩] }, 0, []⟩
  dependencies :=
    .tree ⟨1, ['a'], { symtab := [⟨[], 0⟩, ⟨['f', 'o', 'o', 'b', 'a', 'r'], 16⟩] }, 4096, []⟩ .nil
      (.tree ⟨2, ['b'], { symtab := [⟨[], 0⟩, ⟨['f', 'o', 'o'], 32⟩] }, 8192, []⟩ .nil .nil)

theorem confusedElf_nodup : confusedElf.ids.Nodup := by
  decide

theorem confusedElf_linked : confusedElf.dependencies.links ⊆ confusedElf.ids := by
  decide

def confused : LoadedImages :=
  ⟨confusedElf, confusedElf_nodup, confusedElf_linked⟩

theorem not_findSymbolDefinition_exact : (∀ x, ¬ Relation.TransGen confused.DependsOn x x) ∧
      confused.findSymbolDefinition ['f', 'o', 'o'] confused.depth = .ok (some 4112) ∧
      confused.firstDefinition (fun n ↦ n = ['f', 'o', 'o']) = some 8224 ∧
      (∀ x, ¬ Relation.TransGen pointerFirst.DependsOn x x) ∧
      pointerFirst.findSymbolDefinition ['f'] pointerFirst.depth = .error .outOfBounds := by
  refine ⟨confused.acyclic_of_ascending (by decide), by decide, by decide,
    pointerFirst.acyclic_of_ascending (by decide), by decide⟩

end LoadedImages

end ReaverOS.Bootinit
