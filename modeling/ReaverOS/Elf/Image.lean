import ReaverOS.Foundation.Block

namespace ReaverOS.Elf

open Foundation

structure ParseError where
  message : String
  offset : ℕ
deriving DecidableEq

structure FileHeader where
  magic : ℕ
  class_ : ℕ
  dataEncoding : ℕ
  type : ℕ
  machine : ℕ
  version : ℕ
  phoff : ℕ
  shoff : ℕ
  phentsize : ℕ
  phnum : ℕ
  shentsize : ℕ
  shnum : ℕ
deriving DecidableEq

def loadHeader (m : Block) : Option FileHeader := do
  let magic ← m.load m.base 4
  let class_ ← m.load (m.base + 4) 1
  let dataEncoding ← m.load (m.base + 5) 1
  let type ← m.load (m.base + 16) 2
  let machine ← m.load (m.base + 18) 2
  let version ← m.load (m.base + 20) 4
  let phoff ← m.load (m.base + 32) 8
  let shoff ← m.load (m.base + 40) 8
  let phentsize ← m.load (m.base + 54) 2
  let phnum ← m.load (m.base + 56) 2
  let shentsize ← m.load (m.base + 58) 2
  let shnum ← m.load (m.base + 60) 2
  some { magic, class_, dataEncoding, type, machine, version, phoff, shoff, phentsize, phnum,
         shentsize, shnum }

/-- The product of two `half` numbers is an `int`, which is then extended to 64 bits. One that is
too large for an `int` wraps. -/
def intProduct (a b : ℕ) : ℕ := if a * b < 2 ^ 31 then a * b else a * b + 2 ^ 64 - 2 ^ 32

def headerError (h : FileHeader) (length : ℕ) : Option String :=
  if h.magic ≠ 0x464c457f then some "image does not have a valid header magic number"
  else if h.class_ ≠ 2 then some "only Elf64 files are supported"
  else if h.dataEncoding ≠ 1 then some "only little-endian files are supported"
  else if h.type ≠ 2 ∧ h.type ≠ 3 then
    some "only executable files and shared objects are supported"
  else if h.machine ≠ 0x3e then some "only AMD64 files are supported"
  else if h.version ≠ 1 then some "only version 1 ELF files are supported"
  else if wrap (h.phoff + intProduct h.phentsize h.phnum) > length then
    some "the program header table extends beyond the image limit"
  else if wrap (h.shoff + intProduct h.shentsize h.shnum) > length then
    some "the section header table extends beyond the image limit"
  else none

def entryAt (table size index : ℕ) : ℕ := wrap (table + wrap (index * size))

inductive SegmentType
  | load
  | dynamic
  | note
  | phdr
  | gnuStack
  | gnuRelro
  | unsupported
deriving DecidableEq

def segmentType (type : ℕ) : SegmentType :=
  if type = 1 then .load
  else if type = 2 then .dynamic
  else if type = 4 then .note
  else if type = 6 then .phdr
  else if type = 0x6474e551 then .gnuStack
  else if type = 0x6474e552 then .gnuRelro
  else .unsupported

def programHeaderAt (m : Block) (h : FileHeader) (index : ℕ) : ℕ :=
  entryAt (wrap (m.base + h.phoff)) h.phentsize index

def visitProgramHeader (m : Block) (h : FileHeader) (index : ℕ) (dynamic : Option ℕ) :
  Option (Except ParseError (Option ℕ)) :=
  let entry := programHeaderAt m h index
  (m.load entry 4).bind fun type ↦
    match segmentType type, dynamic with
    | .dynamic, none => some (.ok (some entry))
    | .dynamic, some _ => (m.load (wrap (entry + 8)) 8).map fun offset ↦
      .error ⟨"found more than one DYNAMIC segment", offset⟩
    | .unsupported, _ => (m.load (wrap (entry + 8)) 8).map fun offset ↦
      .error ⟨"unsupported program header type", offset⟩
    | .load, _ => some (.ok dynamic)
    | .note, _ => some (.ok dynamic)
    | .phdr, _ => some (.ok dynamic)
    | .gnuStack, _ => some (.ok dynamic)
    | .gnuRelro, _ => some (.ok dynamic)

inductive RelocationPtr
  | rel (address : ℕ)
  | rela (address : ℕ)
deriving DecidableEq

structure ElfImage where
  header : ℕ
  dynamicBase : ℕ := 0
  dynamicCount : ℕ := 0
  strtab : ℕ := 0
  relocations : RelocationPtr := .rel 0
  relocationsCount : ℕ := 0
  symtab : ℕ := 0
  symtabSize : ℕ := 0
  initDesc : Option (ℕ × ℕ) := none
deriving DecidableEq

inductive DynamicTag
  | null
  | needed
  | strtab
  | symtab
  | rela
  | relaSize
  | relaEntrySize
  | strSize
  | symEntrySize
  | soname
  | debug
  | bindNow
  | initArray
  | initArraySize
  | flags
  | gnuHash
  | relaCount
  | flags1
  | unsupported
deriving DecidableEq

def dynamicTag (tag : ℕ) : DynamicTag :=
  if tag = 0 then .null
  else if tag = 1 then .needed
  else if tag = 5 then .strtab
  else if tag = 6 then .symtab
  else if tag = 7 then .rela
  else if tag = 8 then .relaSize
  else if tag = 9 then .relaEntrySize
  else if tag = 10 then .strSize
  else if tag = 11 then .symEntrySize
  else if tag = 14 then .soname
  else if tag = 21 then .debug
  else if tag = 24 then .bindNow
  else if tag = 25 then .initArray
  else if tag = 27 then .initArraySize
  else if tag = 30 then .flags
  else if tag = 0x6ffffef5 then .gnuHash
  else if tag = 0x6ffffff9 then .relaCount
  else if tag = 0x6ffffffb then .flags1
  else .unsupported

/-- The state of the walk over the DYNAMIC segment. The loop never sets the variables for the
PREINIT and FINI entries. -/
structure Walk where
  next : ℕ
  count : ℕ
  image : ElfImage
  init : Option ℕ
  initSize : Option ℕ

def Walk.advance (w : Walk) : Walk :=
  { w with next := wrap (w.next + 16), count := w.count + 1 }

def visitTag (m : Block) (w : Walk) (tag : DynamicTag) (value : Option ℕ) :
  Option (Except (Except ParseError Walk) Walk) :=
  match tag with
  | .null => some (.error (.ok w))
  | .strtab => value.map fun ptr ↦ .ok { w with image.strtab := wrap (m.base + ptr) }.advance
  | .symtab => value.map fun ptr ↦ .ok { w with image.symtab := wrap (m.base + ptr) }.advance
  | .rela => value.map fun ptr ↦
    .ok { w with image.relocations := .rela (wrap (m.base + ptr)) }.advance
  | .relaSize => value.map fun val ↦ .ok { w with image.relocationsCount := val / 24 }.advance
  | .relaEntrySize => value.map fun val ↦
    if val ≠ 24 then .error (.error ⟨"unsupported RELA value", 0⟩) else .ok w.advance
  | .symEntrySize => value.map fun val ↦
    if val ≠ 24 then .error (.error ⟨"unsupported SYMENT value", 0⟩) else .ok w.advance
  | .initArray => value.map fun ptr ↦ .ok { w with init := some ptr }.advance
  | .initArraySize => value.map fun val ↦ .ok { w with initSize := some val }.advance
  | .unsupported =>
    some (.error (.error ⟨"unsupported DYNAMIC entry tag", wrap (w.next + 2 ^ 64 - m.base)⟩))
  | .needed => some (.ok w.advance)
  | .strSize => some (.ok w.advance)
  | .soname => some (.ok w.advance)
  | .debug => some (.ok w.advance)
  | .bindNow => some (.ok w.advance)
  | .flags => some (.ok w.advance)
  | .gnuHash => some (.ok w.advance)
  | .relaCount => some (.ok w.advance)
  | .flags1 => some (.ok w.advance)

/-- A round of the walk over the DYNAMIC segment. The value of an entry is read only for the tags
that need it. -/
def visitDynamic (m : Block) (w : Walk) : Option (Except (Except ParseError Walk) Walk) :=
  (m.load w.next 8).bind fun tag ↦ visitTag m w (dynamicTag tag) (m.load (wrap (w.next + 8)) 8)

def finishDynamic (w : Walk) : Except ParseError ElfImage :=
  let image := { w.image with dynamicCount := w.count }
  match w.init, w.initSize with
  | some _, none =>
    .error ⟨"INIT DYNAMIC entry present without INIT_SIZE DYANMIC entry", 0⟩
  | none, some _ =>
    .error ⟨"INIT_SIZE DYNAMIC entry present without INIT DYANMIC entry", 0⟩
  | some init, some initSize => .ok { image with initDesc := some (init, initSize) }
  | none, none => .ok image

def parseDynamic (fuel : ℕ) (m : Block) (dynamic : ℕ) : Option (Except ParseError ElfImage) :=
  (m.load (wrap (dynamic + 8)) 8).bind fun offset ↦
    let dynamicBase := wrap (m.base + offset)
    let image : ElfImage := { header := m.base, dynamicBase }
    (untilDone (visitDynamic m) fuel ⟨dynamicBase, 0, image, none, none⟩).map fun walk ↦
      match walk with
      | .error e => .error e
      | .ok w => finishDynamic w

inductive SectionType
  | progbits
  | symtab
  | strtab
  | rela
  | hash
  | dynamic
  | note
  | nobits
  | dynsym
  | initArray
  | gnuHash
  | unsupported
deriving DecidableEq

def sectionType (type : ℕ) : SectionType :=
  if type = 1 then .progbits
  else if type = 2 then .symtab
  else if type = 3 then .strtab
  else if type = 4 then .rela
  else if type = 5 then .hash
  else if type = 6 then .dynamic
  else if type = 7 then .note
  else if type = 8 then .nobits
  else if type = 11 then .dynsym
  else if type = 14 then .initArray
  else if type = 0x6ffffff6 then .gnuHash
  else .unsupported

def sectionAt (m : Block) (h : FileHeader) (index : ℕ) : ℕ :=
  entryAt (wrap (m.base + h.shoff)) h.shentsize index

def visitSection (m : Block) (h : FileHeader) (symtab index symtabSize : ℕ) :
  Option (Except ParseError ℕ) :=
  let entry := sectionAt m h index
  (m.load (wrap (entry + 24)) 8).bind fun offset ↦
    (m.load (wrap (entry + 32)) 8).bind fun length ↦
      if wrap (offset + length) > m.bytes.length then
        some (.error ⟨"a section extends beyond the image limit", offset⟩)
      else (m.load (wrap (entry + 4)) 4).map fun type ↦
        match sectionType type with
        | .hash => .error
          ⟨"binaries containing .hash are not supported; use .gnu.hash instead", offset⟩
        | .dynsym => .ok (if wrap (m.base + offset) = symtab then length / 24 else symtabSize)
        | .unsupported => .error ⟨"unsupported section type", offset⟩
        | .progbits => .ok symtabSize
        | .symtab => .ok symtabSize
        | .strtab => .ok symtabSize
        | .rela => .ok symtabSize
        | .dynamic => .ok symtabSize
        | .note => .ok symtabSize
        | .nobits => .ok symtabSize
        | .initArray => .ok symtabSize
        | .gnuHash => .ok symtabSize

def parseSections (m : Block) (h : FileHeader) (image : ElfImage) :
  Option (Except ParseError ElfImage) :=
  (countUp (visitSection m h image.symtab) (iterations 1 h.shnum) 1 image.symtabSize).map
    fun r ↦
      match r with
      | .error e => .error e
      | .ok symtabSize =>
        if image.symtab ≠ 0 ∧ symtabSize = 0 then
          .error ⟨"found a SYMTAB, but not its corresponding section", 0⟩
        else .ok { image with symtabSize }

def parseTables (fuel : ℕ) (m : Block) (h : FileHeader) : Option (Except ParseError ElfImage) :=
  (countUp (visitProgramHeader m h) (iterations 0 h.phnum) 0 none).bind fun r ↦
    match r with
    | .error e => some (.error e)
    | .ok none => parseSections m h { header := m.base }
    | .ok (some dynamic) => (parseDynamic fuel m dynamic).bind fun r ↦
      match r with
      | .error e => some (.error e)
      | .ok image => parseSections m h image

/-- `try_parse` of the whole block. A walk over the DYNAMIC segment that goes on for more rounds
than `fuel` has no result. -/
def tryParse (fuel : ℕ) (m : Block) : Option (Except ParseError ElfImage) :=
  if m.bytes.length < 64 then
    some (.error ⟨"image is smaller than the size of an elf header", 0⟩)
  else (loadHeader m).bind fun h ↦
    match headerError h m.bytes.length with
    | some message => some (.error ⟨message, 0⟩)
    | none => parseTables fuel m h

open Foundation.Block Option

section Rounds

variable {m : Block} {h : FileHeader} {i : ℕ}

theorem entryAt_wrap (tb z index : ℕ) : entryAt tb z (wrap index) = entryAt tb z index := by
  have hi : wrap (wrap index * z) = wrap (index * z) := Nat.mod_mul_mod ..
  rw [entryAt, hi, entryAt]

def segmentAt (m : Block) (h : FileHeader) (i : ℕ) : Option SegmentType :=
  (m.load (programHeaderAt m h i) 4).map segmentType

def dynamicBefore (m : Block) (h : FileHeader) : (i : ℕ) → Option ℕ
  | 0 => none
  | i + 1 =>
    if segmentAt m h i = some .dynamic then some (programHeaderAt m h i) else dynamicBefore m h i

def SegmentPasses (m : Block) (h : FileHeader) (i : ℕ) : Prop :=
  segmentAt m h i ≠ some .unsupported ∧
    (segmentAt m h i = some .dynamic → dynamicBefore m h i = none)

def SegmentReadable (m : Block) (h : FileHeader) (i : ℕ) : Prop :=
  m.Inside (programHeaderAt m h i) 4 ∧
    (¬ SegmentPasses m h i → m.Inside (wrap (programHeaderAt m h i + 8)) 8)

theorem load_eq_none {a n : ℕ} (hl : m.load a (n + 1) = none) : ¬ m.Inside a (n + 1) := by
  intro hi
  obtain ⟨v, hv⟩ := load_isSome_iff.mpr hi
  cases hl.symm.trans hv

theorem inside_of_load {a n v : ℕ} (hl : m.load a (n + 1) = some v) : m.Inside a (n + 1) :=
  load_isSome_iff.mp ⟨v, hl⟩

theorem round_of_field {ε σ : Type} {a n : ℕ} {rs ps : Prop} {next : σ}
  (er : ℕ → ε) (hre : rs ↔ m.Inside a (n + 1)) (hp : ¬ ps) :
  Round ((m.load a (n + 1)).map fun v ↦ .error (er v)) rs ps next := by
  cases hl : m.load a (n + 1) with
  | none => exact .inl ⟨fun hr ↦ load_eq_none hl (hre.mp hr), rfl⟩
  | some v => exact .inr (.inl ⟨hre.mpr (inside_of_load hl), hp, _, rfl⟩)

theorem rounds_programHeaders (m : Block) (h : FileHeader) :
  Rounds (visitProgramHeader m h) 0 (dynamicBefore m h) (SegmentReadable m h)
  (SegmentPasses m h) := by
  intro k _
  have he : programHeaderAt m h (wrap (0 + k)) = programHeaderAt m h k := by
    rw [zero_add, programHeaderAt, entryAt_wrap, programHeaderAt]
  rw [visitProgramHeader, he]
  cases hl : m.load (programHeaderAt m h k) 4 with
  | none => exact .inl ⟨fun hr ↦ load_eq_none hl hr.1, rfl⟩
  | some ty =>
    have hi := inside_of_load hl
    have hs : segmentAt m h k = some (segmentType ty) := by
      rw [segmentAt, hl, map_some]
    have hre (hn : ¬ SegmentPasses m h k) :
      SegmentReadable m h k ↔ m.Inside (wrap (programHeaderAt m h k + 8)) 8 :=
      ⟨fun hr ↦ hr.2 hn, fun hin ↦ ⟨hi, fun _ ↦ hin⟩⟩
    rw [bind_some, dynamicBefore, hs]
    cases ht : segmentType ty with
    | unsupported =>
      have hn : ¬ SegmentPasses m h k := fun hp ↦ hp.1 (hs.trans (congrArg some ht))
      exact round_of_field _ (hre hn) hn
    | dynamic =>
      cases hb : dynamicBefore m h k with
      | none =>
        have hpa : SegmentPasses m h k := ⟨by simp [hs, ht], fun _ ↦ hb⟩
        exact .inr (.inr ⟨⟨hi, fun hn ↦ absurd hpa hn⟩, hpa, by simp⟩)
      | some d =>
        have hn : ¬ SegmentPasses m h k := by
          intro hp
          cases hb.symm.trans (hp.2 (hs.trans (congrArg some ht)))
        exact round_of_field _ (hre hn) hn
    | _ =>
      have hpa : SegmentPasses m h k := by simp [SegmentPasses, hs, ht]
      exact .inr (.inr ⟨⟨hi, fun hn ↦ absurd hpa hn⟩, hpa, by simp⟩)

def SectionFits (m : Block) (h : FileHeader) (i : ℕ) : Prop :=
  ∃ offset length, m.load (wrap (sectionAt m h i + 24)) 8 = some offset ∧
    m.load (wrap (sectionAt m h i + 32)) 8 = some length ∧
    wrap (offset + length) ≤ m.bytes.length

def SectionPasses (m : Block) (h : FileHeader) (i : ℕ) : Prop :=
  SectionFits m h i ∧ ∃ type, m.load (wrap (sectionAt m h i + 4)) 4 = some type ∧
    sectionType type ≠ .hash ∧ sectionType type ≠ .unsupported

def SectionReadable (m : Block) (h : FileHeader) (i : ℕ) : Prop :=
  m.Inside (wrap (sectionAt m h i + 24)) 8 ∧ m.Inside (wrap (sectionAt m h i + 32)) 8 ∧
    (SectionFits m h i → m.Inside (wrap (sectionAt m h i + 4)) 4)

theorem visitSection_round (m : Block) (h : FileHeader) (sy s : ℕ) :
  ∃ next, Round (visitSection m h sy i s) (SectionReadable m h i) (SectionPasses m h i) next := by
  rw [visitSection]
  cases ho : m.load (wrap (sectionAt m h i + 24)) 8 with
  | none => exact ⟨0, .inl ⟨fun hr ↦ load_eq_none ho hr.1, rfl⟩⟩
  | some offset =>
    cases hl : m.load (wrap (sectionAt m h i + 32)) 8 with
    | none => exact ⟨0, .inl ⟨fun hr ↦ load_eq_none hl hr.2.1, rfl⟩⟩
    | some l =>
      simp only [bind_some]
      by_cases hli : wrap (offset + l) > m.bytes.length
      · have hn : ¬ SectionFits m h i := by
          rintro ⟨offset', length', ho', hl', hle⟩
          cases ho.symm.trans ho'
          cases hl.symm.trans hl'
          exact absurd hle (Nat.not_le_of_lt hli)
        rw [if_pos hli]
        exact ⟨0, .inr (.inl ⟨⟨inside_of_load ho, inside_of_load hl, fun hf ↦
          absurd hf hn⟩, fun hp ↦ hn hp.1, _, rfl⟩)⟩
      · have hf : SectionFits m h i := ⟨offset, l, ho, hl, Nat.le_of_not_lt hli⟩
        rw [if_neg hli]
        cases ht : m.load (wrap (sectionAt m h i + 4)) 4 with
        | none => exact ⟨0, .inl ⟨fun hr ↦ load_eq_none ht (hr.2.2 hf), rfl⟩⟩
        | some ty =>
          have hre : SectionReadable m h i :=
            ⟨inside_of_load ho, inside_of_load hl, fun _ ↦ inside_of_load ht⟩
          have hpa : SectionPasses m h i ↔
            sectionType ty ≠ .hash ∧ sectionType ty ≠ .unsupported := by
            simp [SectionPasses, hf, ht]
          rw [map_some, hpa]
          cases hk : sectionType ty with
          | hash => exact ⟨0, .inr (.inl ⟨hre, by simp, _, rfl⟩)⟩
          | unsupported => exact ⟨0, .inr (.inl ⟨hre, by simp, _, rfl⟩)⟩
          | _ => exact ⟨_, .inr (.inr ⟨hre, by simp, rfl⟩)⟩

theorem rounds_sections (m : Block) (h : FileHeader) (sy s : ℕ) :
  Rounds (visitSection m h sy) 1 (states (visitSection m h sy) 1 s)
  (fun k ↦ SectionReadable m h (1 + k)) (fun k ↦ SectionPasses m h (1 + k)) := by
  refine rounds_states (fun k z ↦ ?_) s
  have he : visitSection m h sy (wrap (1 + k)) = visitSection m h sy (1 + k) := by
    funext z
    rw [visitSection, visitSection, sectionAt, entryAt_wrap, sectionAt]
  rw [he]
  exact visitSection_round m h sy z

end Rounds

section Tables

variable {m : Block} {w w' : Walk} {a d : ℕ} {t : DynamicTag}

def dynamicAt (d k : ℕ) : ℕ := wrap (d + 16 * k)

def tagAt (m : Block) (a : ℕ) : Option DynamicTag := (m.load a 8).map dynamicTag

def DynamicTag.usesValue : DynamicTag → Bool
  | .strtab | .symtab | .rela | .relaSize | .relaEntrySize | .symEntrySize | .initArray
  | .initArraySize => true
  | .null | .needed | .strSize | .soname | .debug | .bindNow | .flags | .gnuHash | .relaCount
  | .flags1 | .unsupported => false

def DynamicTag.tellsSize (t : DynamicTag) : Bool := t = .relaEntrySize ∨ t = .symEntrySize

def EntryReadable (m : Block) (a : ℕ) : Prop :=
  m.Inside a 8 ∧ ∀ t, tagAt m a = some t → t.usesValue = true → m.Inside (wrap (a + 8)) 8

def EntryPasses (m : Block) (a : ℕ) : Prop :=
  EntryReadable m a ∧ ∃ t, tagAt m a = some t ∧ t ≠ .null ∧ t ≠ .unsupported ∧
    (t.tellsSize = true → m.load (wrap (a + 8)) 8 = some 24)

theorem entryReadable_iff (ht : tagAt m a = some t) :
  EntryReadable m a ↔ (t.usesValue = true → m.Inside (wrap (a + 8)) 8) := by
  obtain ⟨tag, hl, -⟩ := map_eq_some_iff.mp ht
  constructor
  · intro hr
    exact hr.2 t ht
  · intro hv
    refine ⟨inside_of_load hl, fun t' ht' ↦ ?_⟩
    cases ht.symm.trans ht'
    exact hv

theorem entryPasses_iff (ht : tagAt m a = some t) :
  EntryPasses m a ↔ (t.usesValue = true → m.Inside (wrap (a + 8)) 8) ∧ t ≠ .null ∧
  t ≠ .unsupported ∧ (t.tellsSize = true → m.load (wrap (a + 8)) 8 = some 24) := by
  rw [EntryPasses, entryReadable_iff ht]
  simp [ht]

theorem visitTag_round (m : Block) (w : Walk) (t : DynamicTag) (va : Option ℕ) :
  ∃ next, Round (visitTag m w t va) (t.usesValue = true → va.isSome = true)
  ((t.usesValue = true → va.isSome = true) ∧ t ≠ .null ∧ t ≠ .unsupported ∧
  (t.tellsSize = true → va = some 24)) next := by
  cases va with
  | none =>
    cases t with
    | null => exact ⟨w, .inr (.inl ⟨by decide, by decide, _, rfl⟩)⟩
    | unsupported => exact ⟨w, .inr (.inl ⟨by decide, by decide, _, rfl⟩)⟩
    | strtab | symtab | rela | relaSize | relaEntrySize | symEntrySize | initArray
    | initArraySize => exact ⟨w, .inl ⟨by decide, rfl⟩⟩
    | _ => exact ⟨_, .inr (.inr ⟨by decide, by decide, rfl⟩)⟩
  | some v =>
    cases t with
    | null => exact ⟨w, .inr (.inl ⟨fun _ ↦ rfl, by simp, _, rfl⟩)⟩
    | unsupported => exact ⟨w, .inr (.inl ⟨fun _ ↦ rfl, by simp, _, rfl⟩)⟩
    | relaEntrySize | symEntrySize =>
      by_cases hv : v = 24
      · subst hv
        exact ⟨_, .inr (.inr ⟨fun _ ↦ rfl, by decide, rfl⟩)⟩
      · exact ⟨w, .inr (.inl ⟨fun _ ↦ rfl, fun hp ↦ hv (some.inj (hp.2.2.2 rfl)), _,
          congrArg some (if_pos hv)⟩)⟩
    | _ => exact ⟨_, .inr (.inr ⟨fun _ ↦ rfl, ⟨fun _ ↦ rfl, by decide, by decide,
      fun hs ↦ absurd hs (by decide)⟩, rfl⟩)⟩

theorem visitDynamic_round (m : Block) (w : Walk) :
  ∃ next, Round (visitDynamic m w) (EntryReadable m w.next) (EntryPasses m w.next) next := by
  rw [visitDynamic]
  cases hl : m.load w.next 8 with
  | none => exact ⟨w, .inl ⟨fun hr ↦ load_eq_none hl hr.1, rfl⟩⟩
  | some ta =>
    have ht : tagAt m w.next = some (dynamicTag ta) := by rw [tagAt, hl, map_some]
    have hv : m.Inside (wrap (w.next + 8)) 8 ↔ (m.load (wrap (w.next + 8)) 8).isSome = true :=
      load_isSome_iff.symm.trans isSome_iff_exists.symm
    rw [entryPasses_iff ht, entryReadable_iff ht, hv, bind_some]
    exact visitTag_round m w (dynamicTag ta) _

/-- What the walk keeps of the image. -/
def Walk.kept (w : Walk) : ℕ × ℕ := (w.image.dynamicBase, w.image.symtabSize)

theorem visitDynamic_ok (h : visitDynamic m w = some (.ok w')) : w'.next = wrap (w.next + 16) ∧
  (w'.count = w.count + 1 ∧ w'.kept = w.kept) ∧
  (w'.init.isSome ↔ w.init.isSome ∨ tagAt m w.next = some .initArray) ∧
  (w'.initSize.isSome ↔ w.initSize.isSome ∨ tagAt m w.next = some .initArraySize) := by
  rw [visitDynamic] at h
  obtain ⟨ta, hl, h⟩ := bind_eq_some_iff.mp h
  have ht : tagAt m w.next = some (dynamicTag ta) := by rw [tagAt, hl, map_some]
  rw [ht]
  cases hk : dynamicTag ta with
  | null | unsupported =>
    rw [hk] at h
    cases h
  | strtab | symtab | rela | relaSize | initArray | initArraySize =>
    rw [hk] at h
    obtain ⟨v, -, he⟩ := map_eq_some_iff.mp h
    cases he
    simp [Walk.advance, Walk.kept]
  | relaEntrySize | symEntrySize =>
    rw [hk] at h
    obtain ⟨v, -, he⟩ := map_eq_some_iff.mp h
    split at he
    · cases he
    · cases he
      simp [Walk.advance, Walk.kept]
  | _ =>
    rw [hk] at h
    cases h
    simp [Walk.advance, Walk.kept]

theorem visitDynamic_null_iff (o : Except ParseError Walk) (ho : tagAt m w.next = some .null) :
  visitDynamic m w = some (.error o) ↔ o = .ok w := by
  obtain ⟨tag, hl, ht⟩ := map_eq_some_iff.mp ho
  rw [visitDynamic, hl, bind_some, ht, visitTag]
  constructor
  · intro he
    cases he
    rfl
  · rintro rfl
    rfl

theorem tag_of_visitDynamic (h : visitDynamic m w = some (.error (.ok w'))) :
  tagAt m w.next = some .null := by
  rw [visitDynamic] at h
  obtain ⟨ta, hl, h⟩ := bind_eq_some_iff.mp h
  rw [tagAt, hl, map_some]
  cases hk : dynamicTag ta with
  | null => rfl
  | unsupported =>
    rw [hk] at h
    cases h
  | strtab | symtab | rela | relaSize | initArray | initArraySize =>
    rw [hk] at h
    obtain ⟨v, -, he⟩ := map_eq_some_iff.mp h
    cases he
  | relaEntrySize | symEntrySize =>
    rw [hk] at h
    obtain ⟨v, -, he⟩ := map_eq_some_iff.mp h
    split at he <;> cases he
  | _ =>
    rw [hk] at h
    cases h

theorem dynamicAt_succ (d k : ℕ) : dynamicAt d (k + 1) = wrap (dynamicAt d k + 16) := by
  rw [dynamicAt, dynamicAt, wrap, wrap, wrap, Nat.mod_add_mod, Nat.mul_succ, add_assoc]

def walkStates (m : Block) (image : ElfImage) (d : ℕ) : ℕ → Walk :=
  states (fun _ ↦ visitDynamic m) 0 ⟨d, 0, image, none, none⟩

theorem walkStates_spec (im : ElfImage) (hd : d < 2 ^ 64) {k : ℕ}
  (hk : ∀ j < k, EntryPasses m (dynamicAt d j)) : (walkStates m im d k).next = dynamicAt d k ∧
  ((walkStates m im d k).count = k ∧ (walkStates m im d k).kept = (im.dynamicBase, im.symtabSize)) ∧
  ((walkStates m im d k).init.isSome ↔ ∃ j < k, tagAt m (dynamicAt d j) = some .initArray) ∧
  ((walkStates m im d k).initSize.isSome ↔
  ∃ j < k, tagAt m (dynamicAt d j) = some .initArraySize) := by
  induction k with
  | zero =>
    exact ⟨(wrap_of_lt hd).symm, ⟨rfl, rfl⟩, by simp [walkStates, states],
      by simp [walkStates, states]⟩
  | succ k ih =>
    obtain ⟨hn, ⟨hc, hke⟩, hi, hs⟩ := ih fun j hj ↦ hk j (Nat.lt_succ_of_lt hj)
    have hp := hk k (Nat.lt_succ_self k)
    rw [← hn] at hp
    obtain ⟨next, ⟨hno, -⟩ | ⟨-, hno, -⟩ | ⟨-, -, hb⟩⟩ := visitDynamic_round m (walkStates m im d k)
    · exact absurd hp.1 hno
    · exact absurd hp hno
    · have hst : walkStates m im d (k + 1) = next := states_succ hb
      obtain ⟨hn', ⟨hc', hke'⟩, hi', hs'⟩ := visitDynamic_ok hb
      rw [hst, hn', hc', hke', hi', hs', hi, hs, hn, hc, hke, dynamicAt_succ]
      exact ⟨rfl, ⟨rfl, rfl⟩, (Nat.exists_lt_succ_right).symm, (Nat.exists_lt_succ_right).symm⟩

theorem walk_round (im : ElfImage) (hd : d < 2 ^ 64) (k : ℕ)
  (hk : ∀ j < k, EntryPasses m (dynamicAt d j)) :
  Round (visitDynamic m (walkStates m im d k)) (EntryReadable m (dynamicAt d k))
  (EntryPasses m (dynamicAt d k)) (walkStates m im d (k + 1)) := by
  obtain ⟨hn, -⟩ := walkStates_spec im hd hk
  rw [← hn]
  obtain ⟨next, hno | he | ⟨hr, hp, hb⟩⟩ := visitDynamic_round m (walkStates m im d k)
  · exact .inl hno
  · exact .inr (.inl he)
  · have hs : walkStates m im d (k + 1) = next := states_succ hb
    rw [hs]
    exact .inr (.inr ⟨hr, hp, hb⟩)

def WalkEnds (m : Block) (d n : ℕ) : Prop :=
  (∀ j < n, EntryPasses m (dynamicAt d j)) ∧ EntryReadable m (dynamicAt d n) ∧
    ¬ EntryPasses m (dynamicAt d n)

/-- The walk ends at a null entry, and there is an entry for the initialisation functions if and
only if there is one for their size. -/
def DynamicPasses (m : Block) (d : ℕ) : Prop :=
  ∃ n, (∀ j < n, EntryPasses m (dynamicAt d j)) ∧ tagAt m (dynamicAt d n) = some .null ∧
    ((∃ j < n, tagAt m (dynamicAt d j) = some .initArray) ↔
      ∃ j < n, tagAt m (dynamicAt d j) = some .initArraySize)

theorem not_entryPasses_of_null (h : tagAt m a = some .null) : ¬ EntryPasses m a := by
  rintro ⟨-, t, ht, hne, -⟩
  cases h.symm.trans ht
  exact hne rfl

theorem first_unique {P : ℕ → Prop} {n n' : ℕ} (h : ∀ j < n, P j) (hn : ¬ P n)
  (h' : ∀ j < n', P j) (hn' : ¬ P n') : n = n' := by
  obtain hlt | he | hlt := Nat.lt_trichotomy n n'
  · exact absurd (h' n hlt) hn
  · exact he
  · exact absurd (h n' hlt) hn'

theorem finishDynamic_ok_iff :
  (∃ im, finishDynamic w = .ok im) ↔ (w.init.isSome ↔ w.initSize.isSome) := by
  rw [finishDynamic]
  cases w.init <;> cases w.initSize <;> simp

variable {fuel e offset : ℕ} {r : Except ParseError ElfImage}

def initialImage (m : Block) (d : ℕ) : ElfImage := { header := m.base, dynamicBase := d }

theorem parseDynamic_eq (ho : m.load (wrap (e + 8)) 8 = some offset) : parseDynamic fuel m e =
  (untilDone (visitDynamic m) fuel (walkStates m (initialImage m (wrap (m.base + offset)))
  (wrap (m.base + offset)) 0)).map fun wa ↦
  match wa with
  | .error e => .error e
  | .ok w => finishDynamic w := by
  rw [parseDynamic, ho]
  rfl

theorem wrap_lt (a : ℕ) : wrap a < 2 ^ 64 := Nat.mod_lt _ (Nat.two_pow_pos 64)

theorem parseDynamic_returns_iff : (∃ fuel r, parseDynamic fuel m e = some r) ↔
  ∃ offset, m.load (wrap (e + 8)) 8 = some offset ∧ ∃ n, WalkEnds m (wrap (m.base + offset)) n := by
  constructor
  · rintro ⟨fuel, r, hr⟩
    cases ho : m.load (wrap (e + 8)) 8 with
    | none =>
      rw [parseDynamic, ho] at hr
      cases hr
    | some offset =>
      rw [parseDynamic_eq ho] at hr
      obtain ⟨o, hou, -⟩ := map_eq_some_iff.mp hr
      obtain ⟨n, hn, hb⟩ := (untilDone_iff (walk_round _ (wrap_lt _))).mp ⟨fuel, hou⟩
      have hp (j : ℕ) (hj : j < n) := (hn j hj).2
      refine ⟨offset, rfl, n, hp, ?_⟩
      obtain ⟨-, hno⟩ | ⟨hre, hnt, -⟩ | ⟨-, -, hk⟩ :=
        walk_round (initialImage m _) (wrap_lt (m.base + offset)) n hp
      · cases hb.symm.trans hno
      · exact ⟨hre, hnt⟩
      · cases hb.symm.trans hk
  · rintro ⟨offset, ho, n, hp, hre, hnt⟩
    obtain ⟨hno, -⟩ | ⟨-, -, o, hb⟩ | ⟨-, hpa, -⟩ :=
      walk_round (initialImage m _) (wrap_lt (m.base + offset)) n hp
    · exact absurd hre hno
    · obtain ⟨fuel, hou⟩ := (untilDone_iff (walk_round _ (wrap_lt _))).mpr
        ⟨n, fun j hj ↦ ⟨(hp j hj).1, hp j hj⟩, hb⟩
      exact ⟨fuel, _, by rw [parseDynamic_eq ho, hou, map_some]⟩
    · exact absurd hpa hnt

theorem parseDynamic_ok_iff (hr : parseDynamic fuel m e = some r)
  (ho : m.load (wrap (e + 8)) 8 = some offset) :
  (∃ image, r = .ok image) ↔ DynamicPasses m (wrap (m.base + offset)) := by
  rw [parseDynamic_eq ho] at hr
  obtain ⟨out, hou, rfl⟩ := map_eq_some_iff.mp hr
  obtain ⟨n, hn, hb⟩ := (untilDone_iff (walk_round _ (wrap_lt _))).mp ⟨fuel, hou⟩
  have hp (j : ℕ) (hj : j < n) := (hn j hj).2
  obtain ⟨hne, -, hin, hs⟩ :=
    walkStates_spec (initialImage m (wrap (m.base + offset))) (wrap_lt (m.base + offset)) hp
  constructor
  · rintro ⟨image, hi⟩
    cases out with
    | error error => cases hi
    | ok w =>
      have ht := tag_of_visitDynamic hb
      cases (visitDynamic_null_iff _ ht).mp hb
      refine ⟨n, hp, hne ▸ ht, ?_⟩
      rw [← hin, ← hs]
      exact finishDynamic_ok_iff.mp ⟨image, hi⟩
  · rintro ⟨n', hp', ht, hif⟩
    have hnt : ¬ EntryPasses m (dynamicAt (wrap (m.base + offset)) n) := by
      obtain ⟨-, hno⟩ | ⟨-, hnt, -⟩ | ⟨-, -, hok⟩ :=
        walk_round (initialImage m _) (wrap_lt (m.base + offset)) n hp
      · cases hb.symm.trans hno
      · exact hnt
      · cases hb.symm.trans hok
    obtain rfl := first_unique hp hnt hp' (not_entryPasses_of_null ht)
    rw [← hne] at ht
    cases (visitDynamic_null_iff _ ht).mp hb
    rw [← hin, ← hs] at hif
    exact finishDynamic_ok_iff.mpr hif

end Tables

variable {m : Block} {h : FileHeader}

def HeaderPasses (m : Block) (h : FileHeader) : Prop :=
  64 ≤ m.bytes.length ∧ loadHeader m = some h ∧ headerError h m.bytes.length = none

def DynamicAccepted (m : Block) (h : FileHeader) : Prop :=
  ∀ e, dynamicBefore m h h.phnum = some e → ∃ offset, m.load (wrap (e + 8)) 8 = some offset ∧
    DynamicPasses m (wrap (m.base + offset))

theorem exists_load (hl : 64 ≤ m.bytes.length) (k n : ℕ) (hk : k + (n + 1) ≤ 64) :
  ∃ v, m.load (m.base + k) (n + 1) = some v :=
  load_isSome_iff.mpr ⟨by omega, by rw [limit]; omega⟩

theorem loadHeader_returns (hl : 64 ≤ m.bytes.length) :
  ∃ h, loadHeader m = some h ∧ h.phnum < 2 ^ 16 := by
  obtain ⟨mag, hm⟩ := exists_load hl 0 3 (by decide)
  obtain ⟨c, hc⟩ := exists_load hl 4 0 (by decide)
  obtain ⟨da, hd⟩ := exists_load hl 5 0 (by decide)
  obtain ⟨ty, ht⟩ := exists_load hl 16 1 (by decide)
  obtain ⟨ma, hma⟩ := exists_load hl 18 1 (by decide)
  obtain ⟨v, hv⟩ := exists_load hl 20 3 (by decide)
  obtain ⟨ph, hpho⟩ := exists_load hl 32 7 (by decide)
  obtain ⟨sho, hsh⟩ := exists_load hl 40 7 (by decide)
  obtain ⟨p, hp⟩ := exists_load hl 54 1 (by decide)
  obtain ⟨phn, hph⟩ := exists_load hl 56 1 (by decide)
  obtain ⟨s, hs⟩ := exists_load hl 58 1 (by decide)
  obtain ⟨sh, hsn⟩ := exists_load hl 60 1 (by decide)
  rw [add_zero] at hm
  refine ⟨_, by rw [loadHeader, hm, hc, hd, ht, hma, hv, hpho, hsh,
    hp, hph, hs, hsn]; rfl, load_lt hph⟩

theorem iterations_zero {n : ℕ} (hn : n < 2 ^ 16) : iterations 0 n = n := by
  rw [iterations, wrap]
  omega

theorem programHeaders_returns_iff (hn : h.phnum < 2 ^ 16) :
  (∃ r, countUp (visitProgramHeader m h) (iterations 0 h.phnum) 0 none = some r) ↔
  ∀ i < h.phnum, (∀ j < i, SegmentPasses m h j) → SegmentReadable m h i := by
  rw [iterations_zero hn]
  exact (rounds_programHeaders m h).countUp_returns (by decide) h.phnum

theorem programHeaders_ok_iff (hn : h.phnum < 2 ^ 16) (dy : Option ℕ) :
  countUp (visitProgramHeader m h) (iterations 0 h.phnum) 0 none = some (.ok dy) ↔
  (∀ i < h.phnum, SegmentReadable m h i ∧ SegmentPasses m h i) ∧
  dy = dynamicBefore m h h.phnum := by
  rw [iterations_zero hn]
  exact (rounds_programHeaders m h).countUp_ok (by decide) h.phnum dy

theorem parseSections_returns_iff (im : ElfImage) :
  (∃ r, parseSections m h im = some r) ↔ ∀ k < iterations 1 h.shnum,
  (∀ j < k, SectionPasses m h (1 + j)) → SectionReadable m h (1 + k) := by
  rw [← (rounds_sections m h im.symtab im.symtabSize).countUp_returns (by decide)]
  rw [parseSections]
  constructor
  · rintro ⟨r, hr⟩
    obtain ⟨r', hr', -⟩ := map_eq_some_iff.mp hr
    exact ⟨r', hr'⟩
  · rintro ⟨r, hr⟩
    exact ⟨_, congrArg (Option.map _) hr⟩

theorem parseTables_of_none {n : ℕ}
  (hr : countUp (visitProgramHeader m h) (iterations 0 h.phnum) 0 none = some (.ok none)) :
  parseTables n m h = parseSections m h { header := m.base } := by
  rw [parseTables, hr, bind_some]

theorem parseTables_of_some {n e : ℕ}
  (hr : countUp (visitProgramHeader m h) (iterations 0 h.phnum) 0 none = some (.ok (some e))) :
  parseTables n m h = (parseDynamic n m e).bind fun r ↦
  match r with
  | .error e => some (.error e)
  | .ok image => parseSections m h image := by
  exact congrArg (Option.bind · _) hr

structure TablesBounded (m : Block) (h : FileHeader) : Prop where
  segments : ∀ i < h.phnum, (∀ j < i, SegmentPasses m h j) → SegmentReadable m h i
  dynamic : (∀ i < h.phnum, SegmentPasses m h i) → ∀ e, dynamicBefore m h h.phnum = some e →
    ∃ offset, m.load (wrap (e + 8)) 8 = some offset ∧ ∃ n, WalkEnds m (wrap (m.base + offset)) n
  sections : (∀ i < h.phnum, SegmentPasses m h i) → DynamicAccepted m h →
    ∀ k < iterations 1 h.shnum, (∀ j < k, SectionPasses m h (1 + j)) → SectionReadable m h (1 + k)

theorem tablesBounded_of_returns {n : ℕ} {r : Except ParseError ElfImage}
  (hn : h.phnum < 2 ^ 16) (hr : parseTables n m h = some r) : TablesBounded m h := by
  have hs : ∀ i < h.phnum, (∀ j < i, SegmentPasses m h j) → SegmentReadable m h i := by
    rw [parseTables] at hr
    obtain ⟨r', hr', -⟩ := bind_eq_some_iff.mp hr
    exact (programHeaders_returns_iff hn).mp ⟨r', hr'⟩
  have hen (hp : ∀ i < h.phnum, SegmentPasses m h i) := (programHeaders_ok_iff hn _).mpr ⟨fun i hi ↦
    ⟨hs i hi fun j hj ↦ hp j (Nat.lt_trans hj hi), hp i hi⟩, rfl⟩
  refine ⟨hs, fun hp e he ↦ ?_, fun hp ha ↦ ?_⟩
  · have hen := hen hp
    rw [he] at hen
    rw [parseTables_of_some hen] at hr
    obtain ⟨r', hr', -⟩ := bind_eq_some_iff.mp hr
    exact parseDynamic_returns_iff.mp ⟨n, r', hr'⟩
  · have hen := hen hp
    cases he : dynamicBefore m h h.phnum with
    | none =>
      rw [he] at hen
      rw [parseTables_of_none hen] at hr
      exact (parseSections_returns_iff _).mp ⟨r, hr⟩
    | some e =>
      rw [he] at hen
      rw [parseTables_of_some hen] at hr
      obtain ⟨r', hr', hr⟩ := bind_eq_some_iff.mp hr
      obtain ⟨offset, ho, hpa⟩ := ha e he
      obtain ⟨im, rfl⟩ := (parseDynamic_ok_iff hr' ho).mpr hpa
      exact (parseSections_returns_iff im).mp ⟨r, hr⟩

theorem parseTables_returns (hn : h.phnum < 2 ^ 16) (hb : TablesBounded m h) :
  ∃ fuel r, parseTables fuel m h = some r := by
  obtain ⟨r, hr⟩ := (programHeaders_returns_iff hn).mpr hb.segments
  cases r with
  | error error => exact ⟨0, _, by rw [parseTables, hr, bind_some]⟩
  | ok dynamic =>
    obtain ⟨hp, hd⟩ := (programHeaders_ok_iff hn dynamic).mp hr
    have hp (i : ℕ) (hi : i < h.phnum) := (hp i hi).2
    cases dynamic with
    | none =>
      have ha : DynamicAccepted m h := by
        intro e he
        cases hd.trans he
      obtain ⟨r, hr'⟩ := (parseSections_returns_iff { header := m.base }).mpr (hb.sections hp ha)
      exact ⟨0, r, (parseTables_of_none hr).trans hr'⟩
    | some e =>
      obtain ⟨fuel, r', hr'⟩ := parseDynamic_returns_iff.mpr (hb.dynamic hp e hd.symm)
      cases r' with
      | error error => exact ⟨fuel, .error error, by rw [parseTables_of_some hr, hr']; rfl⟩
      | ok image =>
        have ha : DynamicAccepted m h := by
          intro e' he'
          cases hd.trans he'
          obtain ⟨offset, ho, -⟩ := hb.dynamic hp e hd.symm
          exact ⟨offset, ho, (parseDynamic_ok_iff hr' ho).mp ⟨image, rfl⟩⟩
        obtain ⟨r, hr''⟩ := (parseSections_returns_iff image).mpr (hb.sections hp ha)
        refine ⟨fuel, r, ?_⟩
        rw [parseTables_of_some hr, hr', bind_some]
        exact hr''

/-- All that the parser comes to lies in the image. The section headers begin with the second one;
if there are none the counter runs through all of its 64 bits. -/
def Bounded (m : Block) : Prop := ∀ h, HeaderPasses m h → TablesBounded m h

theorem tryParse_of_passes (n : ℕ) (hl : ¬ m.bytes.length < 64)
  (hlo : loadHeader m = some h) (he : headerError h m.bytes.length = none) :
  tryParse n m = parseTables n m h := by
  rw [tryParse, if_neg hl, hlo, bind_some, he]

theorem tryParse_safe_iff (m : Block) : (∃ fuel r, tryParse fuel m = some r) ↔ Bounded m := by
  by_cases hl : m.bytes.length < 64
  · refine iff_of_true ⟨0, _, if_pos hl⟩ fun h hp ↦ ?_
    exact absurd hp.1 (Nat.not_le_of_lt hl)
  · obtain ⟨h, hlo, hn⟩ := loadHeader_returns (Nat.le_of_not_lt hl)
    cases he : headerError h m.bytes.length with
    | some me =>
      refine iff_of_true ⟨0, _, by
      rw [tryParse, if_neg hl, hlo, bind_some, he]⟩ fun h' hp ↦ ?_
      cases hlo.symm.trans hp.2.1
      cases he.symm.trans hp.2.2
    | none =>
      constructor
      · rintro ⟨fuel, r, hr⟩ h' hp
        cases hlo.symm.trans hp.2.1
        rw [tryParse_of_passes fuel hl hlo he] at hr
        exact tablesBounded_of_returns hn hr
      · intro hb
        obtain ⟨fuel, r, hr⟩ := parseTables_returns hn (hb h ⟨Nat.le_of_not_lt hl, hlo, he⟩)
        exact ⟨fuel, r, (tryParse_of_passes fuel hl hlo he).trans hr⟩

def emptyTableBytes : List UInt8 :=
  [0x7f, 0x45, 0x4c, 0x46, 2, 1, 1, 0, 0, 0, 0, 0, 0, 0, 0, 0,
    2, 0, 0x3e, 0, 1, 0, 0, 0, 0, 0, 0, 0, 0, 0, 0, 0,
    64, 0, 0, 0, 0, 0, 0, 0, 0, 0, 0, 0, 0, 0, 0, 0,
    0, 0, 0, 0, 64, 0, 0, 0, 1, 0, 64, 0, 1, 0, 0, 0]

theorem emptyTable_fits : 4096 + emptyTableBytes.length < 2 ^ 64 := by decide

def emptyTable : Block := ⟨4096, emptyTableBytes, emptyTable_fits⟩

def emptyTableHeader : FileHeader := ⟨0x464c457f, 2, 1, 2, 0x3e, 1, 64, 0, 0, 1, 64, 1⟩

theorem tryParse_emptyTable_unsafe : ¬ ∃ fuel r, tryParse fuel emptyTable = some r := by
  rintro ⟨fuel, r, hr⟩
  have hl : loadHeader emptyTable = some emptyTableHeader := by decide
  have he : headerError emptyTableHeader emptyTable.bytes.length = none := by decide
  have hen : emptyTable.load (programHeaderAt emptyTable emptyTableHeader 0) 4 = none := by
    decide
  have ho : iterations 0 emptyTableHeader.phnum = 1 := by decide
  rw [tryParse, if_neg (by decide), hl, bind_some, he] at hr
  simp only [parseTables, ho, countUp, visitProgramHeader, hen, bind_none] at hr
  cases hr

end ReaverOS.Elf
