import ReaverOS.Elf.Image

namespace ReaverOS.Elf

open Foundation

/-- The characters of a `string_view` that is made of a pointer, up to the first NUL. A text of
`fuel` or more characters has no result. -/
def text (m : Block) : (fuel a : ℕ) → Option (List UInt8)
  | 0, _ => none
  | fuel + 1, a =>
    (m.read a).bind fun c ↦
      if c = 0 then some [] else (text m fuel (wrap (a + 1))).map fun s ↦ c :: s

structure Segment where
  type : SegmentType
  offset : ℕ
  fileSize : ℕ

def programHeader (m : Block) (h : FileHeader) (index : ℕ) : Option Segment :=
  let entry := programHeaderAt m h index
  (m.load entry 4).bind fun type ↦
    (m.load (wrap (entry + 8)) 8).bind fun offset ↦
      (m.load (wrap (entry + 32)) 8).map fun fileSize ↦ ⟨segmentType type, offset, fileSize⟩

namespace ElfImage

variable (m : Block) (fuel : ℕ) (image : ElfImage)

def dynamicEntryAt (index : ℕ) : ℕ := entryAt image.dynamicBase 16 index

def symbolAt (index : ℕ) : ℕ := entryAt image.symtab 24 index

def symbolName (index : ℕ) : Option (List UInt8) :=
  (m.load (image.symbolAt index) 4).bind fun name ↦
    if name ≠ 0 then text m fuel (wrap (image.strtab + name)) else some []

def relocationAt (index : ℕ) : ℕ :=
  match image.relocations with
  | .rel address => entryAt address 16 index
  | .rela address => entryAt address 24 index

end ElfImage

open Foundation.Block Option

variable {m : Block} {h : FileHeader} {image : ElfImage} {a i fuel : ℕ}

def Terminated (m : Block) (a : ℕ) : Prop := ∃ n, m.Inside a (n + 1) ∧ m.read (a + n) = some 0

/-- What `try_parse` has checked of an image that it accepts. -/
structure Checked (m : Block) (h : FileHeader) (image : ElfImage) : Prop where
  header : headerError h m.bytes.length = none
  dynamic : ∀ k < image.dynamicCount, m.Inside (image.dynamicEntryAt k) 8 ∧
    m.Inside (image.dynamicEntryAt (k + 1)) 8
  symtab : image.symtabSize = 0 ∨ ∃ offset length, offset < 2 ^ 64 ∧
    wrap (m.base + offset) = image.symtab ∧ image.symtabSize = length / 24 ∧
      wrap (offset + length) ≤ m.bytes.length

/-- What a linker writes and `try_parse` does not check: program headers of full size, segments in
the file, tables that begin in the image, a string table that ends with a NUL, and offsets of
strings and indices of symbols inside their tables. -/
structure WellFormed (m : Block) (image : ElfImage) : Prop where
  space : m.limit + 16 ≤ 2 ^ 64 ∧ m.bytes.length ≤ 2 ^ 63
  headers : ∀ h ∈ loadHeader m,
    56 ≤ h.phentsize ∧ h.phentsize * h.phnum < 2 ^ 31 ∧ h.phoff < 2 ^ 63
  segments : ∀ h ∈ loadHeader m, ∀ i < h.phnum, ∀ s ∈ programHeader m h i,
    s.offset + s.fileSize ≤ m.bytes.length
  symbols : 0 < image.symtabSize ∧ image.symtabSize ≤ 2 ^ 32 ∧ m.Inside image.symtab 0
  strings : ∃ size, m.Inside image.strtab (size + 1) ∧ m.read (image.strtab + size) = some 0 ∧
    (∀ k < image.dynamicCount, tagAt m (image.dynamicEntryAt k) = some .needed →
      ∀ val ∈ m.load (image.dynamicEntryAt k + 8) 8, val ≤ size) ∧
    ∀ k < image.symtabSize, ∀ name ∈ m.load (image.symbolAt k) 4, name ≤ size
  relocations : ∀ k < image.relocationsCount, m.Inside (image.relocationAt k) 24 ∧
    ∀ info ∈ m.load (image.relocationAt k + 8) 8, info / 2 ^ 32 < image.symtabSize

end ReaverOS.Elf
