import ReaverOS.Foundation.Words

namespace ReaverOS.Paging

open Foundation.Words

inductive Pmle (T : Type)
  | absent (user : Bool)
  | table (user : Bool) (address : BitVec 40) (next : T)
  | page (user : Bool) (address : BitVec 40)

/-- `pmlt<I>`: 512 entries at every level. There is no level below the page tables of level 1. -/
def Pmlt : ℕ → Type
  | 0 => Empty
  | I + 1 => Fin 512 → Pmle (Pmlt I)

inductive Fault
  | remap (virt level existing : ℕ)
  | unmapped (virt : ℕ)
  | largePage (virt : ℕ)
  | outOfFrames
  | outOfBounds
  | notATable
  deriving DecidableEq

def pageSize : ℕ := 4 * 1024

def entrySize (I : ℕ) : ℕ := 1 <<< (I * 9 + 3)

def tableIndex (I virt : ℕ) : Fin 512 :=
  ⟨(virt >>> (I * 9 + 3)) &&& 511, lt_of_le_of_lt Nat.and_le_right (by decide)⟩

def addressOf (phys : ℕ) : BitVec 40 := BitVec.ofNat 40 (phys >>> 12)

def getPhys (address : BitVec 40) : ℕ := address.toNat <<< 12

def newTable : (I : ℕ) → Except Fault (Pmlt I)
  | 0 => .error .notATable
  | _ + 1 => .ok fun _ ↦ .absent false

/-- The end of the part of `[virtStart, virtEnd)` under one entry, with the guard against wrapping
on the highest addresses. -/
def entryVirtEnd (I virtStart virtEnd : ℕ) : ℕ :=
  let entryEnd := andNot ((virtStart + entrySize I) % 2 ^ 64) (entrySize I - 1)
  if (entryEnd + (2 ^ 64 - 1)) % 2 ^ 64 < virtEnd ∧ entryEnd ≠ 0 then entryEnd else virtEnd

def nextPhys (I phys : ℕ) : ℕ := andNot ((phys + entrySize I) % 2 ^ 64) (entrySize I - 1)

structure UserBits where
  leaf : Bool → Bool
  table : Bool → Bool

def mapPage {T : Type} (bits : UserBits) (I : ℕ) (e : Pmle T) (virtStart phys : ℕ)
  (frames : List ℕ) : Except Fault (Pmle T × List ℕ) :=
  match e with
  | .absent user => .ok (.page (bits.leaf user) (addressOf phys), frames)
  | .table _ address _ | .page _ address => .error (.remap virtStart I (getPhys address))

def mapTable {I : ℕ} (bits : UserBits)
  (descend : Pmlt I → ℕ → ℕ → ℕ → List ℕ → Except Fault (Pmlt I × List ℕ))
  (e : Pmle (Pmlt I)) (virtStart virtEnd phys : ℕ) (frames : List ℕ) :
  Except Fault (Pmle (Pmlt I) × List ℕ) :=
  match e, frames with
  | .absent _, [] => .error .outOfFrames
  | .absent user, frame :: frames => do
    let t ← newTable I
    let (t, frames) ← descend t virtStart virtEnd phys frames
    .ok (.table (bits.table user) (addressOf frame) t, frames)
  | .table user address t, frames => do
    let (t, frames) ← descend t virtStart virtEnd phys frames
    .ok (.table (bits.table user) address t, frames)
  | .page _ _, _ => .error .notATable

def mapLoop {T : Type} (I : ℕ)
  (body : Pmle T → ℕ → ℕ → ℕ → List ℕ → Except Fault (Pmle T × List ℕ)) :
  ℕ → (Fin 512 → Pmle T) → ℕ → ℕ → ℕ → List ℕ → Except Fault ((Fin 512 → Pmle T) × List ℕ)
  | 0, t, virtStart, virtEnd, _, frames =>
    if virtStart < virtEnd then .error .outOfBounds else .ok (t, frames)
  | room + 1, t, virtStart, virtEnd, phys, frames =>
    if virtStart < virtEnd then do
      let index : Fin 512 := ⟨511 - room, by omega⟩
      let (e, frames) ← body (t index) virtStart (entryVirtEnd I virtStart virtEnd) phys frames
      mapLoop I body room (Function.update t index e) (entryVirtEnd I virtStart virtEnd) virtEnd
        (nextPhys I phys) frames
    else .ok (t, frames)

def vmMap (bits : UserBits) (lowest : ℕ) :
  (I : ℕ) → Pmlt I → ℕ → ℕ → ℕ → List ℕ → Except Fault (Pmlt I × List ℕ)
  | 0, t, _, _, _, _ => nomatch t
  | I + 1, t, virtStart, virtEnd, phys, frames =>
    mapLoop (I + 1)
      (fun e a b p fs ↦
        if I + 1 = lowest then mapPage bits (I + 1) e a p fs
        else mapTable bits (vmMap bits lowest I) e a b p fs)
      (512 - tableIndex (I + 1) virtStart) t virtStart virtEnd phys frames

def mapRange (bits : UserBits) (lowest granule : ℕ) (t : Pmlt 4) (virt size phys : ℕ)
  (frames : List ℕ) : Except Fault (Pmlt 4 × List ℕ) :=
  if size = 0 then .ok (t, frames)
  else
    let virtStart := andNot virt (granule - 1)
    let virtEnd := andNot ((virtStart + size + granule - 1) % 2 ^ 64) (granule - 1)
    vmMap bits lowest 4 t virtStart virtEnd (andNot phys (granule - 1)) frames

def vmVirtToPhys : (I : ℕ) → Pmlt I → ℕ → Except Fault ℕ
  | 0, t, _ => nomatch t
  | I + 1, t, virt =>
    match t (tableIndex (I + 1) virt) with
    | .absent _ => .error (.unmapped virt)
    | .page _ address => .ok (getPhys address)
    | .table _ _ next => vmVirtToPhys I next virt

structure Unmapped where
  pushed : List ℕ := []
  invalidated : List ℕ := []

def Unmapped.append (a b : Unmapped) : Unmapped :=
  ⟨a.pushed ++ b.pushed, a.invalidated ++ b.invalidated⟩

def unmapPage {T : Type} (freePhysical : Bool) (e : Pmle T) (virtStart : ℕ) :
  Except Fault (Pmle T × Unmapped) :=
  match e with
  | .absent _ => .error (.unmapped virtStart)
  | .table user address _ | .page user address =>
    .ok (.absent user, ⟨if freePhysical then [getPhys address] else [], [virtStart]⟩)

def unmapTable {I : ℕ} (descend : Pmlt I → ℕ → ℕ → Except Fault (Pmlt I × Unmapped))
  (e : Pmle (Pmlt I)) (virtStart virtEnd : ℕ) : Except Fault (Pmle (Pmlt I) × Unmapped) :=
  match e with
  | .absent _ => .error (.unmapped virtStart)
  | .page _ _ => .error (.largePage virtStart)
  | .table user address t => do
    let (t, out) ← descend t virtStart virtEnd
    .ok (.table user address t, out)

def unmapLoop {T : Type} (I : ℕ) (body : Pmle T → ℕ → ℕ → Except Fault (Pmle T × Unmapped)) :
  ℕ → (Fin 512 → Pmle T) → ℕ → ℕ → Unmapped → Except Fault ((Fin 512 → Pmle T) × Unmapped)
  | 0, t, virtStart, virtEnd, out =>
    if virtStart < virtEnd then .error .outOfBounds else .ok (t, out)
  | room + 1, t, virtStart, virtEnd, out =>
    if virtStart < virtEnd then do
      let index : Fin 512 := ⟨511 - room, by omega⟩
      let (e, more) ← body (t index) virtStart (entryVirtEnd I virtStart virtEnd)
      unmapLoop I body room (Function.update t index e) (entryVirtEnd I virtStart virtEnd) virtEnd
        (out.append more)
    else .ok (t, out)

def vmUnmap (freePhysical : Bool) :
  (I : ℕ) → Pmlt I → ℕ → ℕ → Except Fault (Pmlt I × Unmapped)
  | 0, t, _, _ => nomatch t
  | I + 1, t, virtStart, virtEnd =>
    unmapLoop (I + 1)
      (fun e a b ↦
        if I + 1 = 1 then unmapPage freePhysical e a
        else unmapTable (vmUnmap freePhysical I) e a b)
      (512 - tableIndex (I + 1) virtStart) t virtStart virtEnd {}

end ReaverOS.Paging

namespace ReaverOS.Kernel.Vm

open Paging Foundation.Words

structure Flags where
  user : Bool := false
  readOnly : Bool := false
  deriving DecidableEq

def userBits (flags : Flags) : UserBits where
  leaf _ := flags.user
  table user := user || flags.user

def mapPhysical (t : Pmlt 4) (start stop physical : ℕ) (flags : Flags) (frames : List ℕ) :
  Except Fault (Pmlt 4 × List ℕ) :=
  mapRange (userBits flags) 1 pageSize t start ((stop + (2 ^ 64 - start)) % 2 ^ 64) physical frames

def unmap (t : Pmlt 4) (start stop : ℕ) (freePhysical : Bool) : Except Fault (Pmlt 4 × Unmapped) :=
  let size := (stop + (2 ^ 64 - start)) % 2 ^ 64
  if size = 0 then .ok (t, {})
  else
    let virtStart := andNot start (pageSize - 1)
    let virtEnd := andNot ((virtStart + size + pageSize - 1) % 2 ^ 64) (pageSize - 1)
    vmUnmap freePhysical 4 t virtStart virtEnd

def virtToPhys (t : Pmlt 4) (address : ℕ) : Except Fault ℕ := vmVirtToPhys 4 t address

end ReaverOS.Kernel.Vm

namespace ReaverOS.Loader

open Paging

def userBits : UserBits where
  leaf user := user
  table user := user

def largePageSize : ℕ := 512 * pageSize

def hugePageSize : ℕ := 512 * largePageSize

def vmMap (pml4 : Pmlt 4) (phys size virt : ℕ) (frames : List ℕ) :
  Except Fault (Pmlt 4 × List ℕ) :=
  mapRange userBits 1 pageSize pml4 virt size phys frames

def vmMapLarge (pml4 : Pmlt 4) (phys size virt : ℕ) (frames : List ℕ) :
  Except Fault (Pmlt 4 × List ℕ) :=
  mapRange userBits 2 largePageSize pml4 virt size phys frames

def vmMapHuge (pml4 : Pmlt 4) (phys size virt : ℕ) (frames : List ℕ) :
  Except Fault (Pmlt 4 × List ℕ) :=
  mapRange userBits 3 hugePageSize pml4 virt size phys frames

end ReaverOS.Loader
