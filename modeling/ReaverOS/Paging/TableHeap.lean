import ReaverOS.Foundation.Fallible
import ReaverOS.Paging.EntryRounds

namespace ReaverOS.Paging.TableHeap

open Function Foundation Fallible Words

abbrev Frame := BitVec 40

structure Entry where
  present : Bool := false
  user : Bool := false
  size : Bool := false
  address : Frame := 0
  deriving DecidableEq

abbrev Heap := Frame → Fin 512 → Entry

def emptyTable : Fin 512 → Entry := fun _ ↦ {}

def setEntry (h : Heap) (table : Frame) (index : Fin 512) (e : Entry) : Heap :=
  update h table (update (h table) index e)

theorem entry_lt (r : ℕ) : 511 - r < 512 := by omega

def entryLoop {σ : Type} (I : ℕ) (body : Fin 512 → ℕ → ℕ → σ → Except Fault σ) :
  ℕ → ℕ → ℕ → σ → Except Fault σ
  | 0, virtStart, virtEnd, s => if virtStart < virtEnd then .error .outOfBounds else .ok s
  | room + 1, virtStart, virtEnd, s =>
    if virtStart < virtEnd then do
      let s ← body ⟨511 - room, entry_lt room⟩ virtStart (entryVirtEnd I virtStart virtEnd) s
      entryLoop I body room (entryVirtEnd I virtStart virtEnd) virtEnd s
    else .ok s

structure Mapping where
  heap : Heap
  frames : List Frame
  phys : ℕ

def mapPage (user : Bool) (table : Frame) (index : Fin 512) (virtStart : ℕ) (m : Mapping) :
  Except Fault Mapping :=
  let e := m.heap table index
  if e.present then .error (.remap virtStart 1 (getPhys e.address))
  else .ok { m with
    heap := setEntry m.heap table index
      { e with present := true, user, address := addressOf m.phys } }

def mapTable (user : Bool) (descend : Frame → ℕ → ℕ → Mapping → Except Fault Mapping)
  (table : Frame) (index : Fin 512) (virtStart virtEnd : ℕ) (m : Mapping) :
  Except Fault Mapping :=
  let e := m.heap table index
  if e.present then
    descend e.address virtStart virtEnd
      { m with heap := setEntry m.heap table index { e with user := e.user || user } }
  else
    match m.frames with
    | [] => .error .outOfFrames
    | frame :: frames =>
      descend frame virtStart virtEnd { m with
        heap := setEntry (update m.heap frame emptyTable) table index
          { e with present := true, user := e.user || user, address := frame }
        frames }

def vmMap (user : Bool) : ℕ → Frame → ℕ → ℕ → Mapping → Except Fault Mapping
  | 0, _, _, _, _ => .error .notATable
  | I + 1, table, virtStart, virtEnd, m =>
    entryLoop (I + 1)
      (fun index a b m ↦ do
        let m' ← (if I = 0 then mapPage user table index a m
          else mapTable user (vmMap user I) table index a b m)
        .ok { m' with phys := nextPhys (I + 1) m.phys })
      (512 - tableIndex (I + 1) virtStart) virtStart virtEnd m

def mapPhysical (h : Heap) (root : Frame) (start stop physical : ℕ) (user : Bool)
  (frames : List Frame) : Except Fault (Heap × List Frame) :=
  let size := (stop + (2 ^ 64 - start)) % 2 ^ 64
  if size = 0 then .ok (h, frames)
  else do
    let virtStart := andNot start (pageSize - 1)
    let virtEnd := andNot ((virtStart + size + pageSize - 1) % 2 ^ 64) (pageSize - 1)
    let m ← vmMap user 4 root virtStart virtEnd ⟨h, frames, andNot physical (pageSize - 1)⟩
    .ok (m.heap, m.frames)

structure Unmapping where
  heap : Heap
  pushed : List Frame := []

def unmapPage (freePhysical : Bool) (table : Frame) (index : Fin 512) (virtStart : ℕ)
  (m : Unmapping) : Except Fault Unmapping :=
  let e := m.heap table index
  if e.present then
    .ok ⟨setEntry m.heap table index { e with present := false },
      if freePhysical then e.address :: m.pushed else m.pushed⟩
  else .error (.unmapped virtStart)

def unmapTable (descend : Frame → ℕ → ℕ → Unmapping → Except Fault Unmapping)
  (table : Frame) (index : Fin 512) (virtStart virtEnd : ℕ) (m : Unmapping) :
  Except Fault Unmapping :=
  let e := m.heap table index
  if e.present then
    if e.size then .error (.largePage virtStart) else descend e.address virtStart virtEnd m
  else .error (.unmapped virtStart)

def vmUnmap (freePhysical : Bool) : ℕ → Frame → ℕ → ℕ → Unmapping → Except Fault Unmapping
  | 0, _, _, _, _ => .error .notATable
  | I + 1, table, virtStart, virtEnd, m =>
    entryLoop (I + 1)
      (fun index a b m ↦
        if I = 0 then unmapPage freePhysical table index a m
        else unmapTable (vmUnmap freePhysical I) table index a b m)
      (512 - tableIndex (I + 1) virtStart) virtStart virtEnd m

def unmap (h : Heap) (root : Frame) (start stop : ℕ) (freePhysical : Bool) :
  Except Fault Unmapping :=
  let size := (stop + (2 ^ 64 - start)) % 2 ^ 64
  if size = 0 then .ok { heap := h }
  else
    let virtStart := andNot start (pageSize - 1)
    let virtEnd := andNot ((virtStart + size + pageSize - 1) % 2 ^ 64) (pageSize - 1)
    vmUnmap freePhysical 4 root virtStart virtEnd { heap := h }

def cloneLoop (cr3 ret : Frame) : ℕ → Heap → List Frame → Except Fault (Heap × List Frame)
  | 0, h, frames => .ok (h, frames)
  | room + 1, h, frames =>
    let index : Fin 512 := ⟨511 - room, entry_lt room⟩
    if (h cr3 index).present then
      cloneLoop cr3 ret room (setEntry h ret index (h cr3 index)) frames
    else
      match frames with
      | [] => .error .outOfFrames
      | frame :: frames =>
        let e := { h cr3 index with present := true, address := frame }
        cloneLoop cr3 ret room
          (setEntry (setEntry (update h frame emptyTable) cr3 index e) ret index e) frames

def cloneUpperHalf (h : Heap) (cr3 : Frame) (frames : List Frame) :
  Except Fault (Frame × Heap × List Frame) :=
  match frames with
  | [] => .error .outOfFrames
  | ret :: frames => do
    let (h, frames) ← cloneLoop cr3 ret 256 (update h ret emptyTable) frames
    .ok (ret, h, frames)

def virtToPhys (h : Heap) : ℕ → Frame → ℕ → Option ℕ
  | 0, _, _ => none
  | I + 1, table, virt =>
    let e := h table (tableIndex (I + 1) virt)
    if e.present then
      if I = 0 ∨ e.size = true then some (getPhys e.address) else virtToPhys h I e.address virt
    else none

variable {σ : Type} {I : ℕ} {body : Fin 512 → ℕ → ℕ → σ → Except Fault σ} {vs ve : ℕ} {s s' : σ}

theorem entryLoop_of_not_lt (h : ¬ vs < ve) (r : ℕ) : entryLoop I body r vs ve s = .ok s := by
  cases r with
  | zero => exact if_neg h
  | succ r => exact if_neg h

theorem entryLoop_succ {r : ℕ} (hI : I ≤ 4) (hv : ve < 2 ^ 64) (hl : vs < ve)
  (hi : vs / entrySize I % 512 + (r + 1) = 512) (h : entryLoop I body (r + 1) vs ve s = .ok s') :
  ∃ m s₁, Round (entrySize I) vs ve m ∧ body (tableIndex I vs) vs m s = .ok s₁ ∧
  entryLoop I body r m ve s₁ = .ok s' := by
  rw [entryLoop, if_pos hl] at h
  obtain ⟨s₁, hb, hr⟩ := bind_eq_ok h
  have hid : tableIndex I vs = ⟨511 - r, entry_lt r⟩ := by
    refine Fin.ext ?_
    rw [tableIndex_val]
    simp only
    omega
  exact ⟨_, s₁, round_entryVirtEnd hI hl hv, hid ▸ hb, hr⟩

theorem entryLoop_block (hI : I ≤ 4) (hv : ve < 2 ^ 64) (room : ℕ) (h : vs < ve)
  (hi : vs / entrySize I % 512 + room = 512) (ho : entryLoop I body room vs ve s = .ok s') :
  (ve - 1) / entrySize I < vs / entrySize I + room := by
  induction room generalizing vs s with
  | zero =>
    rw [entryLoop, if_pos h] at ho
    cases ho
  | succ room ih =>
    obtain ⟨m, s₁, hr, -, hre⟩ := entryLoop_succ hI hv h hi ho
    rcases lt_or_ge m ve with hm | hm
    · have hn := hr.next hm
      cases room with
      | zero =>
        rw [entryLoop, if_pos hm] at hre
        cases hre
      | succ room =>
        have hb := ih hm (by omega) hre
        omega
    · have hl := hr.inside (ve - 1) (by omega) (by omega)
      omega

theorem entryLoop_invariant (hI : I ≤ 4) (hve : ve < 2 ^ 64) (P : ℕ → σ → Prop) (r : ℕ)
  (h : vs ≤ ve) (hi : vs < ve → vs / entrySize I % 512 + r = 512)
  (hs : ∀ a b s s', vs ≤ a → a < b → b ≤ ve →
  (∀ x, a ≤ x → x < b → tableIndex I x = tableIndex I a) →
  (∀ x, b ≤ x → x < ve → tableIndex I x ≠ tableIndex I a) →
  P a s → body (tableIndex I a) a b s = .ok s' → P b s')
  (hk : entryLoop I body r vs ve s = .ok s') (hp : P vs s) : P ve s' := by
  induction r generalizing vs s with
  | zero =>
    rcases lt_or_ge vs ve with hlt | hge
    · rw [entryLoop, if_pos hlt] at hk
      cases hk
    · cases le_antisymm h hge
      rw [entryLoop_of_not_lt (lt_irrefl _)] at hk
      cases hk
      exact hp
  | succ r ih =>
    rcases lt_or_ge vs ve with hlt | hge
    · have hid := hi hlt
      have hbl := entryLoop_block hI hve _ hlt hid hk
      obtain ⟨m, s₁, hr, hb, hre⟩ := entryLoop_succ hI hve hlt hid hk
      have hvm := hr.lt
      have hin (x : ℕ) (hx : vs ≤ x) (hx' : x < m) : tableIndex I x = tableIndex I vs :=
        Fin.ext (by rw [tableIndex_val, tableIndex_val, hr.inside x hx hx'])
      have ho (x : ℕ) (hx : m ≤ x) (hx' : x < ve) : tableIndex I x ≠ tableIndex I vs := by
        intro he
        have hne := hr.beyond x hx hx'
        have hl : vs / entrySize I ≤ x / entrySize I := Nat.div_le_div_right (by omega)
        have hh : x / entrySize I ≤ (ve - 1) / entrySize I := Nat.div_le_div_right (by omega)
        have hv := congrArg Fin.val he
        rw [tableIndex_val, tableIndex_val] at hv
        omega
      refine ih hr.le (fun hm ↦ ?_) (fun a b s s' ha ↦ hs a b s s' (by omega)) hre
        (hs vs m s s₁ le_rfl hvm hr.le hin ho hp hb)
      have hn := hr.next hm
      have hl : m / entrySize I ≤ (ve - 1) / entrySize I := Nat.div_le_div_right (by omega)
      omega
    · cases le_antisymm h hge
      rw [entryLoop_of_not_lt (lt_irrefl _)] at hk
      cases hk
      exact hp

end ReaverOS.Paging.TableHeap
