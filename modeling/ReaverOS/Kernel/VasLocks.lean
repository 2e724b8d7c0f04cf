import Mathlib.Tactic.FinCases
import ReaverOS.Foundation.Runs
import ReaverOS.Foundation.Total

namespace ReaverOS.Kernel.VasLocks

open Foundation

section

open Function

abbrev Mapping := ℕ

structure SharedMutex where
  unique : Bool := false
  shared : ℕ := 0
  deriving DecidableEq

def SharedMutex.Free (m : SharedMutex) : Prop :=
  m.unique = false ∧ m.shared = 0

instance (m : SharedMutex) : Decidable m.Free :=
  inferInstanceAs (Decidable (_ ∧ _))

structure Locks where
  vas : Bool := false
  mapping : Mapping → SharedMutex := fun _ ↦ {}

inductive Call
  /-- `unmap`, at the lock of the mapping. -/
  | unmapStart (m : Mapping)
  /-- With that lock, at the lock of the address space. -/
  | unmapLocked (m : Mapping)
  | unmapBoth (m : Mapping)
  /-- The lock of the address space is released. -/
  | unmapUnlock (m : Mapping)
  | running (held : List Mapping)
  /-- `lock_address_range`, at the lock of the address space. -/
  | rangeStart (held : List Mapping)
  | rangeLocked (held : List Mapping)
  /-- In `lock_shared` of the mapping it has found, counted there already. -/
  | rangeWaits (held : List Mapping) (m : Mapping)
  | rangeBoth (held : List Mapping) (m : Mapping)
  /-- `map_vmo`, at the lock of the address space. -/
  | mapStart (held : List Mapping)
  | mapLocked (held : List Mapping)
  /-- The guards of the system call are destroyed. -/
  | leaving (held : List Mapping)
  | returned
  deriving DecidableEq

inductive Action
  | lockMapping
  | unlockMapping
  | lockVas
  | unlockVas
  | lockAddressRange
  | find (m : Mapping)
  | notFound
  | share
  | mapVmo
  | leave
  | unlockShared
  deriving DecidableEq

namespace Locks

variable (L : Locks)

def setVas (b : Bool) : Locks := { L with vas := b }

def setMapping (m : Mapping) (v : SharedMutex) : Locks := { L with mapping := update L.mapping m v }

def advance : Call → Action → Option (Locks × Call)
  | .unmapStart m, .lockMapping =>
    if (L.mapping m).Free then
      some (L.setMapping m { L.mapping m with unique := true }, .unmapLocked m)
    else none
  | .unmapLocked m, .lockVas => if L.vas then none else some (L.setVas true, .unmapBoth m)
  | .unmapBoth m, .unlockVas => some (L.setVas false, .unmapUnlock m)
  | .unmapUnlock m, .unlockMapping =>
    some (L.setMapping m { L.mapping m with unique := !(L.mapping m).unique }, .returned)
  | .running held, .lockAddressRange => some (L, .rangeStart held)
  | .running held, .mapVmo => some (L, .mapStart held)
  | .running held, .leave => some (L, .leaving held)
  | .rangeStart held, .lockVas => if L.vas then none else some (L.setVas true, .rangeLocked held)
  | .rangeLocked held, .find m =>
    some (L.setMapping m { L.mapping m with shared := (L.mapping m).shared + 1 },
      .rangeWaits held m)
  | .rangeLocked held, .notFound => some (L.setVas false, .leaving held)
  | .rangeWaits held m, .share =>
    if (L.mapping m).unique then none else some (L, .rangeBoth held m)
  | .rangeBoth held m, .unlockVas => some (L.setVas false, .running (m :: held))
  | .mapStart held, .lockVas => if L.vas then none else some (L.setVas true, .mapLocked held)
  | .mapLocked held, .unlockVas => some (L.setVas false, .running held)
  | .leaving (m :: held), .unlockShared =>
    some (L.setMapping m { L.mapping m with shared := (L.mapping m).shared - 1 }, .leaving held)
  | .leaving [], .leave => some (L, .returned)
  | _, _ => none

end Locks

structure State where
  locks : Locks := {}
  calls : List Call := []

inductive Op
  | unmap (m : Mapping)
  | syscall
  | act (i : ℕ) (a : Action)
  deriving DecidableEq

def step (s : State) : Op → Option State
  | .unmap m => some { s with calls := s.calls ++ [.unmapStart m] }
  | .syscall => some { s with calls := s.calls ++ [.running []] }
  | .act i a => do
    let c ← s.calls[i]?
    let (L, c') ← s.locks.advance c a
    some ⟨L, s.calls.set i c'⟩

inductive Lock
  | vas
  | mapping (m : Mapping)
  deriving DecidableEq

namespace Call

def held : Call → List Mapping
  | running h | rangeStart h | rangeLocked h | rangeWaits h _ | mapStart h | mapLocked h
  | leaving h => h
  | rangeBoth h m => m :: h
  | unmapStart _ | unmapLocked _ | unmapBoth _ | unmapUnlock _ | returned => []

def holdsVas : Call → Bool
  | unmapBoth _ | rangeLocked _ | rangeWaits _ _ | rangeBoth _ _ | mapLocked _ => true
  | _ => false

def owned : Call → Option Mapping
  | unmapLocked m | unmapBoth m | unmapUnlock m => some m
  | _ => none

def pending : Call → Option Mapping
  | rangeWaits _ m => some m
  | _ => none

def Holds (c : Call) : Lock → Prop
  | .vas => c.holdsVas = true
  | .mapping m => c.owned = some m ∨ c.pending = some m ∨ m ∈ c.held

end Call

def Locks.Waits (L : Locks) : Call → Lock → Prop
  | .unmapStart m, .mapping m' => m' = m ∧ ¬ (L.mapping m).Free
  | .rangeWaits _ m, .mapping m' => m' = m ∧ (L.mapping m).unique = true
  | .unmapLocked _, .vas | .rangeStart _, .vas | .mapStart _, .vas => L.vas = true
  | _, _ => False

def State.Deadlocked (s : State) : Prop :=
  ∃ waiting : List ℕ, waiting ≠ [] ∧ ∀ i ∈ waiting, ∃ c l, s.calls[i]? = some c ∧
    s.locks.Waits c l ∧ ∃ j ∈ waiting, j ≠ i ∧ ∃ d, s.calls[j]? = some d ∧ d.Holds l

end

open Foundation.Runs List Option

section

open Function

namespace Call

def vasWeight (c : Call) : ℕ := c.holdsVas.toNat

def ownWeight (m : Mapping) (c : Call) : ℕ := if c.owned = some m then 1 else 0

def shareWeight (m : Mapping) (c : Call) : ℕ :=
  c.held.count m + if c.pending = some m then 1 else 0

end Call

structure Change (L : Locks) (c : Call) (a : Action) (L' : Locks) (c' : Call) : Prop where
  vas : L'.vas.toNat + c.vasWeight = L.vas.toNat + c'.vasWeight
  own : ∀ m, (L'.mapping m).unique.toNat + c.ownWeight m =
    (L.mapping m).unique.toNat + c'.ownWeight m
  share : ∀ m, (L'.mapping m).shared + c.shareWeight m = (L.mapping m).shared + c'.shareWeight m
  taken : ∀ m, (L'.mapping m).unique = true →
    (L.mapping m).unique = true ∨ (L.mapping m).shared = 0
  granted : ∀ m ∈ c'.held, m ∈ c.held ∨ (L'.mapping m).unique = false
  locked : ∀ m, c' = .unmapLocked m → (L.mapping m).shared = 0
  waits : ∀ held m, c' = .rangeWaits held m → a = .find m

variable {L L' : Locks} {c c' : Call} {a : Action}

theorem Change.of_vas {b : Bool} (hv : L.vas = !b) (hc : c.holdsVas = !b) (hc' : c'.holdsVas = b)
  (ho : c'.owned = c.owned) (hh : c'.held = c.held) (hp : c.pending = none)
  (hp' : c'.pending = none) (hl : ∀ m, c' ≠ .unmapLocked m) :
  Change L c a (L.setVas b) c' where
  vas := by
    rw [Call.vasWeight, Call.vasWeight, hc, hc', hv]
    exact Nat.add_comm _ _
  own m := by rw [Call.ownWeight, Call.ownWeight, ho]; rfl
  share m := by rw [Call.shareWeight, Call.shareWeight, hh, hp, hp']; rfl
  taken m h := .inl h
  granted m h := .inl (hh ▸ h)
  locked m h := absurd h (hl m)
  waits held m h := by
    rw [h] at hp'
    cases hp'

theorem Change.of_local (hv : c'.holdsVas = c.holdsVas) (ho : c'.owned = c.owned)
  (hh : c'.held = c.held) (hp : c.pending = none) (hp' : c'.pending = none)
  (hl : ∀ m, c' ≠ .unmapLocked m) : Change L c a L c' where
  vas := by rw [Call.vasWeight, Call.vasWeight, hv]
  own m := by rw [Call.ownWeight, Call.ownWeight, ho]
  share m := by rw [Call.shareWeight, Call.shareWeight, hh, hp, hp']
  taken m h := .inl h
  granted m h := .inl (hh ▸ h)
  locked m h := absurd h (hl m)
  waits held m h := by
    rw [h] at hp'
    cases hp'

theorem setMapping_self (L : Locks) (m : Mapping) (v : SharedMutex) :
  (L.setMapping m v).mapping m = v := by
  simp [Locks.setMapping]

variable {m : Mapping}

theorem setMapping_of_ne (L : Locks) {k : Mapping} (v : SharedMutex) (h : k ≠ m) :
  (L.setMapping m v).mapping k = L.mapping k := by
  simp [Locks.setMapping, h]

theorem change_lockMapping (hf : (L.mapping m).Free) :
  Change L (.unmapStart m) a (L.setMapping m { L.mapping m with unique := true })
  (.unmapLocked m) where
  vas := rfl
  own k := by
    by_cases hk : k = m
    · rw [hk, setMapping_self, hf.1]
      simp [Call.ownWeight, Call.owned]
    · rw [setMapping_of_ne L _ hk]
      simp [Call.ownWeight, Call.owned, Ne.symm hk]
  share k := by
    by_cases hk : k = m
    · rw [hk, setMapping_self]
      rfl
    · rw [setMapping_of_ne L _ hk]
      rfl
  taken k h := by
    by_cases hk : k = m
    · exact .inr (hk ▸ hf.2)
    · rw [setMapping_of_ne L _ hk] at h
      exact .inl h
  granted k h := by cases h
  locked k h := by
    cases h
    exact hf.2
  waits held k h := by cases h

theorem change_unlockMapping (hu : (L.mapping m).unique = true) : Change L (.unmapUnlock m) a
  (L.setMapping m { L.mapping m with unique := !(L.mapping m).unique }) .returned where
  vas := rfl
  own k := by
    by_cases hk : k = m
    · rw [hk, setMapping_self, hu]
      simp [Call.ownWeight, Call.owned]
    · rw [setMapping_of_ne L _ hk]
      simp [Call.ownWeight, Call.owned, Ne.symm hk]
  share k := by
    by_cases hk : k = m
    · rw [hk, setMapping_self]
      rfl
    · rw [setMapping_of_ne L _ hk]
      rfl
  taken k h := by
    by_cases hk : k = m
    · exact .inl (hk ▸ hu)
    · rw [setMapping_of_ne L _ hk] at h
      exact .inl h
  granted k h := by cases h
  locked k h := by cases h
  waits held k h := by cases h

theorem Change.of_count {n : ℕ} (hv : c'.holdsVas = c.holdsVas) (how : c.owned = none)
  (how' : c'.owned = none) (hh : c'.held ⊆ c.held)
  (hs : n + c.shareWeight m = (L.mapping m).shared + c'.shareWeight m)
  (ho : ∀ k, k ≠ m → c.shareWeight k = c'.shareWeight k)
  (hw : ∀ he k, c' = .rangeWaits he k → a = .find k) :
  Change L c a (L.setMapping m { L.mapping m with shared := n }) c' where
  vas := by
    rw [Call.vasWeight, Call.vasWeight, hv]
    rfl
  own k := by
    have hu : ((L.setMapping m { L.mapping m with shared := n }).mapping k).unique =
      (L.mapping k).unique := by
      by_cases hk : k = m
      · rw [hk, setMapping_self]
      · rw [setMapping_of_ne L _ hk]
    rw [hu, Call.ownWeight, Call.ownWeight, how, how']
  share k := by
    by_cases hk : k = m
    · rw [hk, setMapping_self]
      exact hs
    · rw [setMapping_of_ne L _ hk, ho k hk]
  taken k h := by
    by_cases hk : k = m
    · rw [hk, setMapping_self] at h
      exact .inl (hk ▸ h)
    · rw [setMapping_of_ne L _ hk] at h
      exact .inl h
  granted k h := .inl (hh h)
  locked k h := by
    rw [h] at how'
    cases how'
  waits := hw

theorem change_share {he : List Mapping} (hu : (L.mapping m).unique = false) :
  Change L (.rangeWaits he m) a L (.rangeBoth he m) where
  vas := rfl
  own k := rfl
  share k := by
    by_cases hk : k = m
    · simp [hk, Call.shareWeight, Call.held, Call.pending]
    · simp [Ne.symm hk, Call.shareWeight, Call.held, Call.pending]
  taken k h := .inl h
  granted k h := by
    obtain rfl | h := mem_cons.mp h
    · exact .inr hu
    · exact .inl h
  locked k h := by cases h
  waits he k h := by cases h

theorem eq_true_of_toNat_pos {b : Bool} (h : 1 ≤ b.toNat) : b = true := by
  cases b with
  | true => rfl
  | false => cases h

theorem change_find {he : List Mapping} : Change L (.rangeLocked he) (.find m)
  (L.setMapping m { L.mapping m with shared := (L.mapping m).shared + 1 }) (.rangeWaits he m) := by
  refine .of_count rfl rfl rfl (List.Subset.refl _) ?_ ?_ ?_
  · simp [Call.shareWeight, Call.held, Call.pending]
    omega
  · intro k hk
    simp [Call.shareWeight, Call.held, Call.pending, Ne.symm hk]
  · intro he k h
    cases h
    rfl

theorem change_unlockShared {he : List Mapping}
  (hs : (Call.leaving (m :: he)).shareWeight m ≤ (L.mapping m).shared) :
  Change L (.leaving (m :: he)) a
  (L.setMapping m { L.mapping m with shared := (L.mapping m).shared - 1 }) (.leaving he) := by
  refine .of_count rfl rfl rfl (subset_cons_self _ _) ?_ ?_ ?_
  · simp [Call.shareWeight, Call.held, Call.pending] at hs ⊢
    omega
  · intro k hk
    simp [Call.shareWeight, Call.held, Call.pending, Ne.symm hk]
  · intro he k h
    cases h

theorem change_of_advance (h : L.advance c a = some (L', c')) (hv : c.vasWeight ≤ L.vas.toNat)
  (ho : ∀ m, c.ownWeight m ≤ (L.mapping m).unique.toNat)
  (hs : ∀ m, c.shareWeight m ≤ (L.mapping m).shared) : Change L c a L' c' := by
  have hh (hc : c.holdsVas = true) : L.vas = true := by
    rw [Call.vasWeight, hc] at hv
    exact eq_true_of_toNat_pos hv
  -- One case for each line of the source's steps.
  unfold Locks.advance at h
  split at h
  case h_1 m =>
    obtain ⟨hf, h⟩ := Option.ite_none_right_eq_some.mp h
    cases h
    exact change_lockMapping hf
  case h_4 m =>
    cases h
    apply change_unlockMapping
    apply eq_true_of_toNat_pos
    simpa [Call.ownWeight, Call.owned] using ho m
  case h_9 held m =>
    cases h
    exact change_find
  case h_11 held m =>
    obtain ⟨hu, h⟩ := Option.ite_none_left_eq_some.mp h
    cases h
    exact change_share (Bool.not_eq_true _ ▸ hu)
  case h_15 m held =>
    cases h
    exact change_unlockShared (hs m)
  case h_2 | h_8 | h_13 =>
    obtain ⟨hf, h⟩ := Option.ite_none_left_eq_some.mp h
    cases h
    exact .of_vas (Bool.not_eq_true _ ▸ hf) rfl rfl rfl rfl rfl rfl (by simp)
  case h_3 | h_10 | h_12 | h_14 =>
    cases h
    exact .of_vas (hh rfl) rfl rfl rfl rfl rfl rfl (by simp)
  case h_5 | h_6 | h_7 | h_16 =>
    cases h
    exact .of_local rfl rfl rfl rfl rfl (by simp)
  case h_17 => cases h

end

/-- `lock_address_range` asks for a mapping only while no `unmap` that holds it is still at the lock
of the address space. -/
def Careful (s : State) : Op → Prop
  | .act _ (.find m) => .unmapLocked m ∉ s.calls
  | _ => True

structure Invariant (s : State) : Prop where
  vas : total Call.vasWeight s.calls = s.locks.vas.toNat
  own : ∀ m, total (Call.ownWeight m) s.calls = (s.locks.mapping m).unique.toNat
  share : ∀ m, total (Call.shareWeight m) s.calls = (s.locks.mapping m).shared
  granted : ∀ m, (s.locks.mapping m).unique = true → ∀ c ∈ s.calls, m ∉ c.held
  waits : ∀ held m, .rangeWaits held m ∈ s.calls → .unmapLocked m ∉ s.calls

variable {s t : State}

theorem invariant_initial : Invariant {} where
  vas := rfl
  own _ := rfl
  share _ := rfl
  granted _ h := by cases h
  waits _ _ h := by cases h

variable {c : Call}

theorem Invariant.begin (h : Invariant s) (hv : c.holdsVas = false) (ho : c.owned = none)
  (hh : c.held = []) (hp : c.pending = none) :
  Invariant { s with calls := s.calls ++ [c] } where
  vas := by
    rw [total_append, h.vas, total_singleton, Call.vasWeight, hv]
    rfl
  own m := by
    rw [total_append, h.own, total_singleton, Call.ownWeight, ho]
    rfl
  share m := by
    rw [total_append, h.share, total_singleton, Call.shareWeight, hh, hp]
    rfl
  granted m hm := by
    refine forall_mem_append.mpr ⟨h.granted m hm, forall_mem_singleton.mpr ?_⟩
    rw [hh]
    exact not_mem_nil
  waits held m hw hl := by
    obtain hw | hw := mem_append.mp hw
    · obtain hl | hl := mem_append.mp hl
      · exact h.waits held m hw hl
      · rw [← mem_singleton.mp hl] at ho
        cases ho
    · rw [← mem_singleton.mp hw] at hp
      cases hp

variable {m : Mapping}

theorem Invariant.shareWeight_eq_zero (h : Invariant s) (hm : (s.locks.mapping m).shared = 0)
  (hc : c ∈ s.calls) : m ∉ c.held ∧ c.pending ≠ some m := by
  have hw : c.shareWeight m = 0 := by
    have := le_total (Call.shareWeight m) hc
    rw [h.share, hm] at this
    omega
  obtain ⟨hco, hp⟩ := Nat.add_eq_zero_iff.mp hw
  refine ⟨count_eq_zero.mp hco, ?_⟩
  intro hs
  rw [if_pos hs] at hp
  cases hp

variable {i : ℕ} {L : Locks}

theorem Invariant.act (h : Invariant s) {c' : Call} {a : Action} (hc : s.calls[i]? = some c)
  (hs : s.locks.advance c a = some (L, c')) (hca : Careful s (.act i a)) :
  Invariant ⟨L, s.calls.set i c'⟩ := by
  have hme := mem_of_getElem? hc
  have hch := change_of_advance hs (h.vas ▸ le_total _ hme)
    (fun m ↦ h.own m ▸ le_total _ hme) (fun m ↦ h.share m ▸ le_total _ hme)
  refine ⟨total_set_eq hc h.vas hch.vas, fun m ↦ total_set_eq hc (h.own m) (hch.own m),
    fun m ↦ total_set_eq hc (h.share m) (hch.share m), ?_, ?_⟩
  · intro m hu
    have ho : ∀ d ∈ s.calls, m ∉ d.held := by
      intro d hd
      obtain hm | hm := hch.taken m hu
      · exact h.granted m hm d hd
      · exact (h.shareWeight_eq_zero hm hd).1
    intro d hd
    obtain hd | rfl := mem_or_eq_of_mem_set hd
    · exact ho d hd
    · intro hh
      obtain hm | hm := hch.granted m hh
      · exact ho c hme hm
      · rw [hm] at hu
        cases hu
  · intro he m hw hl
    obtain hw | hw := mem_or_eq_of_mem_set hw
    · obtain hl | hl := mem_or_eq_of_mem_set hl
      · exact h.waits he m hw hl
      · exact (h.shareWeight_eq_zero (hch.locked m hl.symm) hw).2 rfl
    · obtain rfl := hch.waits he m hw.symm
      obtain hl | hl := mem_or_eq_of_mem_set hl
      · exact hca hl
      · rw [← hw] at hl
        cases hl

theorem step_act_eq_some {a : Action} (h : step s (.act i a) = some t) :
  ∃ c L c', s.calls[i]? = some c ∧ s.locks.advance c a = some (L, c') ∧
  t = ⟨L, s.calls.set i c'⟩ := by
  obtain ⟨c, hc, h⟩ := bind_eq_some_iff.mp h
  obtain ⟨⟨L, c'⟩, ha, h⟩ := bind_eq_some_iff.mp h
  cases h
  exact ⟨c, L, c', hc, ha, rfl⟩

theorem Invariant.step (h : Invariant s) {op : Op} (hca : Careful s op)
  (hs : step s op = some t) : Invariant t := by
  cases op with
  | unmap m =>
    cases hs
    exact h.begin rfl rfl rfl rfl
  | syscall =>
    cases hs
    exact h.begin rfl rfl rfl rfl
  | act i a =>
    obtain ⟨c, L, c', hc, ha, rfl⟩ := step_act_eq_some hs
    exact h.act hc ha hca

theorem invariant_of_reachable (h : Reachable step Careful {} s) : Invariant s :=
  h.invariant invariant_initial fun _ _ _ hs hc hst ↦ hs.step hc hst

theorem waits_cases {l : Lock} (h : L.Waits c l) : (∃ m, c = .unmapStart m ∧ l = .mapping m) ∨
  (∃ he m, c = .rangeWaits he m ∧ l = .mapping m ∧ (L.mapping m).unique = true) ∨
  (l = .vas ∧ ((∃ m, c = .unmapLocked m) ∨ (∃ he, c = .rangeStart he) ∨
  ∃ he, c = .mapStart he)) := by
  unfold Locks.Waits at h
  split at h
  case h_1 m m' => exact .inl ⟨m, rfl, congrArg _ h.1⟩
  case h_2 he m m' =>
    obtain ⟨rfl, hu⟩ := h
    exact .inr (.inl ⟨he, _, rfl, rfl, hu⟩)
  case h_3 m => exact .inr (.inr ⟨rfl, .inl ⟨m, rfl⟩⟩)
  case h_4 he => exact .inr (.inr ⟨rfl, .inr (.inl ⟨he, rfl⟩)⟩)
  case h_5 he => exact .inr (.inr ⟨rfl, .inr (.inr ⟨he, rfl⟩)⟩)
  case h_6 => cases h

theorem eq_unmapLocked_of_waits {l : Lock} (h : L.Waits c l) (ho : c.owned = some m) :
  c = .unmapLocked m := by
  obtain ⟨k, rfl, -⟩ | ⟨he, k, rfl, -⟩ | ⟨-, ⟨k, rfl⟩ | ⟨he, rfl⟩ | ⟨he, rfl⟩⟩ := waits_cases h
  · cases ho
  · cases ho
  · cases ho
    rfl
  · cases ho
  · cases ho

theorem holdsVas_of_pending (h : c.pending = some m) : c.holdsVas = true := by
  cases c with
  | rangeWaits he k => rfl
  | _ => cases h

theorem Invariant.eq_of_holdsVas (h : Invariant s) {j : ℕ} {d : Call} (hi : s.calls[i]? = some c)
  (hj : s.calls[j]? = some d) (hc : c.holdsVas = true) (hd : d.holdsVas = true) : i = j := by
  by_contra hij
  have hle := add_le_total Call.vasWeight hij hi hj
  rw [h.vas, Call.vasWeight, Call.vasWeight, hc, hd] at hle
  have := s.locks.vas.toNat_le
  exact absurd (hle.trans this) (by decide)

theorem Invariant.not_deadlocked (h : Invariant s) : ¬ s.Deadlocked := by
  rintro ⟨waiting, hne, hwa⟩
  -- the holder of the lock of the address space does not wait
  have hv : ∀ i ∈ waiting, ∀ c, s.calls[i]? = some c → c.holdsVas = false := by
    intro i hi c hc
    by_contra hh
    rw [Bool.not_eq_false] at hh
    obtain ⟨c', l, hc', hw, j, hj, hji, d, hd, hl⟩ := hwa i hi
    obtain rfl := some_inj.mp (hc.symm.trans hc')
    obtain ⟨m, rfl, -⟩ | ⟨he, m, rfl, rfl, hu⟩ |
      ⟨-, ⟨m, rfl⟩ | ⟨he, rfl⟩ | ⟨he, rfl⟩⟩ := waits_cases hw
    · cases hh
    · obtain ho | hp | hhe := hl
      · obtain ⟨d', l', hd', hw', -⟩ := hwa j hj
        obtain rfl := some_inj.mp (hd.symm.trans hd')
        obtain rfl := eq_unmapLocked_of_waits hw' ho
        exact h.waits he m (mem_of_getElem? hc) (mem_of_getElem? hd)
      · exact hji (h.eq_of_holdsVas hd hc (holdsVas_of_pending hp) hh)
      · exact h.granted m hu d (mem_of_getElem? hd) hhe
    · cases hh
    · cases hh
    · cases hh
  -- so that every call of the set is an `unmap` at its first lock
  have hs : ∀ i ∈ waiting, ∃ m, s.calls[i]? = some (.unmapStart m) := by
    intro i hi
    obtain ⟨c, l, hc, hw, j, hj, hji, d, hd, hl⟩ := hwa i hi
    obtain ⟨m, rfl, -⟩ | ⟨he, m, rfl, -⟩ | ⟨rfl, -⟩ := waits_cases hw
    · exact ⟨m, hc⟩
    · cases hv i hi _ hc
    · have := hv j hj d hd
      rw [show d.holdsVas = true from hl] at this
      cases this
  obtain ⟨i, hi⟩ := exists_mem_of_ne_nil waiting hne
  obtain ⟨m, hc⟩ := hs i hi
  obtain ⟨c, l, hc', hw, j, hj, -, d, hd, hl⟩ := hwa i hi
  obtain ⟨k, hd'⟩ := hs j hj
  obtain rfl := some_inj.mp (hd.symm.trans hd')
  obtain rfl := some_inj.mp (hc.symm.trans hc')
  obtain ⟨m, -, rfl⟩ | ⟨he, m, h, -⟩ | ⟨-, ⟨m, h⟩ | ⟨he, h⟩ | ⟨he, h⟩⟩ := waits_cases hw
  · obtain hl | hl | hl := hl <;> cases hl
  · cases h
  · cases h
  · cases h
  · cases h

theorem advance_find_eq_some {L' : Locks} {c' : Call} (h : L.advance c (.find m) = some (L', c')) :
  ∃ he, c = .rangeLocked he ∧ c' = .rangeWaits he m ∧ L'.vas = L.vas ∧
  (L'.mapping m).unique = (L.mapping m).unique := by
  cases c with
  | rangeLocked he =>
    cases h
    exact ⟨he, rfl, rfl, rfl, by rw [setMapping_self]⟩
  | leaving he => cases he <;> cases h
  | _ => cases h

theorem Invariant.deadlocked_of_not_careful (h : Invariant s) (hl : .unmapLocked m ∈ s.calls)
  (hs : VasLocks.step s (.act i (.find m)) = some t) : t.Deadlocked := by
  obtain ⟨c, L, c', hc, ha, rfl⟩ := step_act_eq_some hs
  obtain ⟨he, rfl, rfl, hv, hu⟩ := advance_find_eq_some ha
  obtain ⟨j, hj⟩ := mem_iff_getElem?.mp hl
  have hij : i ≠ j := by
    rintro rfl
    rw [hc] at hj
    cases hj
  have hv' : s.locks.vas = true :=
    eq_true_of_toNat_pos (h.vas ▸ le_total Call.vasWeight (mem_of_getElem? hc))
  have hu' : (s.locks.mapping m).unique = true := by
    have := le_total (Call.ownWeight m) hl
    rw [h.own, Call.ownWeight, Call.owned, if_pos rfl] at this
    exact eq_true_of_toNat_pos this
  have hi' : (s.calls.set i (.rangeWaits he m))[i]? = some (.rangeWaits he m) := by
    rw [List.getElem?_set_self (List.getElem?_eq_some_iff.mp hc).1]
  have hj' : (s.calls.set i (.rangeWaits he m))[j]? = some (.unmapLocked m) := by
    rw [getElem?_set_ne hij, hj]
  refine ⟨[i, j], cons_ne_nil _ _, ?_⟩
  intro k hk
  obtain rfl | hk := mem_cons.mp hk
  · exact ⟨_, .mapping m, hi', ⟨rfl, hu.trans hu'⟩, j, by simp, hij.symm, _, hj', .inl rfl⟩
  · obtain rfl := mem_singleton.mp hk
    exact ⟨_, .vas, hj', hv.trans hv', i, by simp, hij, _, hi', rfl⟩

theorem not_deadlocked_of_careful (s : State) (h : Reachable step Careful {} s) :
    ¬ s.Deadlocked ∧ ∀ op t, step s op = some t → (t.Deadlocked ↔ ¬ Careful s op) := by
  have hi := invariant_of_reachable h
  refine ⟨hi.not_deadlocked, ?_⟩
  intro op t hs
  constructor
  · intro hd hc
    exact (hi.step hc hs).not_deadlocked hd
  · intro hc
    cases op with
    | unmap m => exact absurd trivial hc
    | syscall => exact absurd trivial hc
    | act i a =>
      cases a with
      | find m => exact hi.deadlocked_of_not_careful (not_not.mp hc) hs
      | _ => exact absurd trivial hc

def crossing : List Op :=
  [.unmap 0, .syscall, .act 0 .lockMapping, .act 1 .lockAddressRange, .act 1 .lockVas]

theorem crossing_not_deadlocked : ∃ s t, Reachable step Careful {} s ∧ ¬ s.Deadlocked ∧
  step s (.act 1 (.find 0)) = some t ∧ (t.Deadlocked ↔ ¬ Careful s (.act 1 (.find 0))) := by
  obtain ⟨s, he⟩ : ∃ s, exec step {} crossing = some s := ⟨_, rfl⟩
  have hr : Reachable step Careful {} s := by
    apply Reachable.of_exec _ he
    intro op hop s
    fin_cases hop <;> trivial
  obtain ⟨hno, hn⟩ := not_deadlocked_of_careful s hr
  cases he
  exact ⟨_, _, hr, hno, rfl, hn _ _ rfl⟩

theorem deadlock_reached : ∃ s, Reachable step Unrestricted {} s ∧ s.Deadlocked := by
  obtain ⟨s, he⟩ : ∃ s, exec step {} (crossing ++ [.act 1 (.find 0)]) = some s := ⟨_, rfl⟩
  refine ⟨s, Reachable.of_exec (fun _ _ _ ↦ trivial) he, ?_⟩
  cases he
  refine ⟨[0, 1], by decide, ?_⟩
  intro i hi
  fin_cases hi
  · exact ⟨_, .vas, rfl, rfl, 1, by decide, by decide, _, rfl, rfl⟩
  · exact ⟨_, .mapping 0, rfl, ⟨rfl, rfl⟩, 0, by decide, by decide, _, rfl, .inl rfl⟩

end ReaverOS.Kernel.VasLocks
