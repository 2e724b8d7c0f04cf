import Mathlib.Logic.Function.Basic
import ReaverOS.Foundation.Runs

namespace ReaverOS.Kernel.Preemption

open Function

abbrev Core := Nat
abbrev Thread := Nat

structure Descriptor where
  id : Nat
  self : Core
  triggerTime : Nat
  deriving DecidableEq, Repr

structure World where
  idle : Core → Thread
  children : List Core

structure State where
  threads : Core → List Thread := fun _ ↦ []
  current : Core → Option Thread := fun _ ↦ none
  preemptionToken : Core → Option Nat := fun _ ↦ none
  timestamp : Thread → Nat := fun _ ↦ 0
  heap : Core → List Descriptor := fun _ ↦ []
  cancelled : List Nat := []
  nextId : Nat := 0
  now : Nat := 0
  inFlight : Core → Nat := fun _ ↦ 0
  rescheduled : List (Core × Core) := []
  panicked : Bool := false

def World.initial (w : World) : State := { current := fun c ↦ some (w.idle c) }

namespace State

variable (s : State)

def setThreads (i : Core) (ts : List Thread) : State := { s with threads := update s.threads i ts }

def setCurrent (i : Core) (t : Option Thread) : State := { s with current := update s.current i t }

def stamp (t : Thread) : State := { s with timestamp := update s.timestamp t s.now }

def setHeap (c : Core) (ds : List Descriptor) : State := { s with heap := update s.heap c ds }

def setInFlight (c : Core) (n : Nat) : State := { s with inFlight := update s.inFlight c n }

def record (c i : Core) : State := { s with rescheduled := (c, i) :: s.rescheduled }

def panic : State := { s with panicked := true }

def cancelToken (i : Core) : State :=
  { s with cancelled := (s.preemptionToken i).toList ++ s.cancelled }

def oneShot (c i : Core) (after : Nat) : State :=
  { s with
    heap := update s.heap c (⟨s.nextId, i, s.now + after⟩ :: s.heap c)
    preemptionToken := update s.preemptionToken i (some s.nextId)
    nextId := s.nextId + 1 }

end State

def timeSlice : Nat := 1000000000 / 100

def setupPreemption (s : State) (c i : Core) : State :=
  let s := if c ≠ i then s.setInFlight i (s.inFlight i + 1) else s
  if s.threads i ≠ [] then (s.cancelToken i).oneShot c i timeSlice else s

def schedule (s : State) (c i : Core) (thread : Thread) : Option State :=
  if s.current i = some thread then none
  else some (setupPreemption (s.setThreads i (thread :: s.threads i)) c i)

def averageLoad (s : State) (i : Core) : Nat := (s.threads i).length * 100

def lowest (s : State) (children : List Core) : Option Core :=
  children.foldl (fun best child ↦
    match best with
    | none => some child
    | some b => if averageLoad s child < averageLoad s b then some child else best) none

def aggregateSchedule (w : World) (s : State) (c : Core) (thread : Thread) : Option State :=
  (lowest s w.children).bind fun i ↦ schedule s c i thread

def preempt (w : World) (s : State) (i : Core) : State :=
  match s.current i with
  | some t =>
    if t ≠ w.idle i then ((s.stamp t).setThreads i (t :: s.threads i)).setCurrent i none else s
  | none => s

def takeThread (w : World) (s : State) (i : Core) (pick : Thread) : Option State :=
  if s.threads i = [] then some (s.setCurrent i (some (w.idle i)))
  else if pick ∈ s.threads i ∧ ∀ t ∈ s.threads i, s.timestamp pick ≤ s.timestamp t then
    some ((s.setThreads i ((s.threads i).erase pick)).setCurrent i (some pick))
  else none

def reschedule (w : World) (s : State) (c i : Core) (pick : Thread) : Option State :=
  if c ≠ i then some (s.record c i).panic
  else (takeThread w (preempt w (s.record c i) i) i pick).map fun s ↦ setupPreemption s c i

def deschedule (w : World) (s : State) (c : Core) (pick : Thread) : Option State :=
  (s.current c).bind fun t ↦ reschedule w ((s.stamp t).setCurrent c none) c c pick

/-- `timer::_schedule_next` on core `c` takes the descriptor from the top of the heap, and runs its
callback if it has not been cancelled. -/
def fire (w : World) (s : State) (c : Core) (d : Descriptor) (pick : Thread) : Option State :=
  if d ∈ s.heap c ∧ d.triggerTime ≤ s.now ∧ ∀ e ∈ s.heap c, d.triggerTime ≤ e.triggerTime then
    let s := s.setHeap c ((s.heap c).erase d)
    if d.id ∈ s.cancelled then some s else reschedule w s c d.self pick
  else none

def trigger (s : State) (c : Core) : Option State :=
  if s.inFlight c ≠ 0 then some (setupPreemption (s.setInFlight c (s.inFlight c - 1)) c c) else none

inductive Op where
  | schedule (c i : Core) (thread : Thread)
  | aggregateSchedule (c : Core) (thread : Thread)
  | deschedule (c : Core) (pick : Thread)
  | trigger (c : Core)
  | fire (c : Core) (d : Descriptor) (pick : Thread)
  | tick (n : Nat)

def perform (w : World) (s : State) : Op → Option State
  | .schedule c i thread => schedule s c i thread
  | .aggregateSchedule c thread => aggregateSchedule w s c thread
  | .deschedule c pick => deschedule w s c pick
  | .trigger c => trigger s c
  | .fire c d pick => fire w s c d pick
  | .tick n => some { s with now := s.now + n }

def step (w : World) (s : State) (op : Op) : Option State :=
  if s.panicked then none else perform w s op

structure Local (s : State) : Prop where
  registered : ∀ c, ∀ d ∈ s.heap c, d.self = c
  executed : ∀ r ∈ s.rescheduled, r.1 = r.2
  running : s.panicked = false

def OwnInstance (w : World) (s : State) : Op → Prop
  | .schedule c i _ => i = c
  | .aggregateSchedule c _ => lowest s w.children = some c
  | _ => True

open Foundation.Runs List Option

variable {w : World} {s t : State} {op : Op} {c i : Core} {thread pick : Thread} {d : Descriptor}

theorem Local.congr (h : Local s) (hh : t.heap = s.heap)
  (hr : t.rescheduled = s.rescheduled) (hp : t.panicked = s.panicked) :
  Local t :=
  ⟨hh ▸ h.registered, hr ▸ h.executed, hp ▸ h.running⟩

theorem Local.oneShot (h : Local s) (n : Nat) : Local (s.oneShot c c n) := by
  refine ⟨fun k e he ↦ ?_, h.executed, h.running⟩
  rcases eq_or_ne k c with rfl | hne
  · simp only [State.oneShot, update_self] at he
    rcases mem_cons.mp he with rfl | he
    · rfl
    · exact h.registered k e he
  · simp only [State.oneShot, update_of_ne hne] at he
    exact h.registered k e he

theorem Local.setupPreemption (h : Local s) : Local (setupPreemption s c c) := by
  have ho : Local (s.cancelToken c) := h.congr rfl rfl rfl
  simp only [Preemption.setupPreemption, ne_eq, not_true_eq_false, if_false]
  split
  · exact ho.oneShot timeSlice
  · exact h

theorem Local.schedule (h : Local s) (hs : schedule s c c thread = some t) : Local t := by
  obtain ⟨_, he⟩ := ite_none_left_eq_some.mp hs
  cases he
  exact Local.setupPreemption (h.congr rfl rfl rfl)

theorem Local.preempt (h : Local s) : Local (preempt w s i) := by
  rw [Preemption.preempt]
  split
  · split
    · exact h.congr rfl rfl rfl
    · exact h
  · exact h

theorem Local.takeThread (h : Local s) (hs : takeThread w s i pick = some t) : Local t := by
  rw [Preemption.takeThread] at hs
  split at hs
  · cases hs
    exact h.congr rfl rfl rfl
  · obtain ⟨_, he⟩ := ite_none_right_eq_some.mp hs
    cases he
    exact h.congr rfl rfl rfl

theorem Local.reschedule (h : Local s) (hs : reschedule w s c c pick = some t) : Local t := by
  rw [Preemption.reschedule, if_neg fun hn ↦ hn rfl] at hs
  obtain ⟨u, ht, rfl⟩ := map_eq_some_iff.mp hs
  have hre : Local (s.record c c) := by
    refine ⟨h.registered, fun r hr ↦ ?_, h.running⟩
    rcases mem_cons.mp hr with rfl | hr
    · rfl
    · exact h.executed r hr
  exact (hre.preempt.takeThread ht).setupPreemption

theorem Local.fire (h : Local s) (hs : fire w s c d pick = some t) : Local t := by
  obtain ⟨⟨hd, -, -⟩, hs⟩ := ite_none_right_eq_some.mp hs
  have hp : Local (s.setHeap c ((s.heap c).erase d)) := by
    refine ⟨fun k e he ↦ ?_, h.executed, h.running⟩
    rcases eq_or_ne k c with rfl | hne
    · simp only [State.setHeap, update_self] at he
      exact h.registered k e (mem_of_mem_erase he)
    · simp only [State.setHeap, update_of_ne hne] at he
      exact h.registered k e he
  dsimp only at hs
  split at hs
  · cases hs
    exact hp
  · rw [h.registered c d hd] at hs
    exact hp.reschedule hs

theorem Local.step (h : Local s) (ho : OwnInstance w s op) (hs : step w s op = some t) :
  Local t := by
  obtain ⟨_, hs⟩ := ite_none_left_eq_some.mp hs
  cases op with
  | schedule c i thread =>
    cases (ho : i = c)
    exact h.schedule hs
  | aggregateSchedule c thread =>
    obtain ⟨i, hi, hs⟩ := bind_eq_some_iff.mp hs
    cases hi.symm.trans ho
    exact h.schedule hs
  | deschedule c pick =>
    obtain ⟨u, _, hs⟩ := bind_eq_some_iff.mp hs
    have hl : Local ((s.stamp u).setCurrent c none) := h.congr rfl rfl rfl
    exact hl.reschedule hs
  | trigger c =>
    obtain ⟨_, he⟩ := ite_none_right_eq_some.mp hs
    cases he
    exact Local.setupPreemption (h.congr rfl rfl rfl)
  | fire c d pick => exact h.fire hs
  | tick n =>
    cases hs
    exact h.congr rfl rfl rfl

theorem local_of_ownInstance (w : World) (s : State)
    (h : Reachable (Preemption.step w) (OwnInstance w) w.initial s) : Local s := by
  refine Reachable.invariant h ⟨?_, ?_, rfl⟩ fun _ _ _ hl ho hs ↦ hl.step ho hs
  · intro c d hd
    cases hd
  · intro r hr
    cases hr

def pair : World := ⟨id, [0, 1]⟩

theorem local_after_fire : ∃ s, Reachable (step pair) (OwnInstance pair) pair.initial s ∧
  s.rescheduled = [(0, 0)] ∧ s.current 0 = some 10 ∧ Local s := by
  have hru : (exec (step pair) pair.initial [.schedule 0 0 10, .tick timeSlice,
    .fire 0 ⟨0, 0, timeSlice⟩ 10]).any (fun s ↦ decide (s.rescheduled = [(0, 0)]) &&
        decide (s.current 0 = some 10)) = true := by
    decide
  obtain ⟨s, he, hs⟩ := (any_eq_true _ _).mp hru
  rw [Bool.and_eq_true, decide_eq_true_eq, decide_eq_true_eq] at hs
  have hr : Reachable (step pair) (OwnInstance pair) pair.initial s :=
    Reachable.of_exec (by simp [OwnInstance]) he
  exact ⟨s, hr, hs.1, hs.2, local_of_ownInstance pair s hr⟩

theorem not_local : (∃ s, Reachable (step pair) Unrestricted pair.initial s ∧
      ⟨1, 1, timeSlice⟩ ∈ s.heap 0 ∧ ¬ Local s) ∧
    ∃ s, Reachable (step pair) Unrestricted pair.initial s ∧ (0, 1) ∈ s.rescheduled ∧
      s.panicked = true ∧ ¬ Local s := by
  have hre : (exec (step pair) pair.initial [.aggregateSchedule 0 10,
    .aggregateSchedule 0 11]).any (fun s ↦ decide (⟨1, 1, timeSlice⟩ ∈ s.heap 0)) = true := by
    decide
  have he : (exec (step pair) pair.initial [.aggregateSchedule 0 10,
    .aggregateSchedule 0 11, .tick timeSlice, .fire 0 ⟨0, 0, timeSlice⟩ 10,
    .fire 0 ⟨1, 1, timeSlice⟩ 11]).any (fun s ↦ decide ((0, 1) ∈ s.rescheduled) &&
    s.panicked) = true := by
    decide
  constructor
  · obtain ⟨s, hr, hs⟩ := Reachable.of_any hre
    have hm := of_decide_eq_true hs
    refine ⟨s, hr, hm, fun h ↦ ?_⟩
    cases h.registered 0 _ hm
  · obtain ⟨s, hr, hs⟩ := Reachable.of_any he
    rw [Bool.and_eq_true, decide_eq_true_eq] at hs
    refine ⟨s, hr, hs.1, hs.2, fun h ↦ ?_⟩
    cases h.executed _ hs.1

end ReaverOS.Kernel.Preemption
