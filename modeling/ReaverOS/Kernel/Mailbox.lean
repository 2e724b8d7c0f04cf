import Mathlib.Data.List.Nodup
import Mathlib.Data.Nat.Basic
import Mathlib.Logic.Function.Basic
import ReaverOS.Foundation.Runs

namespace ReaverOS.Kernel.Mailbox

open Function

section

open Option

section

inductive Thread
  | idle (core : ℕ)
  | user (id : ℕ)
  deriving DecidableEq

inductive Result
  | ok
  | notReady
  | invalidToken
  | wrongHandleType
  | notAllowed
  | invalidPointers
  deriving DecidableEq

inductive Message
  | handle (id : ℕ)
  | user (payload : ℕ)
  deriving DecidableEq

inductive Outcome
  | blocked
  | returned (result : Result) (message : Option Message)
  deriving DecidableEq

inductive Phase
  | fresh (poll : Bool)
  | resumed
  deriving DecidableEq

inductive Pc
  | user
  /-- In the read handler, with the lock of the mailbox. -/
  | reading (phase : Phase)
  /-- The thread has been descheduled and is not among the waiting threads yet. -/
  | parking (phase : Phase) (thread : Thread)
  /-- The lock has been given up; for a fresh read, `set_continuation` is still to come. -/
  | parked (phase : Phase) (thread : Thread)
  /-- `save_to` is still to come. -/
  | suspending (thread : Thread)
  /-- Another thread is current now, and its context is to be loaded. -/
  | switching
  | loaded
  /-- In the write handler, with the lock of the mailbox. -/
  | writing
  /-- The message has been queued. -/
  | waking
  | unlocking
  deriving DecidableEq

structure State where
  pc : ℕ → Pc := fun _ ↦ .user
  current : ℕ → Thread := .idle
  ready : ℕ → List Thread := fun _ ↦ []
  lock : Option ℕ := none
  messageQueue : List Message := []
  waitingThreads : List Thread := []
  continuation : Thread → Bool := fun _ ↦ false
  continuationLock : Thread → Option ℕ := fun _ ↦ none
  outcome : Thread → Option Outcome := fun _ ↦ none
  created : ℕ := 0

inductive Op
  | spawn (dest : ℕ)
  | refuse (core : ℕ) (result : Result)
  | read (core : ℕ) (poll : Bool)
  | receive (core : ℕ)
  | park (core : ℕ) (next : Thread)
  | enqueue (core : ℕ)
  | setContinuation (core : ℕ)
  | dropContinuation (core : ℕ)
  | save (core : ℕ)
  | load (core : ℕ)
  | invoke (core : ℕ) (validPointers : Bool)
  | write (core : ℕ)
  | reject (core : ℕ)
  | push (core : ℕ) (message : Message)
  | wake (core dest : ℕ)
  | unlock (core : ℕ)
  | preempt (core : ℕ) (next : Thread)
  deriving DecidableEq

namespace State

variable (s : State)

def goto (core : ℕ) (pc : Pc) : State := { s with pc := update s.pc core pc }

def acquire (core : ℕ) (pc : Pc) : Option State :=
  if s.lock = none then some { s.goto core pc with lock := some core } else none

def release (core : ℕ) (pc : Pc) : State := { s.goto core pc with lock := none }

def setOutcome (thread : Thread) (outcome : Outcome) : State :=
  { s with outcome := update s.outcome thread (some outcome) }

def clearContinuation (thread : Thread) : State :=
  { s with
    continuation := update s.continuation thread false
    continuationLock := update s.continuationLock thread none }

def pick (core : ℕ) (next : Thread) : Option State :=
  if next ∈ s.ready core ∨ s.ready core = [] ∧ next = .idle core then
    some { s with
      current := update s.current core next
      ready := update s.ready core ((s.ready core).erase next) }
  else none

def schedule (dest : ℕ) (thread : Thread) : Option State :=
  if s.current dest = thread then none
  else some { s with ready := update s.ready dest (thread :: s.ready dest) }

def returnFrom (core : ℕ) (phase : Phase) (outcome : Outcome) : State :=
  let s := (s.release core .user).setOutcome (s.current core) outcome
  match phase with
  | .fresh _ => s
  | .resumed => s.clearContinuation (s.current core)

/-- The read handler where it has the lock. With no message, it polls, or is parked by `park`. -/
def receive (core : ℕ) : Option State :=
  match s.pc core with
  | .reading phase =>
    match s.messageQueue, phase with
    | message :: rest, _ =>
      some ({ s with messageQueue := rest }.returnFrom core phase (.returned .ok (some message)))
    | [], .fresh true => some (s.returnFrom core phase (.returned .notReady none))
    | [], _ => none
  | _ => none

def park (core : ℕ) (next : Thread) : Option State :=
  match s.pc core with
  | .reading phase =>
    if s.messageQueue = [] ∧ phase ≠ .fresh true then
      ((s.setOutcome (s.current core) .blocked).goto core (.parking phase (s.current core))).pick
        core next
    else none
  | _ => none

def enqueue (core : ℕ) : Option State :=
  match s.pc core with
  | .parking phase thread =>
    some { s.release core (.parked phase thread) with
      waitingThreads := s.waitingThreads ++ [thread] }
  | _ => none

def setContinuation (core : ℕ) : Option State :=
  match s.pc core with
  | .parked (.fresh _) thread =>
    if s.continuationLock thread = none ∧ s.continuation thread = false then
      some { s.goto core (.suspending thread) with
        continuation := update s.continuation thread true }
    else none
  | _ => none

def dropContinuation (core : ℕ) : Option State :=
  match s.pc core with
  | .parked .resumed thread => some ((s.goto core .switching).clearContinuation thread)
  | _ => none

def invoke (core : ℕ) (validPointers : Bool) : Option State :=
  let thread := s.current core
  if s.pc core = .loaded ∧ s.continuationLock thread = none then
    if s.continuation thread then
      if validPointers then
        { s with continuationLock := update s.continuationLock thread (some core) }.acquire core
          (.reading .resumed)
      else some (((s.goto core .user).setOutcome thread
        (.returned .invalidPointers none)).clearContinuation thread)
    else some (s.goto core .user)
  else none

def wake (core dest : ℕ) : Option State :=
  if s.pc core = .waking then
    match s.waitingThreads with
    | [] => some (s.goto core .unlocking)
    | thread :: rest =>
      { s.goto core .unlocking with waitingThreads := rest }.schedule dest thread
  else none

def preempt (core : ℕ) (next : Thread) : Option State :=
  if s.pc core = .user then
    let thread := s.current core
    let s :=
      if thread = .idle core then s
      else { s with ready := update s.ready core (thread :: s.ready core) }
    if next = thread then s.pick core next
    else (s.goto core (.suspending thread)).pick core next
  else none

def Calls (core : ℕ) : Prop := s.pc core = .user ∧ s.current core ≠ .idle core

instance (core : ℕ) : Decidable (s.Calls core) := inferInstanceAs (Decidable (_ ∧ _))

end State

def step (s : State) : Op → Option State
  | .spawn dest => { s with created := s.created + 1 }.schedule dest (.user s.created)
  | .refuse core result =>
    if s.Calls core ∧ result ≠ .ok then
      some (s.setOutcome (s.current core) (.returned result none))
    else none
  | .read core poll => if s.Calls core then s.acquire core (.reading (.fresh poll)) else none
  | .receive core => s.receive core
  | .park core next => s.park core next
  | .enqueue core => s.enqueue core
  | .setContinuation core => s.setContinuation core
  | .dropContinuation core => s.dropContinuation core
  | .save core =>
    match s.pc core with
    | .suspending _ => some (s.goto core .switching)
    | _ => none
  | .load core => if s.pc core = .switching then some (s.goto core .loaded) else none
  | .invoke core validPointers => s.invoke core validPointers
  | .write core => if s.Calls core then s.acquire core .writing else none
  | .reject core => if s.pc core = .writing then some (s.release core .user) else none
  | .push core message =>
    if s.pc core = .writing then
      some { s.goto core .waking with messageQueue := s.messageQueue ++ [message] }
    else none
  | .wake core dest => s.wake core dest
  | .unlock core => if s.pc core = .unlocking then some (s.release core .user) else none
  | .preempt core next => s.preempt core next

end

variable {s s' : State} {core dest : ℕ} {t next : Thread}

theorem acquire_eq_some {pc : Pc} (h : s.acquire core pc = some s') :
  s.lock = none ∧ s' = { s.goto core pc with lock := some core } := by
  rw [State.acquire] at h
  split at h
  next hl => exact ⟨hl, (some.inj h).symm⟩
  next => cases h

theorem pick_eq_some (h : s.pick core next = some s') :
  (next ∈ s.ready core ∨ s.ready core = [] ∧ next = .idle core) ∧ s' = { s with
      current := update s.current core next
      ready := update s.ready core ((s.ready core).erase next) } := by
  rw [State.pick] at h
  split at h
  next hn => exact ⟨hn, (some.inj h).symm⟩
  next => cases h

theorem schedule_eq_some (h : s.schedule dest t = some s') :
  s.current dest ≠ t ∧ s' = { s with ready := update s.ready dest (t :: s.ready dest) } := by
  rw [State.schedule] at h
  split at h
  next => cases h
  next hne => exact ⟨hne, (some.inj h).symm⟩

theorem receive_eq_some (h : s.receive core = some s') :
  ∃ p r m xs, s.pc core = .reading p ∧ (r = .ok ↔ m.isSome) ∧
  s' = { s with messageQueue := xs }.returnFrom core p (.returned r m) := by
  rw [State.receive] at h
  split at h
  next hpc =>
    split at h
    next xs hqueue => exact ⟨_, _, _, xs, hpc, by simp, (some.inj h).symm⟩
    next => exact ⟨_, _, _, s.messageQueue, hpc, by simp, (some.inj h).symm⟩
    next => cases h
  next => cases h

theorem park_eq_some (h : s.park core next = some s') :
  ∃ p, s.pc core = .reading p ∧ s.messageQueue = [] ∧
  ((s.setOutcome (s.current core) .blocked).goto core (.parking p (s.current core))).pick
  core next = some s' := by
  rw [State.park] at h
  split at h
  next p hpc =>
    split at h
    next hg => exact ⟨p, hpc, hg.1, h⟩
    next => cases h
  next => cases h

theorem enqueue_eq_some (h : s.enqueue core = some s') : ∃ p t, s.pc core = .parking p t ∧
  s' = { s.release core (.parked p t) with
  waitingThreads := s.waitingThreads ++ [t] } := by
  rw [State.enqueue] at h
  split at h
  next p t hpc => exact ⟨p, t, hpc, (some.inj h).symm⟩
  next => cases h

theorem setContinuation_eq_some (h : s.setContinuation core = some s') :
  ∃ p t, s.pc core = .parked (.fresh p) t ∧ s' = { s.goto core (.suspending t) with
  continuation := update s.continuation t true } := by
  rw [State.setContinuation] at h
  split at h
  next p t hpc =>
    split at h
    next => exact ⟨p, t, hpc, (some.inj h).symm⟩
    next => cases h
  next => cases h

theorem dropContinuation_eq_some (h : s.dropContinuation core = some s') :
  ∃ t, s.pc core = .parked .resumed t ∧ s' = (s.goto core .switching).clearContinuation t := by
  rw [State.dropContinuation] at h
  split at h
  next t hpc => exact ⟨t, hpc, (some.inj h).symm⟩
  next => cases h

theorem save_eq_some (h : step s (.save core) = some s') :
  ∃ t, s.pc core = .suspending t ∧ s' = s.goto core .switching := by
  rw [step] at h
  split at h
  next t hpc => exact ⟨t, hpc, (some.inj h).symm⟩
  next => cases h

theorem invoke_eq_some {v : Bool} (h : s.invoke core v = some s') : s.pc core = .loaded ∧
    (s.continuation (s.current core) = false ∧ s' = s.goto core .user ∨
    s.continuation (s.current core) = true ∧ v = false ∧
      s' = ((s.goto core .user).setOutcome (s.current core)
        (.returned .invalidPointers none)).clearContinuation (s.current core) ∨
    s.continuation (s.current core) = true ∧ v = true ∧ s.lock = none ∧
      s' = { s.goto core (.reading .resumed) with
        lock := some core
        continuationLock := update s.continuationLock (s.current core) (some core) }) := by
  rw [State.invoke] at h
  split at h
  next hg =>
    refine ⟨hg.1, ?_⟩
    split at h
    next hc =>
      split at h
      next hv =>
        obtain ⟨hl, rfl⟩ := acquire_eq_some h
        exact .inr (.inr ⟨hc, hv, hl, rfl⟩)
      next hv =>
        exact .inr (.inl ⟨hc, by simpa using hv, (some.inj h).symm⟩)
    next hc =>
      exact .inl ⟨by simpa using hc, (some.inj h).symm⟩
  next => cases h

theorem wake_eq_some (h : s.wake core dest = some s') :
  s.pc core = .waking ∧ (s.waitingThreads = [] ∧ s' = s.goto core .unlocking ∨
  ∃ t xs, s.waitingThreads = t :: xs ∧
  { s.goto core .unlocking with waitingThreads := xs }.schedule dest t = some s') := by
  rw [State.wake] at h
  split at h
  next hpc =>
    refine ⟨hpc, ?_⟩
    split at h
    next hn => exact .inl ⟨hn, (some.inj h).symm⟩
    next t xs hc => exact .inr ⟨t, xs, hc, h⟩
  next => cases h

def State.yield (s : State) (core : ℕ) : State :=
  if s.current core = .idle core then s
  else { s with ready := update s.ready core (s.current core :: s.ready core) }

theorem State.yield_eq (s : State) (c : ℕ) : ∃ ready, s.yield c = { s with ready := ready } := by
  rw [State.yield]
  split
  · exact ⟨_, rfl⟩
  · exact ⟨_, rfl⟩

theorem preempt_eq_some (h : s.preempt core next = some s') :
  s.pc core = .user ∧ (next = s.current core ∧ (s.yield core).pick core next = some s' ∨
  next ≠ s.current core ∧
  ((s.yield core).goto core (.suspending (s.current core))).pick core next = some s') := by
  rw [State.preempt] at h
  dsimp only at h
  split at h
  next hpc =>
    refine ⟨hpc, ?_⟩
    split at h
    next heq => exact .inl ⟨heq, h⟩
    next hne => exact .inr ⟨hne, h⟩
  next => cases h

end

open List

section

inductive Place
  | running (core : ℕ)
  | ready (core : ℕ)
  | waiting
  | parking (core : ℕ)
  deriving DecidableEq

def Pc.parks : Pc → Option Thread
  | .parking _ thread => some thread
  | _ => none

def Pc.saving : Pc → Option Thread
  | .parking (.fresh _) thread => some thread
  | .parked (.fresh _) thread => some thread
  | .suspending thread => some thread
  | _ => none

def State.At (s : State) (thread : Thread) : Place → Prop
  | .running core => s.current core = thread
  | .ready core => thread ∈ s.ready core
  | .waiting => thread ∈ s.waitingThreads
  | .parking core => (s.pc core).parks = some thread

/-- Every thread is in the one place that `loc` gives, if in any; what runs on a `hidden` core is
left out. -/
structure Located (s : State) (hidden : Option ℕ) (loc : Thread → Option Place) : Prop where
  at_iff : ∀ t p, s.At t p ∧ (∀ core, hidden = some core → p ≠ .running core) ↔ loc t = some p
  ready_nodup : ∀ core, (s.ready core).Nodup
  waiting_nodup : s.waitingThreads.Nodup
  idle : ∀ core p, loc (.idle core) = some p → p = .running core
  fresh : ∀ id, s.created ≤ id → loc (.user id) = none

variable {s s' : State} {hidden : Option ℕ} {loc : Thread → Option Place} {core dest : ℕ}
  {t next : Thread}

theorem Located.congr (h : Located s hidden loc) (hc : s'.current = s.current)
  (hr : s'.ready = s.ready) (hw : s'.waitingThreads = s.waitingThreads)
  (hcr : s'.created = s.created) (hp : ∀ core, (s'.pc core).parks = (s.pc core).parks) :
  Located s' hidden loc := by
  refine ⟨fun t p ↦ ?_, hr ▸ h.ready_nodup, hw ▸ h.waiting_nodup, h.idle, hcr ▸ h.fresh⟩
  rw [← h.at_iff]
  cases p <;> simp only [State.At, hc, hr, hw, hp]

theorem Located.enter {p : Place} (h : Located s hidden loc) (hl : loc t = none)
  (ha : ∀ t' p', s'.At t' p' ↔ s.At t' p' ∨ t' = t ∧ p' = p)
  (hp : ∀ core, hidden = some core → p ≠ .running core) (hr : ∀ core, (s'.ready core).Nodup)
  (hw : s'.waitingThreads.Nodup) (hi : ∀ core, t = .idle core → p = .running core)
  (hf : ∀ id, s'.created ≤ id → s.created ≤ id ∧ t ≠ .user id) :
  Located s' hidden (update loc t (some p)) := by
  refine ⟨fun t' p' ↦ ?_, hr, hw, fun core p' hp' ↦ ?_, fun id hd ↦ ?_⟩
  · rw [ha]
    rcases eq_or_ne t' t with rfl | ht
    · have hn := h.at_iff t' p'
      rw [hl] at hn
      rw [update_self]
      constructor
      · rintro ⟨ho | ⟨-, rfl⟩, hh⟩
        · cases hn.mp ⟨ho, hh⟩
        · rfl
      · intro he
        cases he
        exact ⟨.inr ⟨rfl, rfl⟩, hp⟩
    · rw [update_of_ne ht, ← h.at_iff]
      simp [ht]
  · rcases eq_or_ne (.idle core) t with rfl | ht
    · rw [update_self] at hp'
      cases hp'
      exact hi core rfl
    · rw [update_of_ne ht] at hp'
      exact h.idle core p' hp'
  · obtain ⟨hd, hne⟩ := hf id hd
    rw [update_of_ne hne.symm]
    exact h.fresh id hd

theorem Located.leave {p : Place} (h : Located s hidden loc) (hl : loc t = some p)
  (ha : ∀ t' p', s'.At t' p' ↔ s.At t' p' ∧ ¬ (t' = t ∧ p' = p))
  (hr : ∀ core, (s'.ready core).Nodup) (hw : s'.waitingThreads.Nodup)
  (hc : s'.created = s.created) : Located s' hidden (update loc t none) := by
  refine ⟨fun t' p' ↦ ?_, hr, hw, fun core p' hp' ↦ ?_, fun id hi ↦ ?_⟩
  · rw [ha]
    rcases eq_or_ne t' t with rfl | ht
    · rw [update_self]
      refine ⟨fun ⟨⟨ho, hne⟩, hh⟩ ↦ ?_, fun he ↦ by cases he⟩
      have he := (h.at_iff t' p').mp ⟨ho, hh⟩
      exact absurd ⟨rfl, Option.some.inj (he.symm.trans hl)⟩ hne
    · rw [update_of_ne ht, ← h.at_iff]
      simp [ht]
  · rcases eq_or_ne (.idle core) t with rfl | ht
    · rw [update_self] at hp'
      cases hp'
    · rw [update_of_ne ht] at hp'
      exact h.idle core p' hp'
  · rcases eq_or_ne (.user id) t with rfl | ht
    · exact update_self ..
    · rw [update_of_ne ht]
      exact h.fresh id (hc ▸ hi)

theorem Located.at (h : Located s none loc) {p : Place} (hp : s.At t p) : loc t = some p :=
  (h.at_iff t p).mp ⟨hp, fun _ h ↦ by cases h⟩

theorem Located.current_ne (h : Located s none loc) {core' : ℕ} (hn : core' ≠ core) :
  s.current core' ≠ s.current core := by
  intro he
  have hr : loc (s.current core) = some (.running core') := h.at he
  have hr' : loc (s.current core) = some (.running core) := h.at rfl
  cases hr.symm.trans hr'
  exact hn rfl

theorem Located.hide (h : Located s none loc) (c : ℕ) :
  Located s (some c) (update loc (s.current c) none) := by
  have hr : loc (s.current c) = some (.running c) := h.at rfl
  refine ⟨fun t p ↦ ?_, h.ready_nodup, h.waiting_nodup, fun c' p hp ↦ ?_, fun id hi ↦ ?_⟩
  · rcases eq_or_ne t (s.current c) with rfl | ht
    · rw [update_self]
      refine ⟨fun ⟨ha, hh⟩ ↦ ?_, fun he ↦ by cases he⟩
      exact absurd (Option.some.inj ((h.at ha).symm.trans hr)) (hh c rfl)
    · rw [update_of_ne ht, ← h.at_iff]
      refine and_congr_right fun ha ↦ ⟨fun _ _ h ↦ (by cases h), fun _ c' he hp ↦ ?_⟩
      cases he
      subst hp
      exact ht ha.symm
  · rcases eq_or_ne (.idle c') (s.current c) with he | hne
    · rw [he, update_self] at hp
      cases hp
    · rw [update_of_ne hne] at hp
      exact h.idle c' p hp
  · rcases eq_or_ne (.user id) (s.current c) with he | hne
    · rw [he]
      exact update_self ..
    · rw [update_of_ne hne]
      exact h.fresh id hi

theorem Located.run (h : Located s (some core) loc) (hl : loc next = none)
  (hi : ∀ core', next = .idle core' → core' = core) (hf : ∀ id, s.created ≤ id → next ≠ .user id) :
  Located { s with current := update s.current core next } none
  (update loc next (some (.running core))) := by
  refine ⟨fun t p ↦ ?_, h.ready_nodup, h.waiting_nodup, fun core' p hp ↦ ?_, fun id hd ↦ ?_⟩
  · have hv : s.At t p ∧ p ≠ .running core ↔ loc t = some p := (and_congr_right fun _ ↦
      ⟨fun hp _ he ↦ Option.some.inj he ▸ hp, fun hp ↦ hp core rfl⟩).trans (h.at_iff t p)
    simp only [reduceCtorEq, false_imp_iff, implies_true, and_true]
    rcases eq_or_ne p (.running core) with rfl | hp
    · simp only [State.At, update_self]
      rcases eq_or_ne t next with rfl | ht
      · simp only [update_self]
      · simp only [update_of_ne ht, ← hv, ht.symm, ne_eq, not_true, and_false]
    · have hat : State.At { s with current := update s.current core next } t p ↔ s.At t p := by
        cases p with
        | running core' =>
          have hne : core' ≠ core := fun he ↦ hp (congrArg _ he)
          simp only [State.At, update_of_ne hne]
        | _ => rfl
      rw [hat, ← and_iff_left (a := s.At t p) hp, hv]
      rcases eq_or_ne t next with rfl | ht
      · rw [hl, update_self]
        simp [hp.symm]
      · rw [update_of_ne ht]
  · rcases eq_or_ne (.idle core') next with rfl | hne
    · rw [update_self] at hp
      cases hp
      rw [hi core' rfl]
    · rw [update_of_ne hne] at hp
      exact h.idle core' p hp
  · rw [update_of_ne (hf id hd).symm]
    exact h.fresh id hd

theorem Located.enter_ready (h : Located s hidden loc) (hl : loc t = none)
  (hi : ∀ core, t ≠ .idle core) (hf : ∀ id, s.created ≤ id → t ≠ .user id) (d : ℕ) :
  Located { s with ready := update s.ready d (t :: s.ready d) } hidden
  (update loc t (some (.ready d))) := by
  have ho (core : ℕ) : t ∉ s.ready core := fun hm ↦ by
    have hat := (h.at_iff t (.ready core)).mp ⟨hm, fun _ _ h ↦ by cases h⟩
    cases hl.symm.trans hat
  refine h.enter hl (fun t' p' ↦ ?_) (fun _ _ h ↦ by cases h) (fun core ↦ ?_) h.waiting_nodup
    (fun core he ↦ absurd he (hi core)) fun id hd ↦ ⟨hd, hf id hd⟩
  · cases p' with
    | ready core =>
      simp only [State.At, Place.ready.injEq]
      rcases eq_or_ne core d with rfl | hne
      · rw [update_self, mem_cons, or_comm]
        simp
      · rw [update_of_ne hne]
        simp [hne]
    | _ => simp [State.At]
  · rcases eq_or_ne core d with rfl | hne
    · simp only [update_self]
      exact nodup_cons.mpr ⟨ho core, h.ready_nodup core⟩
    · simp only [update_of_ne hne]
      exact h.ready_nodup core

theorem Located.leave_ready (h : Located s hidden loc) (hm : t ∈ s.ready core) :
  Located { s with ready := update s.ready core ((s.ready core).erase t) } hidden
  (update loc t none) := by
  have hl := (h.at_iff t (.ready core)).mp ⟨hm, fun _ _ h ↦ by cases h⟩
  refine h.leave hl (fun t' p' ↦ ?_) (fun core' ↦ ?_) h.waiting_nodup rfl
  · cases p' with
    | ready core' =>
      simp only [State.At, Place.ready.injEq]
      rcases eq_or_ne core' core with rfl | hne
      · rw [update_self, (h.ready_nodup core').mem_erase_iff]
        tauto
      · rw [update_of_ne hne]
        simp [hne]
    | _ => simp [State.At]
  · rcases eq_or_ne core' core with rfl | hne
    · simp only [update_self]
      exact (h.ready_nodup core').erase t
    · simp only [update_of_ne hne]
      exact h.ready_nodup core'

theorem Located.enter_waiting (h : Located s hidden loc) (hl : loc t = none)
  (hi : ∀ core, t ≠ .idle core) (hf : ∀ id, s.created ≤ id → t ≠ .user id) :
  Located { s with waitingThreads := s.waitingThreads ++ [t] } hidden
  (update loc t (some .waiting)) := by
  have ho : t ∉ s.waitingThreads := fun hm ↦ by
    have hat := (h.at_iff t .waiting).mp ⟨hm, fun _ _ h ↦ by cases h⟩
    cases hl.symm.trans hat
  refine h.enter hl (fun t' p' ↦ ?_) (fun _ _ h ↦ by cases h) h.ready_nodup ?_
    (fun core he ↦ absurd he (hi core)) fun id hd ↦ ⟨hd, hf id hd⟩
  · cases p' <;> simp [State.At]
  · exact concat_eq_append ▸ h.waiting_nodup.concat ho

theorem Located.leave_waiting {xs : List Thread} (h : Located s hidden loc)
  (hw : s.waitingThreads = t :: xs) :
  Located { s with waitingThreads := xs } hidden (update loc t none) := by
  have hn := h.waiting_nodup
  rw [hw, nodup_cons] at hn
  have hm : t ∈ s.waitingThreads := by
    rw [hw]
    exact mem_cons_self
  have hl := (h.at_iff t .waiting).mp ⟨hm, fun _ _ h ↦ by cases h⟩
  refine h.leave hl (fun t' p' ↦ ?_) h.ready_nodup hn.2 rfl
  cases p' with
  | waiting =>
    simp only [State.At, hw, mem_cons, and_true]
    rcases eq_or_ne t' t with rfl | ht
    · simp [hn.1]
    · simp [ht]
  | _ => simp [State.At]

theorem Located.enter_parking (h : Located s hidden loc) (pc : Pc) (hl : loc t = none)
  (hi : ∀ core, t ≠ .idle core) (hf : ∀ id, s.created ≤ id → t ≠ .user id)
  (ho : (s.pc core).parks = none) (hp : pc.parks = some t) :
  Located (s.goto core pc) hidden (update loc t (some (.parking core))) := by
  refine h.enter hl (fun t' p' ↦ ?_) (fun _ _ h ↦ by cases h) h.ready_nodup h.waiting_nodup
    (fun core he ↦ absurd he (hi core)) fun id hd ↦ ⟨hd, hf id hd⟩
  cases p' with
  | parking core' =>
    simp only [State.At, State.goto, Place.parking.injEq]
    rcases eq_or_ne core' core with rfl | hne
    · simp [ho, hp, eq_comm]
    · simp [hne]
  | _ => simp [State.At, State.goto]

theorem Located.leave_parking (h : Located s hidden loc) (pc : Pc)
  (ho : (s.pc core).parks = some t) (hp : pc.parks = none) :
  Located (s.goto core pc) hidden (update loc t none) := by
  have hl := (h.at_iff t (.parking core)).mp ⟨ho, fun _ _ h ↦ by cases h⟩
  refine h.leave hl (fun t' p' ↦ ?_) h.ready_nodup h.waiting_nodup rfl
  cases p' with
  | parking core' =>
    simp only [State.At, State.goto, Place.parking.injEq]
    rcases eq_or_ne core' core with rfl | hne
    · simp [ho, hp, eq_comm]
    · simp [hne]
  | _ => simp [State.At, State.goto]

theorem Located.pick (h : Located s (some core) loc) (hpi : s.pick core next = some s') :
  Located s' none (update (update loc next none) next (some (.running core))) := by
  obtain ⟨hn, rfl⟩ := pick_eq_some hpi
  rcases hn with hm | ⟨hni, rfl⟩
  · have hl := (h.at_iff next (.ready core)).mp ⟨hm, fun _ _ h ↦ by cases h⟩
    refine (h.leave_ready hm).run (update_self ..) (fun core' he ↦ ?_) fun id hd he ↦ ?_
    · subst he
      cases h.idle core' _ hl
    · subst he
      cases (h.fresh id hd).symm.trans hl
  · have hr : update s.ready core ((s.ready core).erase (.idle core)) = s.ready := by
      rw [hni, List.erase_nil, ← hni, update_eq_self]
    have hl : loc (.idle core) = none := by
      by_contra hs
      obtain ⟨p, hp⟩ := Option.ne_none_iff_exists'.mp hs
      exact ((h.at_iff _ p).mpr hp).2 core rfl (h.idle core p hp)
    have hi : update loc (.idle core) none = loc := update_eq_self_iff.mpr hl.symm
    rw [hr, hi]
    refine h.run hl (fun core' he ↦ ?_) fun id _ he ↦ by cases he
    cases he
    rfl

end

open Option

section

def OutOfReach (loc : Thread → Option Place) (core : ℕ) (t : Thread) : Prop :=
  t = .idle core ∨ loc t = some .waiting ∨ loc t = some (.ready core) ∨ loc t = some (.parking core)

structure Users (s : State) : Prop where
  reading : ∀ core phase, s.pc core = .reading phase → ∀ c, s.current core ≠ .idle c
  parked : ∀ core phase t, s.pc core = .parked phase t → ∀ c, t ≠ .idle c
  continuation : ∀ c, s.continuation (.idle c) = false

structure Inv (s : State) (loc : Thread → Option Place) : Prop where
  located : Located s none loc
  saving : ∀ core t, (s.pc core).saving = some t → OutOfReach loc core t
  users : Users s

variable {s s' s'' : State} {loc loc' : Thread → Option Place} {core dest : ℕ} {t next : Thread}

theorem Users.advance (h : Users s) (pc : Pc) (hpc : s'.pc = update s.pc core pc)
  (hcu : ∀ c ≠ core, s'.current c = s.current c)
  (hr : ∀ p, pc = .reading p → ∀ c, s'.current core ≠ .idle c)
  (hp : ∀ p t, pc = .parked p t → ∀ c, t ≠ .idle c)
  (hco : ∀ c, s'.continuation (.idle c) = s.continuation (.idle c) ∨
  s'.continuation (.idle c) = false) : Users s' := by
  refine ⟨fun core' p hc ↦ ?_, fun core' p t hc ↦ ?_, fun c ↦ ?_⟩
  · rw [hpc] at hc
    rcases eq_or_ne core' core with rfl | hne
    · rw [update_self] at hc
      exact hr p hc
    · rw [update_of_ne hne] at hc
      rw [hcu core' hne]
      exact h.reading core' p hc
  · rw [hpc] at hc
    rcases eq_or_ne core' core with rfl | hne
    · rw [update_self] at hc
      exact hp p t hc
    · rw [update_of_ne hne] at hc
      exact h.parked core' p t hc
  · rcases hco c with heq | heq
    · rw [heq]
      exact h.continuation c
    · exact heq

theorem Inv.advance (h : Inv s loc) (pc : Pc) (hpc : s'.pc = update s.pc core pc)
  (hcu : s'.current = s.current) (hr : s'.ready = s.ready)
  (hw : s'.waitingThreads = s.waitingThreads) (hcr : s'.created = s.created)
  (hp : pc.parks = (s.pc core).parks)
  (hs : pc.saving = none ∨ pc.saving = (s.pc core).saving) (hu : Users s') :
  Inv s' loc := by
  refine ⟨h.located.congr hcu hr hw hcr fun core' ↦ ?_, fun core' t hc ↦ ?_, hu⟩
  · rw [hpc]
    rcases eq_or_ne core' core with rfl | hne
    · rw [update_self, hp]
    · rw [update_of_ne hne]
  · rw [hpc] at hc
    rcases eq_or_ne core' core with rfl | hne
    · rw [update_self] at hc
      rcases hs with hn | heq
      · cases hn.symm.trans hc
      · exact h.saving core' t (heq ▸ hc)
    · rw [update_of_ne hne] at hc
      exact h.saving core' t hc

theorem Inv.not_idle {p : Place} (h : Inv s loc) (hl : loc t = some p) (hp : ∀ c, p ≠ .running c)
  (c : ℕ) : t ≠ .idle c := by
  rintro rfl
  exact hp c (h.located.idle c p hl)

theorem Inv.not_fresh {p : Place} (h : Inv s loc) (hl : loc t = some p) (id : ℕ)
  (hi : s.created ≤ id) : t ≠ .user id := by
  rintro rfl
  cases hl.symm.trans (h.located.fresh id hi)

def Pc.plain : Pc → Bool
  | .user | .switching | .loaded | .writing | .waking | .unlocking => true
  | _ => false

theorem Inv.plain (h : Inv s loc) (pc : Pc) (hp : pc.plain) (ho : (s.pc core).parks = none)
  (hpc : s'.pc = update s.pc core pc) (hcu : s'.current = s.current)
  (hr : s'.ready = s.ready) (hw : s'.waitingThreads = s.waitingThreads)
  (hcr : s'.created = s.created) (hc : ∀ c, s'.continuation (.idle c) = s.continuation (.idle c) ∨
  s'.continuation (.idle c) = false) : Inv s' loc := by
  refine h.advance pc hpc hcu hr hw hcr ?_ (.inl ?_)
    (h.users.advance pc hpc (fun c _ ↦ congrFun hcu c) ?_ ?_ hc)
  · rw [ho]
    cases pc <;> first | rfl | cases hp
  · cases pc <;> first | rfl | cases hp
  · rintro phase rfl
    cases hp
  · rintro phase t rfl
    cases hp

theorem clearContinuation_idle (s : State) (t : Thread) (c : ℕ) :
  (s.clearContinuation t).continuation (.idle c) = s.continuation (.idle c) ∨
  (s.clearContinuation t).continuation (.idle c) = false := by
  rcases eq_or_ne (.idle c) t with rfl | hne
  · exact .inr (update_self ..)
  · exact .inl (update_of_ne hne ..)

theorem Inv.receive (h : Inv s loc) (hs : s.receive core = some s') : Inv s' loc := by
  obtain ⟨p, r, m, xs, hp, -, rfl⟩ := receive_eq_some hs
  have ho : (s.pc core).parks = none := by rw [hp]; rfl
  cases p with
  | fresh po => exact h.plain .user rfl ho rfl rfl rfl rfl rfl fun _ ↦ .inl rfl
  | resumed => exact h.plain .user rfl ho rfl rfl rfl rfl rfl (clearContinuation_idle _ _)

theorem Inv.read {p : Bool} (h : Inv s loc) (hc : s.Calls core)
  (hs : s.acquire core (.reading (.fresh p)) = some s') : Inv s' loc := by
  obtain ⟨-, rfl⟩ := acquire_eq_some hs
  have hi (c : ℕ) : s.current core ≠ .idle c := by
    intro he
    have hr : loc (.idle c) = some (.running core) := h.located.at he
    cases h.located.idle c _ hr
    exact hc.2 he
  refine h.advance (.reading (.fresh p)) rfl rfl rfl rfl rfl (by rw [hc.1]; rfl)
    (.inl rfl) (h.users.advance (.reading (.fresh p)) rfl (fun _ _ ↦ rfl)
    (fun _ _ ↦ hi) (fun _ _ hp ↦ ?_) fun _ ↦ .inl rfl)
  cases hp

theorem Inv.setContinuation (h : Inv s loc) (hs : s.setContinuation core = some s') :
  Inv s' loc := by
  obtain ⟨p, t, hp, rfl⟩ := setContinuation_eq_some hs
  have hi := h.users.parked core _ t hp
  refine h.advance (.suspending t) rfl rfl rfl rfl rfl (by rw [hp]; rfl)
    (.inr (by rw [hp]; rfl)) (h.users.advance (.suspending t) rfl (fun _ _ ↦ rfl)
    (fun _ hp ↦ ?_) (fun _ _ hp ↦ ?_) fun c ↦ .inl (update_of_ne (hi c).symm ..))
  all_goals cases hp

theorem Inv.invoke {v : Bool} (h : Inv s loc) (hs : s.invoke core v = some s') :
  Inv s' loc := by
  obtain ⟨hp, hca⟩ := invoke_eq_some hs
  have ho : (s.pc core).parks = none := by rw [hp]; rfl
  rcases hca with ⟨-, rfl⟩ | ⟨-, -, rfl⟩ | ⟨hc, -, -, rfl⟩
  · exact h.plain .user rfl ho rfl rfl rfl rfl rfl fun _ ↦ .inl rfl
  · exact h.plain .user rfl ho rfl rfl rfl rfl rfl (clearContinuation_idle _ _)
  · have hi (c : ℕ) : s.current core ≠ .idle c := by
      intro he
      rw [he, h.users.continuation c] at hc
      cases hc
    refine h.advance (.reading .resumed) rfl rfl rfl rfl rfl (by rw [hp]; rfl) (.inl rfl)
      (h.users.advance (.reading .resumed) rfl (fun _ _ ↦ rfl) (fun _ _ ↦ hi)
      (fun _ _ hp ↦ ?_) fun _ ↦ .inl rfl)
    cases hp

theorem Inv.spawn (h : Inv s loc) (hs : step s (.spawn dest) = some s') : ∃ loc', Inv s' loc' := by
  obtain ⟨-, rfl⟩ := schedule_eq_some hs
  have hlo := h.located.fresh s.created le_rfl
  have hl : Located { s with created := s.created + 1 } none loc :=
    ⟨h.located.at_iff, h.located.ready_nodup, h.located.waiting_nodup, h.located.idle,
      fun id hi ↦ h.located.fresh id (Nat.le_of_succ_le hi)⟩
  have hf (id : ℕ) (hi : s.created + 1 ≤ id) : Thread.user s.created ≠ .user id := by
    simp only [ne_eq, Thread.user.injEq]
    omega
  refine ⟨_, hl.enter_ready hlo (by simp) hf dest, fun core t hc ↦ ?_,
    h.users.reading, h.users.parked, h.users.continuation⟩
  have ho := h.saving core t hc
  rw [OutOfReach]
  rcases eq_or_ne t (.user s.created) with rfl | hne
  · simp [OutOfReach, hlo] at ho
  · rwa [update_of_ne hne]

theorem Inv.away (h : Inv s loc) {core' : ℕ} (hn : core' ≠ core)
  (hs : (s.pc core').saving = some t) : t ≠ s.current core ∧ t ∉ s.ready core ∧ t ≠ .idle core := by
  have ho := h.saving core' t hs
  refine ⟨?_, fun hm ↦ ?_, ?_⟩
  · rintro rfl
    have hr : loc (s.current core) = some (.running core) := h.located.at rfl
    rcases ho with hi | hl | hl | hl
    · rw [hi] at hr
      cases h.located.idle core' _ hr
      exact hn rfl
    all_goals cases hr.symm.trans hl
  · have hre : loc t = some (.ready core) := h.located.at hm
    rcases ho with rfl | hl | hl | hl
    · cases h.located.idle core' _ hre
    · cases hre.symm.trans hl
    · cases hre.symm.trans hl
      exact hn rfl
    · cases hre.symm.trans hl
  · rintro rfl
    rcases ho with hi | hl | hl | hl
    · cases hi
      exact hn rfl
    all_goals cases h.located.idle core _ hl

theorem Inv.enqueue (h : Inv s loc) (hst : s.enqueue core = some s') : ∃ loc', Inv s' loc' := by
  obtain ⟨p, t, hpc, rfl⟩ := enqueue_eq_some hst
  have hp : (s.pc core).parks = some t := by rw [hpc]; rfl
  have hl : loc t = some (.parking core) := h.located.at hp
  have hi := h.not_idle hl fun _ ↦ Place.noConfusion
  have hm := (h.located.leave_parking (.parked p t) hp rfl).enter_waiting
    (update_self ..) hi (h.not_fresh hl)
  refine ⟨_, hm.congr rfl rfl rfl rfl fun _ ↦ rfl, fun core' t' hs ↦ ?_,
    h.users.advance (.parked p t) rfl (fun _ _ ↦ rfl) (fun _ hpc ↦ ?_) (fun _ _ hpc ↦ ?_)
    fun _ ↦ .inl rfl⟩
  · rcases eq_or_ne t' t with rfl | hne
    · exact .inr (.inl (update_self ..))
    · rw [OutOfReach, update_of_ne hne, update_of_ne hne]
      refine h.saving core' t' ?_
      rcases eq_or_ne core' core with rfl | hc
      · simp only [State.release, State.goto, update_self] at hs
        rw [hpc]
        cases p <;> exact hs
      · simpa only [State.release, State.goto, update_of_ne hc] using hs
  · cases hpc
  · cases hpc
    exact hi

theorem Inv.switch (h : Inv s loc) (pc : Pc) (hp : s'.pick core next = some s'')
  (hl : Located s' (some core) loc') (hpc : s'.pc = update s.pc core pc)
  (hre : ∀ t ∈ s'.ready core, t ∈ s.ready core ∨ t = s.current core)
  (hcu : s'.current = s.current) (hcn : s'.continuation = s.continuation)
  (h' : ∀ t ≠ s.current core, loc' t = loc t)
  (hs : ∀ t, pc.saving = some t → t ≠ next ∧ OutOfReach loc' core t)
  (hr : ∀ p, pc ≠ .reading p) (hpa : ∀ p t, pc ≠ .parked p t) : ∃ loc'', Inv s'' loc'' := by
  have hm := hl.pick hp
  obtain ⟨hn, rfl⟩ := pick_eq_some hp
  refine ⟨_, hm, fun core' t hco ↦ ?_, h.users.advance pc hpc (fun c hc ↦ ?_)
    (fun p he ↦ absurd he (hr p)) (fun p t he ↦ absurd he (hpa p t)) fun c ↦ .inl ?_⟩
  · have hk (hne : t ≠ next) (hou : OutOfReach loc' core' t) :
      OutOfReach (update (update loc' next none) next (some (.running core))) core' t := by
      rwa [OutOfReach, update_of_ne hne, update_of_ne hne]
    simp only [hpc] at hco
    rcases eq_or_ne core' core with rfl | hne
    · rw [update_self] at hco
      obtain ⟨htn, hou⟩ := hs t hco
      exact hk htn hou
    · rw [update_of_ne hne] at hco
      obtain ⟨ht, htr, hti⟩ := h.away hne hco
      refine hk ?_ ?_
      · rintro rfl
        rcases hn with hme | ⟨-, hi⟩
        · rcases hre t hme with ho | ho
          · exact htr ho
          · exact ht ho
        · exact hti hi
      · rw [OutOfReach, h' t ht]
        exact h.saving core' t hco
  · simp only [update_of_ne hc, hcu]
  · simp only [hcn]

theorem Inv.park (h : Inv s loc) (hs : s.park core next = some s') : ∃ loc', Inv s' loc' := by
  obtain ⟨ph, hpc, -, hpi⟩ := park_eq_some hs
  have hr : loc (s.current core) = some (.running core) := h.located.at rfl
  have hp := (h.located.hide core).enter_parking (.parking ph (s.current core))
    (update_self ..) (h.users.reading core ph hpc) (h.not_fresh hr) (by rw [hpc]; rfl) rfl
  refine h.switch (.parking ph (s.current core)) hpi
    (hp.congr rfl rfl rfl rfl fun _ ↦ rfl) rfl (fun t ht ↦ .inl ht) rfl rfl
    (fun t ht ↦ ?_) (fun t ht ↦ ?_) (fun _ ↦ Pc.noConfusion) fun _ _ ↦ Pc.noConfusion
  · rw [update_of_ne ht, update_of_ne ht]
  · have hth : t = s.current core := by
      cases ph with
      | fresh po => exact (some.inj ht).symm
      | resumed => cases ht
    subst hth
    refine ⟨?_, .inr (.inr (.inr (update_self ..)))⟩
    rintro rfl
    rcases (pick_eq_some hpi).1 with hm | ⟨-, hi⟩
    · cases hr.symm.trans (h.located.at (p := .ready core) hm)
    · exact h.users.reading core ph hpc core hi

theorem Inv.preempt (h : Inv s loc) (hs : s.preempt core next = some s') : ∃ loc', Inv s' loc' := by
  obtain ⟨hpc, hc⟩ := preempt_eq_some hs
  have hr : loc (s.current core) = some (.running core) := h.located.at rfl
  have hi {c : ℕ} (he : s.current core = .idle c) : c = core := by
    rw [he] at hr
    cases h.located.idle c _ hr
    rfl
  obtain ⟨loc', hy, hl', ho⟩ : ∃ loc', Located (s.yield core) (some core) loc' ∧
    (∀ t ≠ s.current core, loc' t = loc t) ∧ OutOfReach loc' core (s.current core) := by
    rw [State.yield]
    split
    next he =>
      exact ⟨_, h.located.hide core, fun t ht ↦ update_of_ne ht .., .inl he⟩
    next hne =>
      refine ⟨_, (h.located.hide core).enter_ready (update_self ..) (fun c he ↦ ?_)
        (h.not_fresh hr) core, fun t ht ↦ ?_, .inr (.inr (.inl (update_self ..)))⟩
      · exact hne (hi he ▸ he)
      · rw [update_of_ne ht, update_of_ne ht]
  have hre (t : Thread) (ht : t ∈ (s.yield core).ready core) :
    t ∈ s.ready core ∨ t = s.current core := by
    rw [State.yield] at ht
    split at ht
    next => exact .inl ht
    next =>
      simp only [update_self, mem_cons] at ht
      exact ht.symm
  obtain ⟨r, hyi⟩ := s.yield_eq core
  rw [hyi] at hy hre hc
  rcases hc with ⟨rfl, hp⟩ | ⟨hne, hp⟩
  · refine h.switch .user hp hy ?_ hre rfl rfl hl' (fun t ht ↦ ?_)
      (fun _ ↦ Pc.noConfusion) fun _ _ ↦ Pc.noConfusion
    · rw [← hpc, update_eq_self]
    · cases ht
  · refine h.switch (.suspending (s.current core)) hp
      (hy.congr rfl rfl rfl rfl fun core' ↦ ?_) rfl hre rfl rfl hl'
      (fun t ht ↦ ?_) (fun _ ↦ Pc.noConfusion) fun _ _ ↦ Pc.noConfusion
    · simp only [State.goto]
      rcases eq_or_ne core' core with rfl | hco
      · rw [update_self, hpc]
        rfl
      · rw [update_of_ne hco]
    · cases ht
      exact ⟨hne.symm, ho⟩

end

open Foundation.Runs

variable {s s' : State} {loc : Thread → Option Place} {core dest : ℕ}

def Settled (s : State) : Op → Prop
  | .wake _ dest => ∀ t rest, s.waitingThreads = t :: rest →
      ∀ core, (s.pc core).saving = some t → core = dest
  | _ => True

theorem Inv.wake (h : Inv s loc) (hse : Settled s (.wake core dest))
  (hst : s.wake core dest = some s') : ∃ loc', Inv s' loc' := by
  obtain ⟨hp, ⟨-, rfl⟩ | ⟨t, xs, hw, hsc⟩⟩ := wake_eq_some hst
  · exact ⟨loc, h.plain .unlocking rfl (by rw [hp]; rfl) rfl rfl rfl rfl rfl fun _ ↦ .inl rfl⟩
  · obtain ⟨-, rfl⟩ := schedule_eq_some hsc
    have hg : Inv (s.goto core .unlocking) loc :=
      h.plain .unlocking rfl (by rw [hp]; rfl) rfl rfl rfl rfl rfl fun _ ↦ .inl rfl
    have hl : loc t = some .waiting :=
      h.located.at (p := .waiting) (by rw [State.At, hw]; exact mem_cons_self)
    have hm := (hg.located.leave_waiting hw).enter_ready (update_self ..)
      (h.not_idle hl fun _ ↦ Place.noConfusion) (h.not_fresh hl) dest
    refine ⟨_, hm, fun core' t' hs ↦ ?_, hg.users.reading, hg.users.parked, hg.users.continuation⟩
    rcases eq_or_ne t' t with rfl | hne
    · have ho : (s.pc core').saving = some t' := by
        rcases eq_or_ne core' core with rfl | hc
        · simp only [State.goto, update_self] at hs
          cases hs
        · simpa only [State.goto, update_of_ne hc] using hs
      rw [hse t' xs hw core' ho]
      exact .inr (.inr (.inl (update_self ..)))
    · rw [OutOfReach, update_of_ne hne, update_of_ne hne]
      exact hg.saving core' t' hs

theorem Inv.refuse (h : Inv s loc) (t : Thread) (o : Outcome) : Inv (s.setOutcome t o) loc :=
  ⟨h.located.congr rfl rfl rfl rfl fun _ ↦ rfl, h.saving, h.users.reading, h.users.parked,
    h.users.continuation⟩

theorem Inv.step {op : Op} (h : Inv s loc) (hse : Settled s op)
  (hs : Mailbox.step s op = some s') : ∃ loc', Inv s' loc' := by
  cases op with
  | spawn dest => exact h.spawn hs
  | refuse core r =>
    obtain ⟨-, ⟨⟩⟩ := ite_none_right_eq_some.mp hs
    exact ⟨loc, h.refuse _ _⟩
  | read core p =>
    obtain ⟨hc, hr⟩ := ite_none_right_eq_some.mp hs
    exact ⟨loc, h.read hc hr⟩
  | receive core => exact ⟨loc, h.receive hs⟩
  | park core next => exact h.park hs
  | enqueue core => exact h.enqueue hs
  | setContinuation core => exact ⟨loc, h.setContinuation hs⟩
  | dropContinuation core =>
    obtain ⟨t, hp, rfl⟩ := dropContinuation_eq_some hs
    exact ⟨loc, h.plain .switching rfl (by rw [hp]; rfl) rfl rfl rfl rfl rfl
      (clearContinuation_idle _ _)⟩
  | save core =>
    obtain ⟨t, hp, rfl⟩ := save_eq_some hs
    exact ⟨loc, h.plain .switching rfl (by rw [hp]; rfl) rfl rfl rfl rfl rfl fun _ ↦ .inl rfl⟩
  | load core =>
    obtain ⟨hp, ⟨⟩⟩ := ite_none_right_eq_some.mp hs
    exact ⟨loc, h.plain .loaded rfl (by rw [hp]; rfl) rfl rfl rfl rfl rfl fun _ ↦ .inl rfl⟩
  | invoke core v => exact ⟨loc, h.invoke hs⟩
  | write core =>
    obtain ⟨hc, hw⟩ := ite_none_right_eq_some.mp hs
    obtain ⟨-, rfl⟩ := acquire_eq_some hw
    exact ⟨loc, h.plain .writing rfl (by rw [hc.1]; rfl) rfl rfl rfl rfl rfl fun _ ↦ .inl rfl⟩
  | reject core =>
    obtain ⟨hp, ⟨⟩⟩ := ite_none_right_eq_some.mp hs
    exact ⟨loc, h.plain .user rfl (by rw [hp]; rfl) rfl rfl rfl rfl rfl fun _ ↦ .inl rfl⟩
  | push core m =>
    obtain ⟨hp, ⟨⟩⟩ := ite_none_right_eq_some.mp hs
    exact ⟨loc, h.plain .waking rfl (by rw [hp]; rfl) rfl rfl rfl rfl rfl fun _ ↦ .inl rfl⟩
  | wake core dest => exact h.wake hse hs
  | unlock core =>
    obtain ⟨hp, ⟨⟩⟩ := ite_none_right_eq_some.mp hs
    exact ⟨loc, h.plain .user rfl (by rw [hp]; rfl) rfl rfl rfl rfl rfl fun _ ↦ .inl rfl⟩
  | preempt core next => exact h.preempt hs

theorem inv_initial : Inv {} fun | .idle core => some (.running core) | .user _ => none := by
  refine ⟨⟨fun t p ↦ ?_, fun _ ↦ nodup_nil, nodup_nil, ?_, fun _ _ ↦ rfl⟩, ?_, ?_, ?_, ?_⟩
  · cases t <;> cases p <;> simp [State.At, Pc.parks, eq_comm]
  · intro core p hp
    exact (some.inj hp).symm
  · intro core t hs
    cases hs
  · intro core ph h
    cases h
  · intro core ph t h
    cases h
  · intro core
    rfl

def Resumable (s : State) : Prop :=
  ∀ core, s.pc core = .loaded → ∀ core', (s.pc core').saving ≠ some (s.current core)

theorem Inv.resumable (h : Inv s loc) : Resumable s := by
  intro core hp core' hs
  rcases eq_or_ne core' core with rfl | hne
  · rw [hp] at hs
    cases hs
  · exact (h.away hne hs).1 rfl

theorem resumable_of_settled (s : State) (h : Reachable step Settled {} s) : Resumable s := by
  obtain ⟨loc, hi⟩ := h.invariant (I := fun s ↦ ∃ loc, Inv s loc) ⟨_, inv_initial⟩
    fun _ _ _ ⟨_, hi⟩ hs hst ↦ hi.step hs hst
  exact hi.resumable

def resume (core : ℕ) (t : Thread) : List Op :=
  [.preempt core t, .save core, .load core, .invoke core false]

def block (core : ℕ) (next : Thread) : List Op :=
  [.read core false, .park core next, .enqueue core, .setContinuation core, .save core, .load core,
    .invoke core false]

def awaited : List Op :=
  .spawn 0 :: .spawn 0 :: resume 0 (.user 0) ++ block 0 (.user 1) ++ [.write 0, .push 0 (.user 0)]

theorem saved_awaited (c : ℕ) : (exec step {} awaited).any fun s ↦ (s.pc c).saving = none := by
  cases c with
  | zero => decide
  | succ c => rfl

theorem settled_awaited (d : ℕ) (h : exec step {} awaited = some s) : Settled s (.wake 0 d) := by
  intro t xs _ core hsa
  have hs := saved_awaited core
  rw [h, any_some, decide_eq_true_eq, hsa] at hs
  cases hs

def woken : List Op := awaited ++ .wake 0 1 :: [.unlock 0, .preempt 1 (.user 0), .save 1, .load 1]

theorem resumable_woken :
  ∃ s, exec step {} woken = some s ∧ s.pc 1 = .loaded ∧ s.current 1 = .user 0 ∧ Resumable s := by
  have hr : (exec step {} woken).any (fun s ↦ s.pc 1 = .loaded ∧ s.current 1 = .user 0) := by
    decide
  obtain ⟨s, hs, hl⟩ := (any_eq_true _ _).mp hr
  obtain ⟨h, hc⟩ := of_decide_eq_true hl
  refine ⟨s, hs, h, hc, resumable_of_settled s (Reachable.of_exec_split ?_
    (fun s ↦ settled_awaited 1) ?_ hs)⟩
  · simp [awaited, resume, block, Settled]
  · simp [Settled]

def wokenEarly : List Op :=
  List.flatten [.spawn 0 :: resume 0 (.user 0), .spawn 1 :: resume 1 (.user 1),
    [.read 0 false, .park 0 (.idle 0), .enqueue 0],
    [.write 1, .push 1 (.user 0), .wake 1 1, .unlock 1, .read 1 false, .receive 1],
    [.read 1 false, .park 1 (.user 0), .enqueue 1, .setContinuation 1, .save 1, .load 1]]

theorem not_resumable : ¬ ∀ s, Reachable step Unrestricted {} s → Resumable s := by
  intro h
  have hr : (exec step {} wokenEarly).any
    (fun s ↦ s.pc 1 = .loaded ∧ (s.pc 0).saving = some (s.current 1)) := by
    decide
  obtain ⟨s, hs, hh⟩ := Reachable.of_any hr
  obtain ⟨hl, hsa⟩ := of_decide_eq_true hh
  exact h s hs 1 hl 0 hsa

end ReaverOS.Kernel.Mailbox
