import Mathlib.Data.Nat.Notation
import ReaverOS.Foundation.Placement
import ReaverOS.Foundation.Runs

namespace ReaverOS.Kernel.Capabilities

section Model

open Function Foundation

abbrev Handle := ℕ
abbrev Token := ℕ
abbrev ProcessId := ℕ
abbrev MailboxId := ℕ
abbrev ThreadId := ℕ

inductive Message
  | handle (h : Handle)
  | user (data : ℕ)
  deriving DecidableEq

inductive Result
  | ok | invalidToken | notAllowed | invalidArguments | notReady
  deriving DecidableEq

inductive Pc
  | idle
  /-- `rose_mailbox_write` has the lock of the mailbox. -/
  | writing (mb : MailboxId) (token : Token)
  /-- It has found the handle, with the transfer permission. -/
  | transferring (mb : MailboxId) (token : Token) (h : Handle)
  /-- It has unregistered the token. -/
  | pushing (mb : MailboxId) (h : Handle)
  /-- `rose_process_start` for `target`. -/
  | starting (target : ProcessId) (token : Token)
  | claiming (target : ProcessId) (token : Token) (h : Handle)
  /-- `_started` is set. -/
  | bootstrapping (target : ProcessId) (token : Token) (h : Handle)
  | handing (target : ProcessId) (h : Handle)
  /-- `rose_mailbox_read` has popped a handle. -/
  | receiving (mb : MailboxId) (h : Handle)
  deriving DecidableEq

def Pc.hand : Pc → Option Handle
  | .pushing _ h | .handing _ h | .receiving _ h => some h
  | _ => none

def Pc.lookedUp : Pc → Option (Token × Handle)
  | .transferring _ token h | .claiming _ token h | .bootstrapping _ token h => some (token, h)
  | _ => none

structure World where
  container : ThreadId → ProcessId
  transfer : Handle → Bool

structure State where
  handles : ProcessId → Token → Option Handle := fun _ _ ↦ none
  messageQueue : MailboxId → List Message := fun _ ↦ []
  lock : MailboxId → Option ThreadId := fun _ ↦ none
  started : ProcessId → Bool := fun _ ↦ false
  pc : ThreadId → Pc := fun _ ↦ .idle
  result : ThreadId → Option Result := fun _ ↦ none
  /-- The call that a thread is in, or made last, has changed a table or a queue. -/
  changed : ThreadId → Bool := fun _ ↦ false
  /-- The handles there have been, and those given up through their tokens. -/
  created : Handle → Bool := fun _ ↦ false
  released : Handle → Bool := fun _ ↦ false

namespace State

def setHandle (s : State) (p : ProcessId) (token : Token) (h : Option Handle) : State :=
  { s with handles := update s.handles p (update (s.handles p) token h) }

def setQueue (s : State) (mb : MailboxId) (messages : List Message) : State :=
  { s with messageQueue := update s.messageQueue mb messages }

def setPc (s : State) (th : ThreadId) (pc : Pc) : State := { s with pc := update s.pc th pc }

def setLock (s : State) (mb : MailboxId) (owner : Option ThreadId) : State :=
  { s with lock := update s.lock mb owner }

def enter (s : State) (th : ThreadId) : State :=
  { s with changed := update s.changed th false, result := update s.result th none }

def markChanged (s : State) (th : ThreadId) : State :=
  { s with changed := update s.changed th true }

def finish (s : State) (th : ThreadId) (r : Result) : State :=
  { s with pc := update s.pc th .idle, result := update s.result th (some r) }

def addCreated (s : State) (h : Handle) : State := { s with created := update s.created h true }

def addReleased (s : State) (h : Handle) : State := { s with released := update s.released h true }

def setStarted (s : State) (p : ProcessId) : State := { s with started := update s.started p true }

def registerForToken (s : State) (p : ProcessId) (h : Handle) (token : Token) : Option State :=
  if s.handles p token = none then some (s.setHandle p token (some h)) else none

def unregisterToken (s : State) (p : ProcessId) (token : Token) : Option State :=
  if s.handles p token = none then none else some (s.setHandle p token none)

def getHandle (s : State) (p : ProcessId) (token : Token) : Option Handle := s.handles p token

end State

inductive Op
  /-- A handler that makes an object calls `create_handle` and `register_for_token`. -/
  | create (th : ThreadId) (h : Handle) (token : Token)
  /-- `mailbox::send`. -/
  | send (mb : MailboxId) (h : Handle)
  | write (th : ThreadId) (mb : MailboxId) (token : Token)
  | writeUser (th : ThreadId) (mb : MailboxId) (data : ℕ)
  | start (th : ThreadId) (target : ProcessId) (token : Token)
  | lookUp (th : ThreadId)
  | claim (th : ThreadId)
  | unregister (th : ThreadId)
  | store (th : ThreadId) (token : Token)
  | read (th : ThreadId) (mb : MailboxId) (poll : Bool)
  | release (th : ThreadId) (token : Token)

def Op.thread : Op → Option ThreadId
  | .send _ _ => none
  | .create th _ _ | .write th _ _ | .writeUser th _ _ | .start th _ _ | .lookUp th | .claim th
  | .unregister th | .store th _ | .read th _ _ | .release th _ => some th

variable (w : World)

def lookUp (s : State) (th : ThreadId) (token : Token) (next : Handle → Pc)
  (unlock : State → State) : State :=
  match s.getHandle (w.container th) token with
  | none => unlock (s.finish th .invalidToken)
  | some h => if w.transfer h then s.setPc th (next h) else unlock (s.finish th .notAllowed)

def step (s : State) : Op → Option State
  | .create th h token =>
    if s.pc th = .idle ∧ s.created h = false then do
      let s ← s.registerForToken (w.container th) h token
      some (((s.addCreated h).markChanged th).finish th .ok)
    else none
  | .send mb h =>
    if s.lock mb = none ∧ s.created h = false then
      some ((s.addCreated h).setQueue mb (s.messageQueue mb ++ [.handle h]))
    else none
  | .write th mb token =>
    if s.pc th = .idle ∧ s.lock mb = none then
      some (((s.enter th).setLock mb (some th)).setPc th (.writing mb token))
    else none
  | .writeUser th mb data =>
    if s.pc th = .idle ∧ s.lock mb = none then
      some (((s.setQueue mb (s.messageQueue mb ++ [.user data])).markChanged th).finish th .ok)
    else none
  | .start th target token =>
    if s.pc th = .idle then some ((s.enter th).setPc th (.starting target token)) else none
  | .lookUp th =>
    match s.pc th with
    | .writing mb token =>
      some (lookUp w s th token (.transferring mb token) fun s ↦ s.setLock mb none)
    | .starting target token => some (lookUp w s th token (.claiming target token) id)
    | _ => none
  | .claim th =>
    match s.pc th with
    | .claiming target token h =>
      if s.started target then some (s.finish th .invalidArguments)
      else some ((s.setStarted target).setPc th (.bootstrapping target token h))
    | _ => none
  | .unregister th =>
    match s.pc th with
    | .transferring mb token h => do
      let s ← s.unregisterToken (w.container th) token
      some ((s.markChanged th).setPc th (.pushing mb h))
    | .bootstrapping target token h => do
      let s ← s.unregisterToken (w.container th) token
      some ((s.markChanged th).setPc th (.handing target h))
    | _ => none
  | .store th token =>
    match s.pc th with
    | .pushing mb h =>
      some (((s.setQueue mb (s.messageQueue mb ++ [.handle h])).setLock mb none).finish th .ok)
    | .handing target h => do
      let s ← s.registerForToken target h token
      some (s.finish th .ok)
    | .receiving mb h => do
      let s ← s.registerForToken (w.container th) h token
      some ((s.setLock mb none).finish th .ok)
    | _ => none
  | .read th mb poll =>
    if s.pc th = .idle ∧ s.lock mb = none then
      match s.messageQueue mb with
      | [] => some (if poll then (s.enter th).finish th .notReady else s.enter th)
      | .user _ :: messages => some (((s.setQueue mb messages).markChanged th).finish th .ok)
      | .handle h :: messages =>
        some (((((s.enter th).setQueue mb messages).markChanged th).setLock mb (some th)).setPc th
          (.receiving mb h))
    else none
  | .release th token =>
    if s.pc th = .idle then
      if token = 0 then some ((s.enter th).finish th .ok)
      else
        match s.getHandle (w.container th) token with
        | none => none
        | some h =>
          some ((((s.addReleased h).setHandle (w.container th) token none).markChanged th).finish th
            .ok)
    else none

inductive Step (s : State) : Op → State → Prop
  | create {th h token} : s.pc th = .idle → s.created h = false →
      s.handles (w.container th) token = none →
      Step s (.create th h token)
        ((((s.setHandle (w.container th) token (some h)).addCreated h).markChanged th).finish th
          .ok)
  | send {mb h} : s.created h = false →
      Step s (.send mb h) ((s.addCreated h).setQueue mb (s.messageQueue mb ++ [.handle h]))
  | write {th mb token} : s.pc th = .idle →
      Step s (.write th mb token)
        (((s.enter th).setLock mb (some th)).setPc th (.writing mb token))
  | writeUser {th mb data} : s.pc th = .idle →
      Step s (.writeUser th mb data)
        (((s.setQueue mb (s.messageQueue mb ++ [.user data])).markChanged th).finish th .ok)
  | start {th target token} : s.pc th = .idle →
      Step s (.start th target token) ((s.enter th).setPc th (.starting target token))
  | refuseWrite {th mb token r} : s.pc th = .writing mb token →
      Step s (.lookUp th) ((s.finish th r).setLock mb none)
  | refuseStart {th target token r} : s.pc th = .starting target token →
      Step s (.lookUp th) (s.finish th r)
  | permit {th token h next} : s.pc th ≠ .idle → (s.pc th).hand = none → w.transfer h = true →
      next.hand = none → next ≠ .idle → next.lookedUp = some (token, h) →
      Step s (.lookUp th) (s.setPc th next)
  | refuseClaim {th target token h} : s.pc th = .claiming target token h →
      Step s (.claim th) (s.finish th .invalidArguments)
  | claim {th target token h} : s.pc th = .claiming target token h →
      Step s (.claim th) ((s.setStarted target).setPc th (.bootstrapping target token h))
  | unregister {th token h next} : (s.pc th).lookedUp = some (token, h) →
      s.handles (w.container th) token ≠ none → next.hand = some h → next.lookedUp = none →
      Step s (.unregister th)
        (((s.setHandle (w.container th) token none).markChanged th).setPc th next)
  | push {th mb h token} : s.pc th = .pushing mb h →
      Step s (.store th token)
        (((s.setQueue mb (s.messageQueue mb ++ [.handle h])).setLock mb none).finish th .ok)
  | register {th p h token unlock} : (s.pc th).hand = some h → s.handles p token = none →
      unlock = id ∨ (∃ mb, unlock = fun s : State ↦ s.setLock mb none) →
      Step s (.store th token) ((unlock (s.setHandle p token (some h))).finish th .ok)
  | poll {th mb} : s.pc th = .idle →
      Step s (.read th mb true) ((s.enter th).finish th .notReady)
  | block {th mb} : s.pc th = .idle → Step s (.read th mb false) (s.enter th)
  | readUser {th mb poll data messages} : s.pc th = .idle →
      s.messageQueue mb = .user data :: messages →
      Step s (.read th mb poll) (((s.setQueue mb messages).markChanged th).finish th .ok)
  | readHandle {th mb poll h messages} : s.pc th = .idle →
      s.messageQueue mb = .handle h :: messages →
      Step s (.read th mb poll)
        (((((s.enter th).setQueue mb messages).markChanged th).setLock mb (some th)).setPc th
          (.receiving mb h))
  | releaseZero {th} : s.pc th = .idle → Step s (.release th 0) ((s.enter th).finish th .ok)
  | release {th token h} : s.pc th = .idle → s.handles (w.container th) token = some h →
      Step s (.release th token)
        ((((s.addReleased h).setHandle (w.container th) token none).markChanged th).finish th .ok)

variable {w} {s t : State} {op : Op}

theorem State.registerForToken_eq_some {p : ProcessId} {h : Handle} {tk : Token}
  (ho : s.registerForToken p h tk = some t) :
  s.handles p tk = none ∧ t = s.setHandle p tk (some h) := by
  rw [registerForToken] at ho
  split at ho
  next hf => exact ⟨hf, (Option.some.inj ho).symm⟩
  next => cases ho

theorem State.unregisterToken_eq_some {p : ProcessId} {tk : Token}
  (ho : s.unregisterToken p tk = some t) : s.handles p tk ≠ none ∧ t = s.setHandle p tk none := by
  rw [unregisterToken] at ho
  split at ho
  next => cases ho
  next hu => exact ⟨hu, (Option.some.inj ho).symm⟩

theorem Step.of_lookUp {th : ThreadId} (h : step w s (.lookUp th) = some t) :
  Step w s (.lookUp th) t := by
  simp only [step] at h
  split at h
  next mb token hpc =>
    cases h
    rw [lookUp]
    split
    next => exact .refuseWrite hpc
    next hd _ =>
      split
      next hp => exact .permit (by simp [hpc]) (by rw [hpc]; rfl) hp rfl (by simp) rfl
      next => exact .refuseWrite hpc
  next target token hpc =>
    cases h
    rw [lookUp]
    split
    next => exact .refuseStart hpc
    next hd _ =>
      split
      next hp => exact .permit (by simp [hpc]) (by rw [hpc]; rfl) hp rfl (by simp) rfl
      next => exact .refuseStart hpc
  next => cases h

theorem Step.of_unregister {th : ThreadId} (h : step w s (.unregister th) = some t) :
  Step w s (.unregister th) t := by
  have hn {token : Token} {hd : Handle} {next : Pc} (hl : (s.pc th).lookedUp = some (token, hd))
    (hh : next.hand = some hd) (hne : next.lookedUp = none)
    (h : (s.unregisterToken (w.container th) token).bind
    (fun u ↦ some ((u.markChanged th).setPc th next)) = some t) : Step w s (.unregister th) t := by
    obtain ⟨u, hr, h⟩ := Option.bind_eq_some_iff.mp h
    obtain ⟨hu, rfl⟩ := State.unregisterToken_eq_some hr
    cases h
    exact .unregister hl hu hh hne
  simp only [step] at h
  split at h
  next hpc => exact hn (by rw [hpc]; rfl) rfl rfl h
  next hpc => exact hn (by rw [hpc]; rfl) rfl rfl h
  next => cases h

theorem Step.of_store {th : ThreadId} {tk : Token} (h : step w s (.store th tk) = some t) :
  Step w s (.store th tk) t := by
  simp only [step] at h
  split at h
  next mb hd hpc =>
    cases h
    exact .push hpc
  next target hd hpc =>
    obtain ⟨u, hr, h⟩ := Option.bind_eq_some_iff.mp h
    obtain ⟨hf, rfl⟩ := State.registerForToken_eq_some hr
    cases h
    exact .register (by rw [hpc]; rfl) hf (.inl rfl)
  next mb hd hpc =>
    obtain ⟨u, hr, h⟩ := Option.bind_eq_some_iff.mp h
    obtain ⟨hf, rfl⟩ := State.registerForToken_eq_some hr
    cases h
    exact .register (by rw [hpc]; rfl) hf (.inr ⟨mb, rfl⟩)
  next => cases h

theorem Step.of_read {th : ThreadId} {mb : MailboxId} {po : Bool}
  (h : step w s (.read th mb po) = some t) : Step w s (.read th mb po) t := by
  obtain ⟨hp, h⟩ := Option.ite_none_right_eq_some.mp h
  split at h
  next =>
    cases h
    cases po with
    | true => exact .poll hp.1
    | false => exact .block hp.1
  next hq =>
    cases h
    exact .readUser hp.1 hq
  next hq =>
    cases h
    exact .readHandle hp.1 hq

theorem Step.of_release {th : ThreadId} {tk : Token}
  (h : step w s (.release th tk) = some t) : Step w s (.release th tk) t := by
  obtain ⟨hi, h⟩ := Option.ite_none_right_eq_some.mp h
  split at h
  next hzero =>
    cases h
    subst hzero
    exact .releaseZero hi
  next =>
    split at h
    next => cases h
    next hd hu =>
      cases h
      exact .release hi hu

theorem Step.of_step (h : step w s op = some t) : Step w s op t := by
  cases op with
  | create th hd token =>
    obtain ⟨hp, h⟩ := Option.ite_none_right_eq_some.mp h
    obtain ⟨u, hr, h⟩ := Option.bind_eq_some_iff.mp h
    obtain ⟨hf, rfl⟩ := State.registerForToken_eq_some hr
    cases h
    exact .create hp.1 hp.2 hf
  | send mb hd =>
    obtain ⟨hp, h⟩ := Option.ite_none_right_eq_some.mp h
    cases h
    exact .send hp.2
  | write th mb token =>
    obtain ⟨hp, h⟩ := Option.ite_none_right_eq_some.mp h
    cases h
    exact .write hp.1
  | writeUser th mb d =>
    obtain ⟨hp, h⟩ := Option.ite_none_right_eq_some.mp h
    cases h
    exact .writeUser hp.1
  | start th tg token =>
    obtain ⟨hi, h⟩ := Option.ite_none_right_eq_some.mp h
    cases h
    exact .start hi
  | lookUp th => exact .of_lookUp h
  | claim th =>
    simp only [step] at h
    split at h
    next tg token hd hpc =>
      split at h
      next =>
        cases h
        exact .refuseClaim hpc
      next =>
        cases h
        exact .claim hpc
    next => cases h
  | unregister th => exact .of_unregister h
  | store th token => exact .of_store h
  | read th mb po => exact .of_read h
  | release th token => exact .of_release h

end Model

section Ledger

open List Function Foundation

inductive Place
  | table (p : ProcessId) (token : Token)
  | queue (mb : MailboxId)
  | hand (th : ThreadId)

def State.places (s : State) : Placement Place Handle
  | .table p token, h => s.handles p token = some h
  | .queue mb, h => .handle h ∈ s.messageQueue mb
  | .hand th, h => (s.pc th).hand = some h

structure ExactlyOnce (s : State) (h : Handle) : Prop where
  place : ∃! x, s.places x h
  count : ∀ mb, (s.messageQueue mb).count (.handle h) ≤ 1

def Conserved (s : State) : Prop :=
  ∀ h, s.created h = true → s.released h = false → ExactlyOnce s h

def Current (w : World) (s : State) : Op → Prop
  | .unregister th => ∀ token h, (s.pc th).lookedUp = some (token, h) →
      s.handles (w.container th) token = some h
  | _ => True

variable {w : World} {s t : State} {op : Op} {p : ProcessId} {token : Token} {h : Handle}
  {mb : MailboxId} {th : ThreadId}

section Places

variable {x : Place}

theorem places_setHandle_of_ne (v : Option Handle) (hx : x ≠ .table p token) :
  (s.setHandle p token v).places x = s.places x := by
  funext q
  cases x with
  | table p' token' =>
    simp only [State.places, State.setHandle]
    rcases eq_or_ne p' p with rfl | hp
    · have ht : token' ≠ token := fun ht ↦ hx (by rw [ht])
      rw [update_self, update_of_ne ht]
    · rw [update_of_ne hp]
  | queue mb => rfl
  | hand th => rfl

theorem places_setQueue_of_ne (ms : List Message) (hx : x ≠ .queue mb) :
  (s.setQueue mb ms).places x = s.places x := by
  funext q
  cases x with
  | table p token => rfl
  | queue mb' =>
    have hm : mb' ≠ mb := fun hm ↦ hx (by rw [hm])
    simp only [State.places, State.setQueue, update_of_ne hm]
  | hand th => rfl

theorem places_setPc_of_ne (pc : Pc) (hx : x ≠ .hand th) :
  (s.setPc th pc).places x = s.places x := by
  funext q
  cases x with
  | table p token => rfl
  | queue mb => rfl
  | hand th' =>
    have ht : th' ≠ th := fun ht ↦ hx (by rw [ht])
    simp only [State.places, State.setPc, update_of_ne ht]

theorem places_register (hf : s.handles p token = none) :
  (s.setHandle p token (some h)).places = s.places.put (.table p token) h := by
  refine Placement.eq_put (fun x hx ↦ places_setHandle_of_ne _ hx) fun q ↦ ?_
  simp [State.places, State.setHandle, hf, eq_comm]

theorem places_unregister (hu : s.handles p token = some h) :
  (s.setHandle p token none).places = s.places.take (.table p token) h := by
  refine Placement.eq_take (fun x hx ↦ places_setHandle_of_ne _ hx) fun q ↦ ?_
  simp [State.places, State.setHandle, hu, eq_comm]

theorem places_push :
  (s.setQueue mb (s.messageQueue mb ++ [.handle h])).places = s.places.put (.queue mb) h := by
  refine Placement.eq_put (fun x hx ↦ places_setQueue_of_ne _ hx) fun q ↦ ?_
  simp [State.places, State.setQueue]

theorem places_pop {ms : List Message} (hq : s.messageQueue mb = .handle h :: ms)
  (ho : .handle h ∉ ms) : (s.setQueue mb ms).places = s.places.take (.queue mb) h := by
  refine Placement.eq_take (fun x hx ↦ places_setQueue_of_ne _ hx) fun q ↦ ?_
  simp only [State.places, State.setQueue, update_self, hq]
  by_cases hqh : q = h
  · subst hqh
    simp [ho]
  · simp [hqh]

theorem places_grab {pc : Pc} (he : (s.pc th).hand = none) (hf : pc.hand = some h) :
  (s.setPc th pc).places = s.places.put (.hand th) h := by
  refine Placement.eq_put (fun x hx ↦ places_setPc_of_ne _ hx) fun q ↦ ?_
  simp [State.places, State.setPc, he, hf, eq_comm]

theorem places_drop {pc : Pc} (hf : (s.pc th).hand = some h) (he : pc.hand = none) :
  (s.setPc th pc).places = s.places.take (.hand th) h := by
  refine Placement.eq_take (fun x hx ↦ places_setPc_of_ne _ hx) fun q ↦ ?_
  simp [State.places, State.setPc, he, hf, eq_comm]

theorem places_setPc {pc : Pc} (hs : pc.hand = (s.pc th).hand) :
  (s.setPc th pc).places = s.places := by
  funext x q
  by_cases hx : x = .hand th
  · subst hx
    simp only [State.places, State.setPc, update_self, hs]
  · rw [places_setPc_of_ne _ hx]

theorem places_user {ms : List Message}
  (hs : ∀ h, Message.handle h ∈ ms ↔ .handle h ∈ s.messageQueue mb) :
  (s.setQueue mb ms).places = s.places := by
  funext x q
  by_cases hx : x = .queue mb
  · subst hx
    simp only [State.places, State.setQueue, update_self, hs]
  · rw [places_setQueue_of_ne _ hx]

end Places

structure Inv (s : State) (loc : Handle → Option Place) : Prop where
  located : s.places.Located loc
  once : ∀ mb h, (s.messageQueue mb).count (.handle h) ≤ 1
  alive : ∀ h, loc h ≠ none ↔ s.created h = true ∧ s.released h = false
  released : ∀ h, s.released h = true → s.created h = true

variable {loc : Handle → Option Place}

theorem Inv.conserved (hi : Inv s loc) : Conserved s :=
  fun h hc hr ↦ ⟨hi.located.existsUnique ((hi.alive h).mpr ⟨hc, hr⟩), fun mb ↦ hi.once mb h⟩

theorem Inv.quiet (hi : Inv s loc) (hp : t.places = s.places)
  (hq : ∀ mb h, (t.messageQueue mb).count (.handle h) = (s.messageQueue mb).count (.handle h))
  (hc : t.created = s.created) (hr : t.released = s.released) : Inv t loc := by
  refine ⟨?_, fun mb h ↦ ?_, ?_, ?_⟩
  · rw [hp]
    exact hi.located
  · rw [hq]
    exact hi.once mb h
  · rw [hc, hr]
    exact hi.alive
  · rw [hc, hr]
    exact hi.released

theorem Inv.moved {x y : Place} (hi : Inv s loc) (hx : s.places x h)
  (hp : t.places = (s.places.take x h).put y h)
  (ho : ∀ mb h, (t.messageQueue mb).count (.handle h) ≤ 1) (hc : t.created = s.created)
  (hr : t.released = s.released) : Inv t (update loc h (some y)) := by
  refine ⟨?_, ho, fun q ↦ ?_, ?_⟩
  · rw [hp]
    exact hi.located.move hx
  · rw [hc, hr, ← hi.alive q]
    rcases eq_or_ne q h with rfl | hq
    · rw [update_self, (hi.located x q).mp hx]
      simp
    · rw [update_of_ne hq]
  · rw [hc, hr]
    exact hi.released

theorem count_push {ms : List Message} (ho : ∀ h, ms.count (.handle h) ≤ 1)
  (hn : .handle h ∉ ms) (q : Handle) : (ms ++ [Message.handle h]).count (Message.handle q) ≤ 1 := by
  rw [count_append]
  rcases eq_or_ne q h with rfl | hq
  · simp [count_eq_zero.mpr hn]
  · have hz : [Message.handle h].count (.handle q) = 0 := by
      simp [hq.symm]
    rw [hz]
    exact ho q

theorem Inv.once_push (hi : Inv s loc) (hn : .handle h ∉ s.messageQueue mb) (mb' : MailboxId)
  (q : Handle) : ((s.setQueue mb (s.messageQueue mb ++ [.handle h])).messageQueue mb').count
  (.handle q) ≤ 1 := by
  simp only [State.setQueue]
  rcases eq_or_ne mb' mb with rfl | hne
  · rw [update_self]
    exact count_push (hi.once mb') hn q
  · rw [update_of_ne hne]
    exact hi.once mb' q

theorem Inv.made {x : Place} (hi : Inv s loc) (hnw : s.created h = false)
  (hp : t.places = s.places.put x h) (ho : ∀ mb h, (t.messageQueue mb).count (.handle h) ≤ 1)
  (hc : t.created = update s.created h true) (hr : t.released = s.released) :
  Inv t (update loc h (some x)) := by
  have hn : loc h = none := by
    by_contra hne
    rw [((hi.alive h).mp hne).1] at hnw
    cases hnw
  have hk : s.released h = false := by
    by_contra hne
    rw [hi.released h (by simpa using hne)] at hnw
    cases hnw
  refine ⟨?_, ho, fun q ↦ ?_, fun q hq ↦ ?_⟩
  · rw [hp]
    exact hi.located.put hn
  · rw [hc, hr]
    rcases eq_or_ne q h with rfl | hq
    · simp [hk]
    · rw [update_of_ne hq, update_of_ne hq]
      exact hi.alive q
  · rw [hr] at hq
    rw [hc]
    rcases eq_or_ne q h with rfl | hne
    · exact update_self ..
    · rw [update_of_ne hne]
      exact hi.released q hq

theorem Inv.gone {x : Place} (hi : Inv s loc) (hx : s.places x h)
  (hp : t.places = s.places.take x h)
  (ho : ∀ mb h, (t.messageQueue mb).count (.handle h) ≤ 1) (hc : t.created = s.created)
  (hr : t.released = update s.released h true) : Inv t (update loc h none) := by
  have hl := (hi.alive h).mp (by rw [(hi.located x h).mp hx]; simp)
  refine ⟨?_, ho, fun q ↦ ?_, fun q hq ↦ ?_⟩
  · rw [hp]
    exact hi.located.take hx
  · rw [hc, hr]
    rcases eq_or_ne q h with rfl | hq
    · simp
    · rw [update_of_ne hq, update_of_ne hq]
      exact hi.alive q
  · rw [hr] at hq
    rw [hc]
    rcases eq_or_ne q h with rfl | hne
    · exact hl.1
    · rw [update_of_ne hne] at hq
      exact hi.released q hq

theorem Inv.not_mem_queue (hi : Inv s loc) (mb : MailboxId) {x : Place} (hx : loc h = some x)
  (hn : x ≠ .queue mb) : .handle h ∉ s.messageQueue mb := by
  intro hm
  have hq := (hi.located (.queue mb) h).mp hm
  rw [hx, Option.some.injEq] at hq
  exact hn hq

theorem hand_of_idle (h : s.pc th = .idle) : (s.pc th).hand = none := by
  rw [h]
  rfl

theorem hand_of_lookedUp (hl : (s.pc th).lookedUp = some (token, h)) : (s.pc th).hand = none := by
  cases hpc : s.pc th <;> simp_all [Pc.hand, Pc.lookedUp]

theorem Inv.setPc (hi : Inv s loc) {pc : Pc} (hp : t.pc = update s.pc th pc)
  (hn : pc.hand = none) (ho : (s.pc th).hand = none) (hh : t.handles = s.handles)
  (hq : t.messageQueue = s.messageQueue) (hc : t.created = s.created)
  (hr : t.released = s.released) : Inv t loc := by
  have hpl : t.places = (s.setPc th pc).places := by
    funext x q
    cases x <;> simp only [State.places, State.setPc, hh, hq, hp]
  exact hi.quiet (hpl.trans (places_setPc (hn.trans ho.symm))) (fun _ _ ↦ by rw [hq]) hc hr

theorem Inv.userQueue (hi : Inv s loc) {ms : List Message} (hd : (s.pc th).hand = none)
  (hq : t.messageQueue = update s.messageQueue mb ms)
  (hco : ∀ h, ms.count (.handle h) = (s.messageQueue mb).count (.handle h))
  (hp : t.pc = update s.pc th .idle) (hh : t.handles = s.handles) (hc : t.created = s.created)
  (hr : t.released = s.released) : Inv t loc := by
  have hpl : t.places = ((s.setQueue mb ms).setPc th .idle).places := by
    funext x q
    cases x <;> simp only [State.places, State.setPc, State.setQueue, hh, hq, hp]
  refine hi.quiet ?_ (fun mb' h ↦ ?_) hc hr
  · rw [hpl, places_setPc (by exact hd.symm)]
    refine places_user fun h ↦ ?_
    rw [← count_pos_iff, hco, count_pos_iff]
  · rw [hq]
    rcases eq_or_ne mb' mb with rfl | hne
    · rw [update_self, hco]
    · rw [update_of_ne hne]

theorem Inv.step (hi : Inv s loc) (hcu : Current w s op) (hs : Step w s op t) :
  ∃ loc', Inv t loc' := by
  cases hs with
  | @create th h token hid hnw hf =>
    refine ⟨_, hi.made (x := .table (w.container th) token) hnw ?_ hi.once rfl rfl⟩
    calc _ = ((s.setHandle (w.container th) token (some h)).setPc th .idle).places := rfl
      _ = (s.setHandle (w.container th) token (some h)).places :=
        places_setPc (hand_of_idle hid).symm
      _ = _ := places_register hf
  | @send mb h hnw =>
    refine ⟨_, hi.made (x := .queue mb) hnw places_push (hi.once_push ?_) rfl rfl⟩
    intro hm
    have hlo := (hi.located (.queue mb) h).mp hm
    rw [((hi.alive h).mp (by rw [hlo]; simp)).1] at hnw
    cases hnw
  | write hid | start hid | poll hid | releaseZero hid =>
    exact ⟨loc, hi.setPc rfl rfl (hand_of_idle hid) rfl rfl rfl rfl⟩
  | block hid => exact ⟨loc, hi.quiet rfl (fun _ _ ↦ rfl) rfl rfl⟩
  | @writeUser th mb data hid =>
    refine ⟨loc, hi.userQueue (hand_of_idle hid) rfl (fun h ↦ ?_) rfl rfl rfl rfl⟩
    simp
  | refuseWrite hpc | refuseStart hpc | refuseClaim hpc | claim hpc =>
    exact ⟨loc, hi.setPc rfl rfl (congrArg Pc.hand hpc) rfl rfl rfl rfl⟩
  | permit _ hh _ hn _ _ => exact ⟨loc, hi.setPc rfl hn hh rfl rfl rfl rfl⟩
  | @unregister th token h next hl _ hg _ =>
    have hu := hcu token h hl
    refine ⟨_, hi.moved (x := .table (w.container th) token) (y := .hand th) hu ?_ hi.once rfl
      rfl⟩
    calc _ = ((s.setHandle (w.container th) token none).setPc th next).places := rfl
      _ = (s.setHandle (w.container th) token none).places.put (.hand th) h :=
        places_grab (hand_of_lookedUp hl) hg
      _ = _ := by rw [places_unregister hu]
  | @push th mb h token hpc =>
    have hh := congrArg Pc.hand hpc
    have hnw := hi.not_mem_queue mb ((hi.located (.hand th) h).mp hh) (by simp)
    refine ⟨_, hi.moved (x := .hand th) (y := .queue mb) hh ?_ (hi.once_push hnw) rfl rfl⟩
    calc _ = ((s.setPc th .idle).setQueue mb (s.messageQueue mb ++ [.handle h])).places := rfl
      _ = (s.setPc th .idle).places.put (.queue mb) h := places_push
      _ = _ := by rw [places_drop hh rfl]
  | @register th p h token unlock hh hf hun =>
    refine ⟨_, hi.moved (x := .hand th) (y := .table p token) hh ?_ ?_ ?_ ?_⟩
    · calc _ = ((s.setPc th .idle).setHandle p token (some h)).places := by
            rcases hun with rfl | ⟨mb, rfl⟩ <;> rfl
        _ = (s.setPc th .idle).places.put (.table p token) h := places_register hf
        _ = _ := by rw [places_drop hh rfl]
    all_goals rcases hun with rfl | ⟨mb, rfl⟩
    · exact hi.once
    · exact hi.once
    all_goals rfl
  | @readUser th mb poll data messages hid hq =>
    refine ⟨loc, hi.userQueue (hand_of_idle hid) rfl (fun h ↦ ?_) rfl rfl rfl rfl⟩
    simp [hq]
  | @readHandle th mb poll h messages hid hq =>
    have hc := hi.once mb
    simp only [hq] at hc
    have hla : .handle h ∉ messages := by
      have := hc h
      rw [count_cons_self] at this
      exact count_eq_zero.mp (by omega)
    have hm : .handle h ∈ s.messageQueue mb := by simp [hq]
    refine ⟨_, hi.moved (x := .queue mb) (y := .hand th) hm ?_ (fun mb' q ↦ ?_) rfl rfl⟩
    · calc _ = ((s.setQueue mb messages).setPc th (.receiving mb h)).places := rfl
        _ = (s.setQueue mb messages).places.put (.hand th) h :=
          places_grab (hand_of_idle hid) rfl
        _ = _ := by rw [places_pop hq hla]
    · simp only [State.setQueue, State.setPc, State.setLock, State.markChanged, State.enter]
      rcases eq_or_ne mb' mb with rfl | hne
      · rw [update_self]
        exact Nat.le_trans count_le_count_cons (hc q)
      · rw [update_of_ne hne]
        exact hi.once mb' q
  | @release th token h hid hu =>
    refine ⟨_, hi.gone (x := .table (w.container th) token) hu ?_ hi.once rfl rfl⟩
    calc _ = ((s.setHandle (w.container th) token none).setPc th .idle).places := rfl
      _ = (s.setHandle (w.container th) token none).places :=
        places_setPc (hand_of_idle hid).symm
      _ = _ := places_unregister hu

end Ledger

open Function Foundation.Runs

def Guarded (w : World) (s : State) : Prop :=
  ∀ op t, Current w s op → step w s op = some t → ∀ p token h, s.handles p token = some h →
    t.handles p token ≠ some h →
    w.transfer h = true ∨ ∃ th, op = .release th token ∧ w.container th = p

/-- A call that returned an error has changed no table and no queue, in none of its steps. -/
structure ErrorsClean (w : World) (s : State) : Prop where
  error : ∀ th r, s.result th = some r → r ≠ .ok → s.changed th = false
  unchanged : ∀ op t th, op.thread = some th → step w s op = some t → t.changed th = false →
    t.handles = s.handles ∧ t.messageQueue = s.messageQueue

variable {w : World} {s t : State} {op : Op} {p : ProcessId} {token : Token} {th : ThreadId}

structure CallOk (w : World) (pc : Pc) (result : Option Result) (changed : Bool) : Prop where
  checked : ∀ token h, pc.lookedUp = some (token, h) → w.transfer h = true
  idle : pc = .idle → ∀ r, result = some r → r ≠ .ok → changed = false
  busy : pc ≠ .idle → result = none ∧ changed = pc.hand.isSome

def Calls (w : World) (s : State) : Prop :=
  ∀ th, CallOk w (s.pc th) (s.result th) (s.changed th)

theorem Step.other (hs : Step w s op t) (hn : op.thread ≠ some th) :
  t.pc th = s.pc th ∧ t.result th = s.result th ∧ t.changed th = s.changed th := by
  cases hs with
  | register _ _ hu =>
    have hth := Ne.symm (by simpa [Op.thread] using hn)
    rcases hu with rfl | ⟨mb, rfl⟩ <;>
      simp [State.finish, State.setLock, State.setHandle, update_of_ne hth]
  | send _ => exact ⟨rfl, rfl, rfl⟩
  | _ =>
    have hth := Ne.symm (by simpa [Op.thread] using hn)
    simp [State.finish, State.setLock, State.setHandle, State.setPc, State.setQueue, State.enter,
      State.markChanged, State.addCreated, State.addReleased, State.setStarted, update_of_ne hth]

theorem CallOk.returned {r : Result} {c : Bool} (h : r ≠ .ok → c = false) :
  CallOk w .idle (some r) c := by
  refine ⟨fun _ _ hl ↦ ?_, fun _ q hq hn ↦ ?_, fun hb ↦ absurd rfl hb⟩
  · cases hl
  · cases hq
    exact h hn

theorem CallOk.inside {pc : Pc} {c : Bool} (hb : pc ≠ .idle) (hc : c = pc.hand.isSome)
  (hch : ∀ token h, pc.lookedUp = some (token, h) → w.transfer h = true) :
  CallOk w pc none c :=
  ⟨hch, fun h ↦ absurd h hb, fun _ ↦ ⟨rfl, hc⟩⟩

theorem Calls.unchanged (hc : Calls w s) (hb : s.pc th ≠ .idle) (hh : (s.pc th).hand = none) :
  s.result th = none ∧ s.changed th = false := by
  obtain ⟨hr, hch⟩ := (hc th).busy hb
  rw [hh] at hch
  exact ⟨hr, hch⟩

theorem Calls.step (hc : Calls w s) (hs : Step w s op t) : Calls w t := by
  intro th
  by_cases hth : op.thread = some th
  · cases hs with
    | send => cases hth
    | create | writeUser | readUser | release | releaseZero =>
      cases hth
      simp only [State.finish, State.markChanged, State.enter, update_self]
      exact .returned fun h ↦ absurd rfl h
    | push hpc =>
      cases hth
      simp only [State.finish, update_self]
      exact .returned fun h ↦ absurd rfl h
    | register _ _ hu =>
      cases hth
      simp only [State.finish, update_self]
      exact .returned fun h ↦ absurd rfl h
    | poll =>
      cases hth
      simp only [State.finish, State.enter, update_self]
      exact .returned fun _ ↦ rfl
    | block hi =>
      cases hth
      simp only [State.enter, update_self, hi]
      exact ⟨fun _ _ h ↦ (by cases h), fun _ _ h ↦ (by cases h), fun h ↦ absurd rfl h⟩
    | write | start =>
      cases hth
      simp only [State.enter, State.setPc, State.setLock, update_self]
      exact .inside (by simp) rfl fun _ _ h ↦ by cases h
    | refuseWrite hpc | refuseStart hpc | refuseClaim hpc =>
      cases hth
      have hb := hc.unchanged (by rw [hpc]; simp) (congrArg Pc.hand hpc)
      simp only [State.finish, State.setLock, update_self]
      exact .returned fun _ ↦ hb.2
    | permit hbu hh hp hne hn hl =>
      cases hth
      have hb := hc.unchanged hbu hh
      simp only [State.setPc, update_self, hb.1, hb.2]
      refine .inside hn (by rw [hne]; rfl) fun t' h' heq ↦ ?_
      rw [hl] at heq
      cases heq
      exact hp
    | claim hpc =>
      cases hth
      have hb := hc.unchanged (by rw [hpc]; simp) (congrArg Pc.hand hpc)
      have hch := (hc th).checked
      simp only [State.setPc, State.setStarted, update_self, hb.1, hb.2]
      refine .inside (by simp) rfl fun t' h' heq ↦ ?_
      rw [hpc] at hch
      exact hch t' h' heq
    | unregister hl _ hg hno =>
      cases hth
      have hr := ((hc th).busy (by intro hi; rw [hi] at hl; cases hl)).1
      simp only [State.setPc, State.markChanged, State.setHandle, update_self, hr]
      refine .inside (by rintro rfl; cases hg) (by rw [hg]; rfl) fun _ _ h ↦ ?_
      rw [hno] at h
      cases h
    | readHandle hi =>
      cases hth
      simp only [State.setPc, State.setLock, State.markChanged, State.setQueue, State.enter,
        update_self]
      exact .inside (by simp) rfl fun _ _ h ↦ by cases h
  · obtain ⟨hpc, hr, hcha⟩ := hs.other hth
    rw [hpc, hr, hcha]
    exact hc th

theorem Calls.errorsClean (hc : Calls w s) : ErrorsClean w s := by
  refine ⟨fun th r hr hn ↦ ?_, fun op t th ht ho hch ↦ ?_⟩
  · by_cases hi : s.pc th = .idle
    · exact (hc th).idle hi r hr hn
    · rw [((hc th).busy hi).1] at hr
      cases hr
  · cases Step.of_step ho with
    | send => cases ht
    | create | writeUser | readUser | release | unregister | readHandle =>
      cases ht
      simp [State.finish, State.setPc, State.setLock, State.markChanged] at hch
    | push hp =>
      cases ht
      have hb := ((hc th).busy (by rw [hp]; simp)).2
      rw [hp] at hb
      exact absurd (hb.symm.trans hch) (by simp [Pc.hand])
    | register hh _ hu =>
      cases ht
      have hb := ((hc th).busy (by intro hi; rw [hi] at hh; cases hh)).2
      rw [hh] at hb
      rcases hu with rfl | ⟨mb, rfl⟩ <;> exact absurd (hb.symm.trans hch) (by simp)
    | _ => exact ⟨rfl, rfl⟩

theorem setHandle_of_ne {q : Option Handle} {p' : ProcessId} {token' : Token}
  (hn : (s.setHandle p token q).handles p' token' ≠ s.handles p' token') :
  p' = p ∧ token' = token := by
  simp only [State.setHandle] at hn
  by_cases hp : p' = p
  · subst hp
    rw [update_self] at hn
    by_cases ht : token' = token
    · exact ⟨rfl, ht⟩
    · exact absurd (update_of_ne ht ..) hn
  · exact absurd (congrFun (update_of_ne hp ..) token') hn

theorem Calls.guarded (hc : Calls w s) : Guarded w s := by
  intro op t hcu ho p token h hu hl
  rw [← hu] at hl
  cases Step.of_step ho with
  | create _ _ hf =>
    obtain ⟨rfl, rfl⟩ := setHandle_of_ne hl
    rw [hf] at hu
    cases hu
  | unregister hlo =>
    obtain ⟨rfl, rfl⟩ := setHandle_of_ne hl
    rw [hcu _ _ hlo] at hu
    cases hu
    exact .inl ((hc _).checked _ _ hlo)
  | register _ hf hn =>
    have hch := hl
    rcases hn with rfl | ⟨mb, rfl⟩ <;>
    · obtain ⟨rfl, rfl⟩ := setHandle_of_ne hch
      rw [hf] at hu
      cases hu
  | @release th _ _ _ _ =>
    obtain ⟨rfl, rfl⟩ := setHandle_of_ne hl
    exact .inr ⟨th, rfl, rfl⟩
  | _ => exact absurd rfl hl

theorem inv_initial : Inv {} fun _ ↦ none := by
  refine ⟨fun x h ↦ ?_, fun _ _ ↦ Nat.zero_le _, fun h ↦ ?_, fun h hr ↦ ?_⟩
  · cases x <;> simp [State.places, Pc.hand]
  · simp
  · cases hr

theorem calls_initial (w : World) : Calls w {} := by
  intro th
  exact ⟨fun _ _ h ↦ (by cases h), fun _ _ h ↦ (by cases h), fun h ↦ absurd rfl h⟩

theorem moved_of_current (w : World) (s : State) (h : Reachable (step w) (Current w) {} s) :
    Conserved s ∧ Guarded w s ∧ ErrorsClean w s := by
  have hin : (∃ loc, Inv s loc) ∧ Calls w s := by
    refine h.invariant (I := fun s ↦ (∃ loc, Inv s loc) ∧ Calls w s)
      ⟨⟨_, inv_initial⟩, calls_initial w⟩ ?_
    rintro s op t ⟨⟨loc, hi⟩, hc⟩ hcu hok
    exact ⟨hi.step hcu (Step.of_step hok), hc.step (Step.of_step hok)⟩
  obtain ⟨⟨loc, hi⟩, hc⟩ := hin
  exact ⟨hi.conserved, hc.guarded, hc.errorsClean⟩

def peers : World := ⟨id, fun _ ↦ true⟩

theorem moved_between_peers : ∃ s, Reachable (step peers) (Current peers) {} s ∧
  s.handles 1 6 = some 7 ∧ Conserved s ∧ Guarded peers s ∧ ErrorsClean peers s := by
  have hl : (exec (step peers) {} [.create 0 7 5, .write 0 2 5, .lookUp 0]).all (fun u ↦
    (u.pc 0).lookedUp == some (5, 7) && u.handles 0 5 == some 7) = true := by decide
  have hru : (exec (step peers) {} ([.create 0 7 5, .write 0 2 5, .lookUp 0] ++ .unregister 0 ::
    [.store 0 0, .read 1 2 false, .store 1 6])).any (fun s ↦ s.handles 1 6 == some 7) = true := by
    decide
  obtain ⟨s, he, hs⟩ := (Option.any_eq_true _ _).mp hru
  have hc : ∀ u, exec (step peers) {} [.create 0 7 5, .write 0 2 5, .lookUp 0] = some u →
    Current peers u (.unregister 0) := by
    intro u hu token h hq
    rw [hu] at hl
    simp only [Option.all_some, Bool.and_eq_true, beq_iff_eq] at hl
    rw [hl.1] at hq
    cases hq
    exact hl.2
  have hr : Reachable (step peers) (Current peers) {} s :=
    Reachable.of_exec_split (by simp [Current]) hc (by simp [Current]) he
  exact ⟨s, hr, by simpa using hs, moved_of_current peers s hr⟩

def racingWrites : List Op :=
  [.create 0 7 5, .create 0 8 6, .write 0 0 6, .lookUp 0, .unregister 0, .store 0 0,
    .write 0 1 5, .lookUp 0, .write 1 2 5, .lookUp 1, .unregister 0, .store 0 0,
    .read 2 0 false, .store 2 5, .unregister 1, .store 1 0]

theorem not_conserved_racing : ¬ ∀ w s, Reachable (step w) Unrestricted {} s → Conserved s := by
  intro h
  have hru : (exec (step ⟨fun _ ↦ 0, fun _ ↦ true⟩) {} racingWrites).any (fun s ↦
    s.created 7 && !s.released 7 && s.messageQueue 1 == [.handle 7] &&
    s.messageQueue 2 == [.handle 7]) = true := by decide
  obtain ⟨s, hre, hs⟩ := Reachable.of_any hru
  simp only [Bool.and_eq_true, Bool.not_eq_true', beq_iff_eq] at hs
  obtain ⟨⟨⟨hc, hr⟩, ho⟩, ht⟩ := hs
  have hp := (h _ s hre 7 hc hr).place
  have heq := hp.unique (show s.places (.queue 1) 7 by simp [State.places, ho])
    (show s.places (.queue 2) 7 by simp [State.places, ht])
  cases heq

end ReaverOS.Kernel.Capabilities
