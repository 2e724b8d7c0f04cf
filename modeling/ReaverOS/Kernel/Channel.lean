import ReaverOS.Foundation.Runs
import ReaverOS.Kernel.Fifo

namespace ReaverOS.Kernel.Channel

open Function

section

abbrev Node := ℕ
abbrev Thread := ℕ

inductive Payload
  | handle (h : ℕ)
  | user (data : ℕ)
  deriving DecidableEq

structure Message where
  serial : ℕ
  payload : Payload
  deriving DecidableEq

inductive Result
  | ok | notReady | invalidToken | notAllowed | invalidPointers
  deriving DecidableEq

inductive Outcome
  | blocked
  | returned (r : Result)
  deriving DecidableEq

inductive Source
  | user (data : ℕ)
  | token (found : Option (ℕ × Bool))

inductive Status
  | running
  /-- Descheduled, in `_waiting_threads`. -/
  | waiting
  /-- Scheduled again, its continuation not run yet. -/
  | woken
  deriving DecidableEq

structure State where
  next : Node → Option Node := fun _ ↦ none
  content : Node → Message := fun _ ↦ ⟨0, .user 0⟩
  allocated : Node → Bool := fun _ ↦ false
  messageQueue : Fifo Node := {}
  threadNext : Thread → Option Thread := fun _ ↦ none
  waitingThreads : Fifo Thread := {}
  status : Thread → Status := fun _ ↦ .running
  continuation : Thread → Bool := fun _ ↦ false
  outcome : Thread → Option Outcome := fun _ ↦ none
  /-- The messages in the order of `push_back`, and those that reads have handed out. -/
  pushed : List Message := []
  received : List Message := []
  /-- The threads in the order in which they blocked, and those that were woken. -/
  blocked : List Thread := []
  woken : List Thread := []
  /-- Those woken that have not been resumed yet. -/
  pending : List Thread := []

namespace State

variable (s : State)

def finish (th : Thread) (r : Result) : State :=
  { s with outcome := update s.outcome th (some (.returned r)) }

def schedule (th : Thread) (waitingThreads : Fifo Thread) : State :=
  { s with
    waitingThreads
    status := update s.status th .woken
    woken := s.woken ++ [th]
    pending := s.pending ++ [th] }

def wake : State :=
  if s.waitingThreads.empty then s
  else
    match s.waitingThreads.popFront s.threadNext with
    | (some th, waitingThreads) => s.schedule th waitingThreads
    | (none, _) => s

def addMessage (node : Node) (payload : Payload) (next : Node → Option Node)
  (messageQueue : Fifo Node) : State :=
  { s with
    next, messageQueue
    content := update s.content node ⟨s.pushed.length, payload⟩
    allocated := update s.allocated node true
    pushed := s.pushed ++ [⟨s.pushed.length, payload⟩] }

def push (node : Node) (payload : Payload) : Option State :=
  match s.messageQueue.pushBack s.next node with
  | none => none
  | some (next, messageQueue) => some (s.addMessage node payload next messageQueue).wake

def block (th : Thread) (threadNext : Thread → Option Thread) (waitingThreads : Fifo Thread) :
  State :=
  { s with
    threadNext, waitingThreads
    status := update s.status th .waiting
    outcome := update s.outcome th (some .blocked)
    blocked := s.blocked ++ [th] }

def handOut (node : Node) (messageQueue : Fifo Node) : State :=
  { s with
    messageQueue
    allocated := update s.allocated node false
    received := s.received ++ [s.content node] }

def write (th : Thread) (node : Node) : Source → Option State
  | .user data => (s.push node (.user data)).map (·.finish th .ok)
  | .token none => some (s.finish th .invalidToken)
  | .token (some (_, false)) => some (s.finish th .notAllowed)
  | .token (some (h, true)) => (s.push node (.handle h)).map (·.finish th .ok)

def read (th : Thread) (poll : Bool) : Option State :=
  if s.messageQueue.empty then
    if poll then some (s.finish th .notReady)
    else
      match s.waitingThreads.pushBack s.threadNext th with
      | none => none
      | some (threadNext, waitingThreads) => some (s.block th threadNext waitingThreads)
  else
    match s.messageQueue.popFront s.next with
    | (none, _) => none
    | (some node, messageQueue) => some ((s.handOut node messageQueue).finish th .ok)

def freshRead (th : Thread) (poll : Bool) : Option State :=
  (s.read th poll).map fun t ↦
    if t.outcome th = some .blocked then { t with continuation := update t.continuation th true }
    else t

def unblock (th : Thread) : State :=
  { s with
    status := update s.status th .running
    pending := s.pending.erase th
    continuation := update s.continuation th false }

def resume (th : Thread) (valid : Bool) : Option State :=
  if s.continuation th then
    if valid then (s.unblock th).read th false else some ((s.unblock th).finish th .invalidPointers)
  else some (s.unblock th)

end State

inductive Op
  | send (node : Node) (payload : Payload)
  | write (th : Thread) (node : Node) (source : Source)
  | read (th : Thread) (poll : Bool)
  | resume (th : Thread) (valid : Bool)
  /-- Others use the links of free messages. -/
  | relinkMessage (node : Node) (link : Option Node)
  /-- A run queue links threads through the same `next`, waiting ones not excepted. -/
  | relinkThreads (links : Thread → Option Thread)

def Op.thread : Op → Option Thread
  | .write th _ _ | .read th _ | .resume th _ => some th
  | .send _ _ | .relinkMessage _ _ | .relinkThreads _ => none

def enabled (s : State) : Op → Bool
  | .send node _ => !s.allocated node
  | .write th node _ => s.status th == .running && !s.allocated node
  | .read th _ => s.status th == .running
  | .resume th _ => s.status th == .woken
  | .relinkMessage node _ => !s.allocated node
  | .relinkThreads _ => true

def run (s : State) : Op → Option State
  | .send node payload => s.push node payload
  | .write th node source => s.write th node source
  | .read th poll => s.freshRead th poll
  | .resume th valid => s.resume th valid
  | .relinkMessage node link => some { s with next := update s.next node link }
  | .relinkThreads links => some { s with threadNext := links }

def step (s : State) (op : Op) : Option State := if enabled s op then run s op else none

end

open List

structure Messages (s : State) (nodes : List Node) : Prop where
  messages : Fifo.Holds s.next s.messageQueue nodes
  allocated : ∀ n ∈ nodes, s.allocated n = true
  pushed : s.pushed = s.received ++ nodes.map s.content
  serials : s.pushed.map Message.serial = List.range s.pushed.length

structure Queued (s : State) (nodes : List Node) (threads : List Thread) : Prop
  extends Messages s nodes where
  waiting : Fifo.Holds s.threadNext s.waitingThreads threads
  status : ∀ th, th ∈ threads ↔ s.status th = .waiting
  blocked : s.blocked = s.woken ++ threads
  pending : ∀ th, th ∈ s.pending ↔ s.status th = .woken
  pendingNodup : s.pending.Nodup

variable {s t : State} {nodes : List Node} {threads : List Thread} {node : Node} {th : Thread}
  {payload : Payload}

theorem messages_initial : Messages {} [] := by
  refine ⟨Fifo.holds_empty _, ?_, rfl, rfl⟩
  intro n hn
  cases hn

theorem queued_initial : Queued {} [] [] := by
  refine ⟨messages_initial, Fifo.holds_empty _, ?_, rfl, ?_, nodup_nil⟩
  all_goals
    intro th
    simp

theorem Messages.not_mem (h : Messages s nodes) (hf : s.allocated node = false) : node ∉ nodes := by
  intro hm
  rw [h.allocated node hm] at hf
  cases hf

theorem Messages.addMessage (h : Messages s nodes) (hf : s.allocated node = false)
  (pl : Payload) : ∃ nx q, s.messageQueue.pushBack s.next node = some (nx, q) ∧
  Messages (s.addMessage node pl nx q) (nodes ++ [node]) := by
  have hnw := h.not_mem hf
  obtain ⟨nx, q, hp, hh, -⟩ := h.messages.pushBack hnw
  refine ⟨nx, q, hp, hh, ?_, ?_, ?_⟩
  · intro n hn
    rcases mem_append.mp hn with hn | hn
    · have hne : n ≠ node := fun he ↦ hnw (he ▸ hn)
      exact (update_of_ne hne ..).trans (h.allocated n hn)
    · rw [mem_singleton.mp hn]
      exact update_self ..
  · have ho : nodes.map (update s.content node ⟨s.pushed.length, pl⟩) = nodes.map s.content := by
      apply map_congr_left
      intro n hn
      have hne : n ≠ node := fun he ↦ hnw (he ▸ hn)
      exact update_of_ne hne ..
    simp only [State.addMessage, map_append, map_cons, map_nil, update_self, ho]
    rw [h.pushed, List.append_assoc]
  · simp only [State.addMessage, map_append, length_append, length_cons,
      length_nil, h.serials, range_succ, map_cons, map_nil]

-- The threads may be linked in any way: whom a push wakes makes no difference to the messages.
theorem Messages.wake (h : Messages s nodes) : Messages s.wake nodes := by
  rw [State.wake]
  split
  · exact h
  · split
    · exact ⟨h.messages, h.allocated, h.pushed, h.serials⟩
    · exact h

theorem Messages.push (h : Messages s nodes) (hf : s.allocated node = false) (pl : Payload) :
  ∃ t, s.push node pl = some t ∧ Messages t (nodes ++ [node]) := by
  obtain ⟨nx, q, hp, ha⟩ := h.addMessage hf pl
  exact ⟨_, by rw [State.push, hp], ha.wake⟩

theorem Messages.handOut (h : Messages s (node :: nodes)) :
  ∃ q, s.messageQueue.popFront s.next = (some node, q) ∧ Messages (s.handOut node q) nodes := by
  obtain ⟨q, hp, hh⟩ := h.messages.popFront
  refine ⟨q, hp, hh, ?_, ?_, h.serials⟩
  · intro n hn
    have hne : n ≠ node := by
      rintro rfl
      exact (nodup_cons.mp h.messages.nodup).1 hn
    exact (update_of_ne hne ..).trans (h.allocated n (mem_cons_of_mem _ hn))
  · simp [State.handOut, h.pushed]

theorem Messages.relink (h : Messages s nodes) (hf : s.allocated node = false)
  (l : Option Node) : Messages { s with next := update s.next node l } nodes := by
  refine ⟨h.messages.congr ?_, h.allocated, h.pushed, h.serials⟩
  intro n hn
  have hne : n ≠ node := fun he ↦ h.not_mem hf (he ▸ hn)
  exact update_of_ne hne ..

theorem Queued.wake (h : Queued s nodes threads) :
  Queued s.wake nodes threads.tail ∧ s.wake.pending = s.pending ++ threads.head?.toList := by
  cases threads with
  | nil =>
    have hw : s.wake = s := if_pos (h.waiting.empty_iff.mpr rfl)
    rw [hw]
    exact ⟨h, by simp⟩
  | cons x xs =>
    obtain ⟨q, hp, hh⟩ := h.waiting.popFront
    have hne : s.waitingThreads.empty = false := by
      rw [Bool.eq_false_iff]
      intro he
      cases h.waiting.empty_iff.mp he
    have hw : s.wake = s.schedule x q := by
      rw [State.wake, hne, hp]
      rfl
    rw [hw]
    have hs : s.status x = .waiting := (h.status x).mp (List.mem_cons_self ..)
    have hn : x ∉ s.pending := by
      rw [h.pending, hs]
      exact Status.noConfusion
    refine ⟨⟨⟨h.messages, h.allocated, h.pushed, h.serials⟩, hh, ?_, ?_, ?_, ?_⟩, rfl⟩
    · intro y
      have hf := (List.nodup_cons.mp h.waiting.nodup).1
      simp only [State.schedule, List.tail_cons]
      rcases eq_or_ne y x with rfl | ho
      · simp [hf]
      · rw [update_of_ne ho, ← h.status y]
        simp [ho]
    · simp [State.schedule, h.blocked]
    · intro y
      simp only [State.schedule, List.mem_append, List.mem_singleton]
      rcases eq_or_ne y x with rfl | ho
      · simp
      · rw [update_of_ne ho, ← h.pending y]
        simp [ho]
    · simp only [State.schedule]
      rw [← List.concat_eq_append]
      exact h.pendingNodup.concat hn

theorem Queued.push (h : Queued s nodes threads) (hf : s.allocated node = false) (pl : Payload) :
  ∃ t, s.push node pl = some t ∧ Queued t (nodes ++ [node]) threads.tail ∧
  t.pending = s.pending ++ threads.head?.toList := by
  obtain ⟨nx, q, hp, hm⟩ := h.addMessage hf pl
  have ha : Queued (s.addMessage node pl nx q) (nodes ++ [node]) threads :=
    ⟨hm, h.waiting, h.status, h.blocked, h.pending, h.pendingNodup⟩
  refine ⟨_, by rw [State.push, hp], ha.wake.1, ?_⟩
  exact ha.wake.2

theorem Messages.finish (h : Messages s nodes) (th : Thread) (r : Result) :
  Messages (s.finish th r) nodes :=
  ⟨h.messages, h.allocated, h.pushed, h.serials⟩

theorem Queued.finish (h : Queued s nodes threads) (th : Thread) (r : Result) :
  Queued (s.finish th r) nodes threads :=
  ⟨h.toMessages.finish th r, h.waiting, h.status, h.blocked, h.pending, h.pendingNodup⟩

theorem Queued.block (h : Queued s nodes threads) (hr : s.status th = .running) :
  ∃ nx q, s.waitingThreads.pushBack s.threadNext th = some (nx, q) ∧
  Queued (s.block th nx q) nodes (threads ++ [th]) := by
  have hn : th ∉ threads := by
    rw [h.status th, hr]
    exact Status.noConfusion
  obtain ⟨nx, q, hp, hh, -⟩ := h.waiting.pushBack hn
  refine ⟨nx, q, hp, ⟨h.messages, h.allocated, h.pushed, h.serials⟩, hh, ?_, ?_, ?_, h.pendingNodup⟩
  · intro y
    simp only [State.block, mem_append, mem_singleton]
    rcases eq_or_ne y th with rfl | ho
    · simp
    · rw [update_of_ne ho, ← h.status y]
      simp [ho]
  · simp [State.block, h.blocked]
  · intro y
    simp only [State.block]
    rw [h.pending y]
    rcases eq_or_ne y th with rfl | ho
    · simp [hr]
    · rw [update_of_ne ho]

theorem Queued.unblock (h : Queued s nodes threads) (hw : s.status th = .woken) :
  Queued (s.unblock th) nodes threads := by
  refine ⟨⟨h.messages, h.allocated, h.pushed, h.serials⟩, h.waiting, ?_, h.blocked, ?_,
    h.pendingNodup.erase th⟩
  · intro y
    simp only [State.unblock]
    rw [h.status y]
    rcases eq_or_ne y th with rfl | ho
    · simp [hw]
    · rw [update_of_ne ho]
  · intro y
    simp only [State.unblock]
    rw [h.pendingNodup.mem_erase_iff, h.pending y]
    rcases eq_or_ne y th with rfl | ho
    · simp
    · simp [ho]

theorem Queued.read (h : Queued s nodes threads) (hr : s.status th = .running) (p : Bool) :
  ∃ t nodes' threads', s.read th p = some t ∧ Queued t nodes' threads' ∧ t.pending = s.pending ∧
  (nodes' = [] ∨ threads' = threads ∧ nodes = nodes.take 1 ++ nodes') := by
  cases nodes with
  | nil =>
    have he := h.messages.empty_iff.mpr rfl
    cases p with
    | true =>
      refine ⟨_, [], threads, by rw [State.read, if_pos he, if_pos rfl], h.finish th _, rfl, ?_⟩
      exact .inl rfl
    | false =>
      obtain ⟨nx, q, hp, hb⟩ := h.block hr
      refine ⟨_, [], _, ?_, hb, rfl, .inl rfl⟩
      rw [State.read, if_pos he, if_neg Bool.false_ne_true, hp]
  | cons node xs =>
    have he : ¬ s.messageQueue.empty = true := by
      rw [h.messages.empty_iff]
      exact cons_ne_nil _ _
    obtain ⟨q, hpo, ho⟩ := h.handOut
    refine ⟨_, xs, threads, ?_, ⟨ho.finish th .ok, h.waiting, h.status, h.blocked, h.pending,
      h.pendingNodup⟩, rfl, .inr ⟨rfl, rfl⟩⟩
    rw [State.read, if_neg he, hpo]

inductive Effect (s : State) (nodes : List Node) (threads : List Thread) (op : Op) (t : State)
  (nodes' : List Node) (threads' : List Thread) : Prop
  | quiet : nodes' = nodes → threads' = threads → t.pending = s.pending →
      Effect s nodes threads op t nodes' threads'
  | pushed (node : Node) : nodes' = nodes ++ [node] → threads' = threads.tail →
      t.pending = s.pending ++ threads.head?.toList → Effect s nodes threads op t nodes' threads'
  | served : (t.pending = s.pending ∨ ∃ th ∈ s.pending, t.pending = s.pending.erase th) →
      (nodes' = [] ∨ threads' = threads ∧ nodes = nodes.take 1 ++ nodes') →
      Effect s nodes threads op t nodes' threads'
  | unserved (th : Thread) (valid : Bool) : op = .resume th valid →
      (valid = false ∨ s.continuation th = false) → nodes' = nodes → threads' = threads →
      t.pending = s.pending.erase th → Effect s nodes threads op t nodes' threads'

/-- A run queue leaves the links of the threads that wait at the mailbox. -/
def Undisturbed (s : State) : Op → Prop
  | .relinkThreads links => ∀ th, s.status th = .waiting → links th = s.threadNext th
  | _ => True

theorem Queued.run {op : Op} (h : Queued s nodes threads) (hn : enabled s op = true)
  (hu : Undisturbed s op) : ∃ t nodes' threads', run s op = some t ∧ Queued t nodes' threads' ∧
  Effect s nodes threads op t nodes' threads' := by
  cases op with
  | send node payload =>
    obtain ⟨t, hpu, hq, hp⟩ := h.push (by simpa [enabled] using hn) payload
    exact ⟨t, _, _, hpu, hq, .pushed node rfl rfl hp⟩
  | write th node so =>
    obtain ⟨-, hf⟩ : s.status th = .running ∧ s.allocated node = false := by
      simpa [enabled] using hn
    have hw (payload : Payload) (hrn : s.write th node so =
      (s.push node payload).map (·.finish th .ok)) : ∃ t nodes' threads',
      Channel.run s (.write th node so) = some t ∧ Queued t nodes' threads' ∧
      Effect s nodes threads (.write th node so) t nodes' threads' := by
      obtain ⟨t, hpu, hq, hp⟩ := h.push hf payload
      refine ⟨t.finish th .ok, _, _, ?_, hq.finish th .ok, .pushed node rfl rfl hp⟩
      rw [Channel.run, hrn, hpu]
      rfl
    match so, hw with
    | .user data, hw => exact hw (.user data) rfl
    | .token (some (hd, true)), hw => exact hw (.handle hd) rfl
    | .token none, _ => exact ⟨_, _, _, rfl, h.finish th .invalidToken, .quiet rfl rfl rfl⟩
    | .token (some (_, false)), _ =>
      exact ⟨_, _, _, rfl, h.finish th .notAllowed, .quiet rfl rfl rfl⟩
  | read th p =>
    obtain ⟨t, nodes', threads', hr, hq, hp, he⟩ := h.read (by simpa [enabled] using hn) p
    rw [Channel.run, State.freshRead, hr, Option.map_some]
    split
    · exact ⟨_, nodes', threads', rfl, ⟨⟨hq.messages, hq.allocated, hq.pushed, hq.serials⟩,
        hq.waiting, hq.status, hq.blocked, hq.pending, hq.pendingNodup⟩, .served (.inl hp) he⟩
    · exact ⟨_, nodes', threads', rfl, hq, .served (.inl hp) he⟩
  | resume th v =>
    have hwo : s.status th = .woken := by simpa [enabled] using hn
    have hm := (h.pending th).mpr hwo
    have hub := h.unblock hwo
    rw [Channel.run, State.resume]
    cases hc : s.continuation th with
    | false => exact ⟨_, _, _, rfl, hub, .unserved th v rfl (.inr hc) rfl rfl rfl⟩
    | true =>
      cases v with
      | false => exact ⟨_, _, _, rfl, hub.finish th _, .unserved th _ rfl (.inl rfl) rfl rfl rfl⟩
      | true =>
        have hru : (s.unblock th).status th = .running := update_self ..
        obtain ⟨t, nodes', threads', hr, hq, hp, he⟩ := hub.read hru false
        exact ⟨t, nodes', threads', hr, hq, .served (.inr ⟨th, hm, hp⟩) he⟩
  | relinkMessage node l =>
    have hm := h.toMessages.relink (by simpa [enabled] using hn) l
    exact ⟨_, nodes, threads, rfl, ⟨hm, h.waiting, h.status, h.blocked, h.pending, h.pendingNodup⟩,
      .quiet rfl rfl rfl⟩
  | relinkThreads ls =>
    have hw : Fifo.Holds ls s.waitingThreads threads :=
      h.waiting.congr fun th ht ↦ hu th ((h.status th).mp ht)
    exact ⟨_, nodes, threads, rfl, ⟨⟨h.messages, h.allocated, h.pushed, h.serials⟩, hw, h.status,
      h.blocked, h.pending, h.pendingNodup⟩, .quiet rfl rfl rfl⟩

theorem Queued.step {op : Op} (h : Queued s nodes threads) (hu : Undisturbed s op)
  (ho : step s op = some t) :
  ∃ nodes' threads', Queued t nodes' threads' ∧ Effect s nodes threads op t nodes' threads' := by
  rw [Channel.step] at ho
  split at ho
  next hen =>
    obtain ⟨u, nodes', threads', hr, hq, he⟩ := h.run hen hu
    cases hr.symm.trans ho
    exact ⟨nodes', threads', hq, he⟩
  next => cases ho

theorem Messages.read {p : Bool} (h : Messages s nodes) (hk : s.read th p = some t) :
  ∃ nodes', Messages t nodes' := by
  cases nodes with
  | nil =>
    rw [State.read, if_pos (h.messages.empty_iff.mpr rfl)] at hk
    split at hk
    · cases hk
      exact ⟨[], h.finish th _⟩
    · split at hk
      · cases hk
      · cases hk
        exact ⟨[], h.messages, h.allocated, h.pushed, h.serials⟩
  | cons node xs =>
    have he : ¬ s.messageQueue.empty = true := by
      rw [h.messages.empty_iff]
      exact cons_ne_nil _ _
    obtain ⟨q, hp, ho⟩ := h.handOut
    rw [State.read, if_neg he, hp] at hk
    cases hk
    exact ⟨xs, ho.finish th .ok⟩

/-- The messages are kept in order whatever a run queue does to the links of threads. -/
theorem Messages.step {op : Op} (h : Messages s nodes) (ho : step s op = some t) :
  ∃ nodes', Messages t nodes' := by
  rw [Channel.step] at ho
  split at ho
  next hen =>
    cases op with
    | send node payload =>
      obtain ⟨u, hp, hm⟩ := h.push (by simpa [enabled] using hen) payload
      cases hp.symm.trans ho
      exact ⟨_, hm⟩
    | write th node so =>
      obtain ⟨-, hf⟩ : s.status th = .running ∧ s.allocated node = false := by
        simpa [enabled] using hen
      have hw (payload : Payload) (hrn : (s.push node payload).map (·.finish th .ok) = some t) :
        ∃ nodes', Messages t nodes' := by
        obtain ⟨u, hp, hm⟩ := h.push hf payload
        rw [hp] at hrn
        cases hrn
        exact ⟨_, hm.finish th .ok⟩
      match so with
      | .user data => exact hw (.user data) ho
      | .token (some (hd, true)) => exact hw (.handle hd) ho
      | .token none =>
        cases ho
        exact ⟨nodes, h.finish th _⟩
      | .token (some (_, false)) =>
        cases ho
        exact ⟨nodes, h.finish th _⟩
    | read th p =>
      obtain ⟨u, hr, hu⟩ := Option.map_eq_some_iff.mp ho
      obtain ⟨nodes', hm⟩ := h.read hr
      split at hu
      · cases hu
        exact ⟨nodes', hm.messages, hm.allocated, hm.pushed, hm.serials⟩
      · cases hu
        exact ⟨nodes', hm⟩
    | resume th v =>
      have hub : Messages (s.unblock th) nodes := ⟨h.messages, h.allocated, h.pushed, h.serials⟩
      rw [run, State.resume] at ho
      split at ho
      · split at ho
        · exact hub.read ho
        · cases ho
          exact ⟨nodes, hub.finish th _⟩
      · cases ho
        exact ⟨nodes, hub⟩
    | relinkMessage node l =>
      cases ho
      exact ⟨nodes, h.relink (by simpa [enabled] using hen) l⟩
    | relinkThreads ls =>
      cases ho
      exact ⟨nodes, h.messages, h.allocated, h.pushed, h.serials⟩
  next => cases ho

end ReaverOS.Kernel.Channel
