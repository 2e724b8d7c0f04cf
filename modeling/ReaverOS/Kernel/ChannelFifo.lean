import ReaverOS.Kernel.Channel
import ReaverOS.Kernel.RunQueue

namespace ReaverOS.Kernel.Channel

open Foundation.Runs List

structure NoLostWakeup (s : State) : Prop where
  bound : s.waitingThreads.empty = false → s.messageQueue.size ≤ s.pending.length
  served : s.pending = [] → s.waitingThreads.empty = false → s.messageQueue.empty = true

def Attended (s : State) : Op → Prop
  | .resume th valid => valid = true ∧ s.continuation th = true
  | op => Undisturbed s op

theorem Attended.undisturbed {s : State} {op : Op} (h : Attended s op) : Undisturbed s op := by
  cases op with
  | resume th v => trivial
  | _ => exact h

variable {s t : State} {op : Op} {nodes nodes' : List Node} {threads threads' : List Thread}

def Balanced (s : State) (nodes : List Node) (threads : List Thread) : Prop :=
  threads ≠ [] → nodes.length ≤ s.pending.length

theorem Balanced.step (h : Balanced s nodes threads) (ha : Attended s op)
  (he : Effect s nodes threads op t nodes' threads') : Balanced t nodes' threads' := by
  intro hw
  cases he with
  | quiet hn ht hp =>
    rw [hn, hp]
    exact h (ht ▸ hw)
  | pushed n hn ht hp =>
    cases threads with
    | nil =>
      rw [ht] at hw
      exact absurd rfl hw
    | cons first rest =>
      have ho := h (cons_ne_nil _ _)
      simp only [hn, hp, length_append, head?_cons, Option.toList_some, length_singleton]
      omega
  | served hp hn =>
    rcases hn with hn | ⟨ht, hn⟩
    · rw [hn]
      exact Nat.zero_le _
    · have ho := h (ht ▸ hw)
      have hl := congrArg List.length hn
      rw [length_append, length_take] at hl
      rcases hp with hp | ⟨th, hth, hp⟩
      · rw [hp]
        omega
      · rw [hp, length_erase_of_mem hth]
        omega
  | unserved th valid hop hno =>
    rw [hop] at ha
    rcases hno with hno | hno
    · cases ha.1.symm.trans hno
    · cases ha.2.symm.trans hno

theorem Balanced.noLostWakeup (h : Balanced s nodes threads) (hq : Queued s nodes threads) :
  NoLostWakeup s := by
  have hb : s.waitingThreads.empty = false → s.messageQueue.size ≤ s.pending.length := by
    intro hw
    rw [hq.messages.size]
    apply h
    intro hni
    rw [hq.waiting.empty_iff.mpr hni] at hw
    cases hw
  refine ⟨hb, fun hn hw ↦ ?_⟩
  have hz := hb hw
  rw [hn, hq.messages.size, length_nil, Nat.le_zero, length_eq_zero_iff] at hz
  exact hq.messages.empty_iff.mpr hz

theorem noLostWakeup_of_attended (s : State) (h : Reachable step Attended {} s) :
    NoLostWakeup s := by
  have hi : ∃ nodes threads, Queued s nodes threads ∧ Balanced s nodes threads := by
    apply h.invariant (I := fun s ↦ ∃ nodes threads, Queued s nodes threads ∧
      Balanced s nodes threads)
    · exact ⟨[], [], queued_initial, fun hn ↦ absurd rfl hn⟩
    · rintro s op t ⟨nodes, threads, hq, hb⟩ ha hok
      obtain ⟨nodes', threads', hq', he⟩ := hq.step ha.undisturbed hok
      exact ⟨nodes', threads', hq', hb.step ha he⟩
  obtain ⟨nodes, threads, hq, hb⟩ := hi
  exact hb.noLostWakeup hq

theorem noLostWakeup_one_woken : ∃ s, Reachable step Attended {} s ∧
  s.waitingThreads.empty = false ∧ s.received.length = 1 ∧ NoLostWakeup s := by
  have hr : (exec step {} [.read 0 false, .read 1 false, .send 5 (.user 1)]).all
    (fun u ↦ u.continuation 0) = true := by decide
  have hru : (exec step {} ([.read 0 false, .read 1 false, .send 5 (.user 1)] ++
    .resume 0 true :: [])).any (fun s ↦
    !s.waitingThreads.empty && s.received.length == 1) = true := by decide
  obtain ⟨s, he, hs⟩ := (Option.any_eq_true _ _).mp hru
  have ha : ∀ u, exec step {} [.read 0 false, .read 1 false, .send 5 (.user 1)] = some u →
    Attended u (.resume 0 true) := by
    intro u hu
    rw [hu] at hr
    exact ⟨rfl, hr⟩
  have hre : Reachable step Attended {} s :=
    Reachable.of_exec_split (by simp [Attended, Undisturbed]) ha (by simp) he
  simp only [Bool.and_eq_true, Bool.not_eq_true', beq_iff_eq] at hs
  exact ⟨s, hre, hs.1, hs.2, noLostWakeup_of_attended s hre⟩

theorem not_noLostWakeup : ¬ ∀ s, Reachable step Unrestricted {} s → NoLostWakeup s := by
  intro h
  have hru : (exec step {} [.read 0 false, .read 1 false, .send 5 (.user 1), .resume 0 false]).any
    (fun s ↦ !s.waitingThreads.empty && s.messageQueue.size == 1 && s.pending == []) = true := by
    decide
  obtain ⟨s, hr, hs⟩ := Reachable.of_any hru
  simp only [Bool.and_eq_true, Bool.not_eq_true', beq_iff_eq] at hs
  obtain ⟨⟨hw, hsi⟩, hn⟩ := hs
  have hb := (h s hr).bound hw
  rw [hsi, hn] at hb
  cases hb

end ReaverOS.Kernel.Channel

namespace ReaverOS.Kernel.Channel

open Function List Foundation.Runs

variable {s t : State} {nodes : List Node} {threads : List Thread} {n : Node} {th : Thread}

structure SameMessages (s t : State) : Prop where
  messageQueue : t.messageQueue = s.messageQueue
  next : t.next = s.next
  content : t.content = s.content
  pushed : t.pushed = s.pushed
  received : t.received = s.received

structure ExactFifo (s : State) : Prop where
  handedOut : s.received <+: s.pushed
  once : s.received.Nodup
  woken : s.woken <+: s.blocked
  failed : ∀ op t th, op.thread = some th → step s op = some t →
    t.outcome th ≠ some (.returned .ok) → SameMessages s t
  returns : ∀ op, enabled s op = true → (step s op).isSome = true

theorem finish_outcome (s : State) (th : Thread) (r : Result) :
  (s.finish th r).outcome th = some (.returned r) :=
  update_self ..

theorem read_failed {p : Bool} (h : s.read th p = some t)
  (hf : t.outcome th ≠ some (.returned .ok)) : SameMessages s t := by
  rw [State.read] at h
  split at h
  · split at h
    · cases h
      exact ⟨rfl, rfl, rfl, rfl, rfl⟩
    · split at h
      · cases h
      · cases h
        exact ⟨rfl, rfl, rfl, rfl, rfl⟩
  · split at h
    · cases h
    · cases h
      exact absurd (finish_outcome ..) hf

theorem write_failed {so : Source} (h : s.write th n so = some t)
  (hf : t.outcome th ≠ some (.returned .ok)) : SameMessages s t := by
  have hp (u : Option State) (hu : u.map (·.finish th .ok) = some t) : False := by
    obtain ⟨u, -, rfl⟩ := Option.map_eq_some_iff.mp hu
    exact hf (finish_outcome ..)
  match so with
  | .user data => exact (hp _ h).elim
  | .token (some (hd, true)) => exact (hp _ h).elim
  | .token none =>
    cases h
    exact ⟨rfl, rfl, rfl, rfl, rfl⟩
  | .token (some (_, false)) =>
    cases h
    exact ⟨rfl, rfl, rfl, rfl, rfl⟩

theorem step_failed {op : Op} (h : op.thread = some th) (ho : step s op = some t)
  (hf : t.outcome th ≠ some (.returned .ok)) : SameMessages s t := by
  rw [step] at ho
  split at ho
  · cases op with
    | send => cases h
    | relinkMessage => cases h
    | relinkThreads => cases h
    | write th' n so =>
      cases h
      exact write_failed ho hf
    | read th' p =>
      cases h
      obtain ⟨u, hr, he⟩ := Option.map_eq_some_iff.mp ho
      split at he
      · cases he
        have hs := read_failed hr hf
        exact ⟨hs.messageQueue, hs.next, hs.content, hs.pushed, hs.received⟩
      · cases he
        exact read_failed hr hf
    | resume th' v =>
      cases h
      rw [run, State.resume] at ho
      split at ho
      · split at ho
        · have hs := read_failed ho hf
          exact ⟨hs.messageQueue, hs.next, hs.content, hs.pushed, hs.received⟩
        · cases ho
          exact ⟨rfl, rfl, rfl, rfl, rfl⟩
      · cases ho
        exact ⟨rfl, rfl, rfl, rfl, rfl⟩
  · cases ho

theorem Queued.returns {op : Op} (h : Queued s nodes threads) (he : enabled s op = true) :
  (Channel.step s op).isSome = true := by
  rw [Channel.step, if_pos he]
  cases op with
  | relinkThreads ls => rfl
  | _ =>
    obtain ⟨t, -, -, hr, -⟩ := h.run he trivial
    rw [hr]
    rfl

theorem Queued.exactFifo (h : Queued s nodes threads) : ExactFifo s := by
  have hn : s.pushed.Nodup := by
    apply Nodup.of_map Message.serial
    rw [h.serials]
    exact nodup_range
  refine ⟨⟨_, h.pushed.symm⟩, ?_, ⟨_, h.blocked.symm⟩, fun op t th ↦ step_failed,
    fun op ↦ h.returns⟩
  rw [h.pushed] at hn
  exact (nodup_append.mp hn).1

theorem exactFifo_of_undisturbed (s : State) (h : Reachable step Undisturbed {} s) :
    ExactFifo s := by
  have hqu : ∃ nodes threads, Queued s nodes threads := by
    apply h.invariant (I := fun s ↦ ∃ nodes threads, Queued s nodes threads)
    · exact ⟨[], [], queued_initial⟩
    · rintro s op t ⟨nodes, threads, hq⟩ hun hok
      obtain ⟨nodes', threads', hq', -⟩ := hq.step hun hok
      exact ⟨nodes', threads', hq'⟩
  obtain ⟨nodes, threads, hq⟩ := hqu
  exact hq.exactFifo

/-- Others link the threads 1 and 3 while 0 and 2 wait. -/
theorem exactFifo_refilled : ∃ s, Reachable step Undisturbed {} s ∧
  s.received = [⟨0, .user 1⟩, ⟨1, .handle 2⟩] ∧ s.woken = [0, 2] ∧ ExactFifo s := by
  let links : Thread → Option Thread := update (update (fun _ ↦ none) 0 (some 2)) 1 (some 3)
  have hru : (exec step {} ([.read 0 false, .read 2 false] ++ .relinkThreads links ::
    [.send 5 (.user 1), .resume 0 true, .write 1 5 (.token (some (2, true))), .read 1 true,
    .resume 2 true])).any (fun s ↦
    s.received == [⟨0, .user 1⟩, ⟨1, .handle 2⟩] && s.woken == [0, 2]) = true := by decide
  obtain ⟨s, he, hs⟩ := (Option.any_eq_true _ _).mp hru
  have ha : ∀ u, exec step {} [.read 0 false, .read 2 false] = some u →
    Undisturbed u (.relinkThreads links) := by
    intro u hu th h
    cases hu
    rcases eq_or_ne th 0 with rfl | hz
    · rfl
    rcases eq_or_ne th 2 with rfl | ht
    · rfl
    simp [update_of_ne ht, update_of_ne hz, State.block] at h
  have hr : Reachable step Undisturbed {} s :=
    Reachable.of_exec_split (by simp [Undisturbed]) ha (by simp [Undisturbed]) he
  simp only [Bool.and_eq_true, beq_iff_eq] at hs
  exact ⟨s, hr, hs.1, hs.2, exactFifo_of_undisturbed s hr⟩

/-- A mailbox and the run queue of the one core whose threads use it. -/
structure Machine where
  mailbox : State := {}
  queue : RunQueue.Instance
  started : List Thread

namespace Machine

def initial (idle : Thread) (timestamp : Thread → ℕ) : Machine :=
  { queue := { idleThread := idle, currentThread := some idle, timestamp }, started := [idle] }

def relink (m : Machine) (queue : RunQueue.Instance) : Machine :=
  { m with queue, mailbox := { m.mailbox with threadNext := queue.threads.next } }

inductive Op
  | start (th : Thread)
  | reschedule (now : ℕ)
  | call (op : Channel.Op) (now : ℕ)

def calls (current : Option Thread) : Channel.Op → Bool
  | .send _ _ => true
  | .write th _ _ | .read th _ | .resume th _ => current = some th
  | .relinkMessage _ _ | .relinkThreads _ => false

def blocks (s : State) : Channel.Op → Bool
  | .read _ poll => s.messageQueue.empty && !poll
  | .resume th valid => s.continuation th && valid && s.messageQueue.empty
  | _ => false

-- `deschedule` is the argument of `push_back`, so it comes first.
def leave (m : Machine) (op : Channel.Op) (now : ℕ) : Option Machine :=
  if blocks m.mailbox op then (m.queue.deschedule now).map fun r ↦ m.relink r.2 else some m

def enter (m : Machine) (s : State) : Option Machine :=
  let queue := { m.queue with threads := { m.queue.threads with next := s.threadNext } }
  match s.woken[m.mailbox.woken.length]? with
  | some th => (queue.schedule th).map { m with mailbox := s }.relink
  | none => some ({ m with mailbox := s }.relink queue)

def step (m : Machine) : Op → Option Machine
  | .start th =>
    if th ∈ m.started then none
    else (m.queue.schedule th).map fun queue ↦ { m.relink queue with started := th :: m.started }
  | .reschedule now => (m.queue.reschedule now).map m.relink
  | .call op now =>
    if calls m.queue.currentThread op then
      (m.leave op now).bind fun m ↦ (Channel.step m.mailbox op).bind m.enter
    else none

variable {m m' : Machine}

theorem reachable_relink (m : Machine) (q : RunQueue.Instance) :
  Reachable Channel.step Unrestricted m.mailbox (m.relink q).mailbox :=
  .head (.relinkThreads q.threads.next) trivial rfl (.refl ..)

theorem reachable_leave {op : Channel.Op} {no : ℕ} (h : m.leave op no = some m') :
  Reachable Channel.step Unrestricted m.mailbox m'.mailbox := by
  rw [leave] at h
  split at h
  · obtain ⟨r, -, rfl⟩ := Option.map_eq_some_iff.mp h
    exact reachable_relink m r.2
  · cases h
    exact .refl ..

theorem reachable_enter {s : State} (h : m.enter s = some m') :
  Reachable Channel.step Unrestricted s m'.mailbox := by
  simp only [enter] at h
  split at h
  · obtain ⟨q, -, rfl⟩ := Option.map_eq_some_iff.mp h
    exact reachable_relink { m with mailbox := s } q
  · cases h
    exact reachable_relink { m with mailbox := s } _

/-- What the core does to the mailbox is a run of the channel, with the run queue as the one that
changes links. -/
theorem reachable_mailbox (h : Reachable step Unrestricted m m') :
  Reachable Channel.step Unrestricted m.mailbox m'.mailbox := by
  refine h.invariant (I := fun u ↦ Reachable Channel.step Unrestricted m.mailbox u.mailbox)
    (.refl ..) fun u op v hu _ hs ↦ hu.trans ?_
  cases op with
  | start th =>
    rw [step] at hs
    split at hs
    · cases hs
    · obtain ⟨q, -, rfl⟩ := Option.map_eq_some_iff.mp hs
      exact reachable_relink u q
  | reschedule no =>
    obtain ⟨q, -, rfl⟩ := Option.map_eq_some_iff.mp hs
    exact reachable_relink u q
  | call op no =>
    rw [step] at hs
    split at hs
    · obtain ⟨w, hl, hs⟩ := Option.bind_eq_some_iff.mp hs
      obtain ⟨s, hc, he⟩ := Option.bind_eq_some_iff.mp hs
      exact (reachable_leave hl).trans (.head op trivial hc (reachable_enter he))
    · cases hs

end Machine

/-- 1 is picked from a queue of two and keeps its link to 2. It is woken while the queue is empty,
so 2, which waits, is linked into the queue, and the start of 8 overwrites its link to 3. -/
theorem not_exactFifo : ¬ ∀ idle timestamp m,
    Reachable Machine.step Unrestricted (Machine.initial idle timestamp) m →
      ExactFifo m.mailbox := by
  intro h
  have hru : (exec Machine.step (Machine.initial 0 id) [.start 1, .start 2, .reschedule 2,
    .call (.read 1 false) 2, .start 3, .start 4, .call (.read 2 false) 4,
    .call (.read 3 false) 4, .call (.write 4 5 (.user 0)) 4, .start 5, .start 6, .start 7,
    .start 8, .call (.write 4 6 (.user 0)) 8, .call (.write 4 7 (.user 0)) 8]).any (fun m ↦
    m.mailbox.blocked == [1, 2, 3] && m.mailbox.woken == [1, 2, 8]) = true := by
    decide
  obtain ⟨m, hm, hs⟩ := Reachable.of_any hru
  simp only [Bool.and_eq_true, beq_iff_eq] at hs
  have hw := (h _ _ m hm).woken
  rw [hs.1, hs.2] at hw
  exact absurd hw (by decide)

theorem exec_reads (h : Messages s nodes) (hr : s.status th = .running) :
  ∃ t, exec step s (replicate nodes.length (.read th true)) = some t ∧
  t.received = s.pushed ∧ t.pushed = s.pushed := by
  induction nodes generalizing s with
  | nil => exact ⟨s, rfl, by rw [h.pushed, map_nil, append_nil], rfl⟩
  | cons n nodes ih =>
    have he : ¬ s.messageQueue.empty = true := by
      rw [h.messages.empty_iff]
      exact cons_ne_nil _ _
    obtain ⟨q, hp, ho⟩ := h.handOut
    obtain ⟨t, ht, hd⟩ := ih (ho.finish th .ok) hr
    refine ⟨t, ?_, hd⟩
    rw [length_cons, replicate_succ, exec, step, if_pos (by simp [enabled, hr]), run,
      State.freshRead, State.read, if_neg he, hp]
    simpa [finish_outcome] using ht

/-- No message is lost: a thread that reads as often as there are messages in the queue gets all
that were sent and have not been handed out yet, in their order. -/
theorem drains_of_reachable (s : State) (h : Reachable step Unrestricted {} s) (th : Thread)
    (hr : s.status th = .running) :
    ∃ t, exec step s (replicate s.messageQueue.size (.read th true)) = some t ∧
      t.received = s.pushed ∧ t.pushed = s.pushed := by
  obtain ⟨nodes, hq⟩ := h.invariant (I := fun s ↦ ∃ nodes, Messages s nodes)
    ⟨[], messages_initial⟩ fun s op t hq _ hs ↦ by
      obtain ⟨nodes, hq⟩ := hq
      exact hq.step hs
  rw [hq.messages.size]
  exact exec_reads hq hr

theorem drains_message : ∃ s t, exec step {} [.read 1 false, .read 2 false, .send 5 (.user 1),
  .send 6 (.handle 2), .send 7 (.user 3)] = some s ∧
  exec step s [.read 0 true, .read 0 true, .read 0 true] = some t ∧
  t.received = [⟨0, .user 1⟩, ⟨1, .handle 2⟩, ⟨2, .user 3⟩] := by
  have hr : Reachable step Unrestricted {} _ := .of_exec (fun _ _ _ ↦ trivial) (rfl : exec step {}
    [.read 1 false, .read 2 false, .send 5 (.user 1), .send 6 (.handle 2), .send 7 (.user 3)] = _)
  obtain ⟨t, ht, hp, -⟩ := drains_of_reachable _ hr 0 rfl
  exact ⟨_, t, rfl, ht, hp⟩

end ReaverOS.Kernel.Channel
