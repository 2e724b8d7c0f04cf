import ReaverOS.Foundation.LinkedQueue
import ReaverOS.Kernel.TreeHeapPop

namespace ReaverOS.Kernel.RunQueue

open Function

section

structure Fifo where
  head : Option ℕ := none
  tail : Option ℕ := none
  size : ℕ := 0

structure Instance where
  idleThread : ℕ
  currentThread : Option ℕ
  threads : TreeHeap ℕ := {}
  timestamp : ℕ → ℕ := fun _ ↦ 0
  waitingThreads : ℕ → Fifo := fun _ ↦ {}

def compare (timestamp : ℕ → ℕ) (lhs rhs : ℕ) : Bool := timestamp lhs < timestamp rhs

namespace Instance

variable (s : Instance)

def pushThread (thread : ℕ) : Option Instance :=
  (s.threads.push (compare s.timestamp) thread).map fun threads ↦ { s with threads }

def schedule (thread : ℕ) : Option Instance :=
  if s.currentThread = some thread then none else s.pushThread thread

def preempt (now : ℕ) : Option Instance :=
  match s.currentThread with
  | some thread =>
    if thread ≠ s.idleThread then
      { s with timestamp := update s.timestamp thread now, currentThread := none }.pushThread thread
    else some s
  | none => some s

def pick : Option Instance :=
  if s.threads.size ≠ 0 then
    (s.threads.pop (compare s.timestamp)).map fun (thread, threads) ↦
      { s with threads, currentThread := thread }
  else some { s with currentThread := some s.idleThread }

def reschedule (now : ℕ) : Option Instance := (s.preempt now).bind pick

def deschedule (now : ℕ) : Option (ℕ × Instance) :=
  s.currentThread.bind fun thread ↦
    ({ s with
      timestamp := update s.timestamp thread now, currentThread := none }.reschedule now).map
        fun s ↦ (thread, s)

def setWaiting (mailbox : ℕ) (fifo : Fifo) : Instance :=
  { s with waitingThreads := update s.waitingThreads mailbox fifo }

def pushBack (mailbox thread : ℕ) : Option Instance :=
  let fifo := s.waitingThreads mailbox
  match fifo.head with
  | none =>
    some { s.setWaiting mailbox ⟨some thread, some thread, fifo.size + 1⟩ with
      threads := s.threads.setNext thread none }
  | some _ =>
    fifo.tail.map fun tail ↦
      { s.setWaiting mailbox ⟨fifo.head, some thread, fifo.size + 1⟩ with
        threads := (s.threads.setNext tail (some thread)).setNext thread none }

def popFront (mailbox : ℕ) : Option ℕ × Instance :=
  let fifo := s.waitingThreads mailbox
  match fifo.head with
  | none => (none, s)
  | some thread =>
    (some thread, s.setWaiting mailbox ⟨s.threads.next thread, fifo.tail, fifo.size - 1⟩)

end Instance

inductive Op
  | schedule (thread : ℕ)
  | deschedule (now : ℕ)
  | reschedule (now : ℕ)
  | wait (mailbox thread : ℕ)
  | wake (mailbox : ℕ)
  deriving DecidableEq

/-- An instance with a record of the threads that wait to be picked, and of those that wait at a
mailbox. -/
structure Run extends Instance where
  ready : List ℕ := []
  blocked : ℕ → Option ℕ := fun _ ↦ none

def Run.candidates (s : Run) : Op → List ℕ
  | .reschedule _ =>
    match s.currentThread with
    | some thread => if thread ≠ s.idleThread then thread :: s.ready else s.ready
    | none => s.ready
  | _ => s.ready

def leaveOut (current : Option ℕ) (candidates : List ℕ) : List ℕ :=
  match current with
  | some thread => candidates.erase thread
  | none => candidates

def step (s : Run) : Op → Option Run
  | .schedule thread =>
    if thread ∉ s.ready ∧ s.blocked thread = none then
      (s.schedule thread).map fun t ↦
        { s with toInstance := t, ready := thread :: s.ready }
    else none
  | .deschedule now =>
    (s.deschedule now).map fun (_, t) ↦
      { s with toInstance := t, ready := leaveOut t.currentThread (s.candidates (.deschedule now)) }
  | .reschedule now =>
    (s.reschedule now).map fun t ↦
      { s with toInstance := t, ready := leaveOut t.currentThread (s.candidates (.reschedule now)) }
  | .wait mailbox thread =>
    if thread ∉ s.ready ∧ s.blocked thread = none ∧ s.currentThread ≠ some thread then
      (s.pushBack mailbox thread).map fun t ↦
        { s with toInstance := t, blocked := update s.blocked thread (some mailbox) }
    else none
  | .wake mailbox =>
    match s.popFront mailbox with
    | (none, t) => some { s with toInstance := t }
    | (some thread, t) => some { s with toInstance := t, blocked := update s.blocked thread none }

def initial (idle : ℕ) (timestamp : ℕ → ℕ) : Run :=
  { idleThread := idle, currentThread := some idle, timestamp }

open Foundation LinkedQueue BinaryHeap List

theorem strictWeak_compare (timestamp : ℕ → ℕ) : StrictWeak (compare timestamp) := by
  refine ⟨fun a b h ↦ ?_, fun a b c h h' ↦ ?_⟩
  all_goals simp only [compare, decide_eq_true_eq] at *
  all_goals omega

theorem compare_update {timestamp : ℕ → ℕ} {t now : ℕ} {xs : List ℕ} (ht : t ∉ xs) :
  ∀ x ∈ xs, ∀ y ∈ xs, compare (update timestamp t now) x y = compare timestamp x y := by
  intro x hx y hy
  have hne {z : ℕ} (hz : z ∈ xs) : z ≠ t := fun heq ↦ ht (heq ▸ hz)
  rw [compare, compare, update_of_ne (hne hx), update_of_ne (hne hy)]

structure Picks (s : Instance) (pool : List ℕ) (t : Instance) : Prop where
  current : ∃ p, t.currentThread = some p ∧ (pool = [] ∧ p = s.idleThread ∨
    p ∈ pool ∧ ∀ y ∈ pool, t.timestamp p ≤ t.timestamp y)
  valid : t.threads.Valid (compare t.timestamp) (leaveOut t.currentThread pool)
  parents : ∀ y, y ∉ leaveOut t.currentThread pool → t.threads.treeParent y = none
  next : ∀ y, y ∉ pool → t.threads.next y = s.threads.next y
  idle : t.idleThread = s.idleThread
  waiting : t.waitingThreads = s.waitingThreads

theorem pick_spec {s : Instance} {pool : List ℕ} (v : s.threads.Valid (compare s.timestamp) pool)
  (hp : ∀ y, y ∉ pool → s.threads.treeParent y = none) :
  ∃ t, s.pick = some t ∧ Picks s pool t := by
  rw [Instance.pick, v.size]
  rcases eq_or_ne pool [] with rfl | hne
  · exact ⟨_, rfl, ⟨_, rfl, .inl ⟨rfl, rfl⟩⟩, v, hp, fun _ _ ↦ rfl, rfl, rfl⟩
  · obtain ⟨x, h', hpo, hx, hl, hv, hpa, hf⟩ := v.pop (strictWeak_compare s.timestamp) hne
    rw [if_pos (length_eq_zero_iff.not.mpr hne), hpo]
    refine ⟨_, rfl, ⟨x, rfl, .inr ⟨hx, fun y hy ↦ ?_⟩⟩, hv, fun y hy ↦ ?_, fun y hy ↦ ?_, rfl,
      rfl⟩
    · simpa [compare] using hl y hy
    · refine (hf y hy).2.2.trans ?_
      rcases eq_or_ne y x with rfl | hyx
      · exact hpa
      · exact hp y fun hm ↦ hy ((mem_erase_of_ne hyx).mpr hm)
    · exact (hf y fun hm ↦ hy (mem_of_mem_erase hm)).2.1

theorem reschedule_lone {s : Instance} {thread now : ℕ}
  (v : s.threads.Valid (compare s.timestamp) []) (hp : ∀ y, s.threads.treeParent y = none)
  (hc : s.currentThread = some thread) (hi : thread ≠ s.idleThread) :
  ∃ t, s.reschedule now = some t ∧ Picks s [thread] t := by
  have hpu (less : ℕ → ℕ → Bool) : s.threads.push less thread =
      some { s.threads with top := some thread, size := 1 } := by
    rw [TreeHeap.push, v.top_eq_none, v.size]
    rfl
  refine ⟨{ s with
    timestamp := update s.timestamp thread now
    currentThread := some thread
    threads := { s.threads with top := none, size := 0 } }, ?_, ⟨thread, rfl, .inr ⟨?_, ?_⟩⟩, ?_,
    fun y _ ↦ hp y, fun _ _ ↦ rfl, rfl, rfl⟩
  · simp [Instance.reschedule, Instance.preempt, hc, hi, Instance.pushThread, hpu,
      Instance.pick, TreeHeap.pop]
  · exact mem_singleton_self thread
  · intro y hy
    rw [mem_singleton.mp hy]
  · simp only [leaveOut, erase_cons_head]
    exact TreeHeap.valid_nil rfl rfl thread

structure Waits (next : ℕ → Option ℕ) (fifos : ℕ → Fifo) (blocked : ℕ → Option ℕ)
  (q : ℕ → List ℕ) : Prop where
  represents : ∀ m, Represents next (fifos m).head (fifos m).tail (q m)
  ends : ∀ m, Terminated next (q m)
  nodup : ∀ m, (q m).Nodup
  mem : ∀ m t, t ∈ q m ↔ blocked t = some m

variable {next : ℕ → Option ℕ} {fifos : ℕ → Fifo} {blocked : ℕ → Option ℕ} {q : ℕ → List ℕ}
  {mailbox thread : ℕ}

theorem Waits.congr {next' : ℕ → Option ℕ} (h : Waits next fifos blocked q)
  (hn : ∀ t, blocked t ≠ none → next' t = next t) : Waits next' fifos blocked q := by
  have hq (m t : ℕ) (ht : t ∈ q m) : next' t = next t := hn t (by simp [(h.mem m t).mp ht])
  exact ⟨fun m ↦ (h.represents m).congr (hq m), fun m ↦ (h.ends m).congr (hq m), h.nodup, h.mem⟩

theorem Waits.notMem (h : Waits next fifos blocked q) (ht : blocked thread = none) (m : ℕ) :
  thread ∉ q m := by
  rw [h.mem, ht]
  exact Option.some_ne_none m ∘ Eq.symm

theorem Waits.join {next' : ℕ → Option ℕ} (h : Waits next fifos blocked q) (fifo : Fifo)
  (hth : blocked thread = none)
  (hr : Represents next' fifo.head fifo.tail (q mailbox ++ [thread]))
  (he : next' thread = none) (hn : ∀ m ≠ mailbox, ∀ t ∈ q m, next' t = next t) :
  Waits next' (update fifos mailbox fifo) (update blocked thread (some mailbox))
  (update q mailbox (q mailbox ++ [thread])) := by
  refine ⟨fun m ↦ ?_, fun m ↦ ?_, fun m ↦ ?_, fun m t ↦ ?_⟩
  all_goals rcases eq_or_ne m mailbox with rfl | hm
  · simpa only [update_self] using hr
  · simpa only [update_of_ne hm] using (h.represents m).congr (hn m hm)
  · simpa only [update_self] using Terminated.concat _ he
  · simpa only [update_of_ne hm] using (h.ends m).congr (hn m hm)
  · rw [update_self]
    exact concat_eq_append ▸ List.Nodup.concat (h.notMem hth m) (h.nodup m)
  · rw [update_of_ne hm]
    exact h.nodup m
  · rw [update_self, mem_append, mem_singleton, h.mem]
    rcases eq_or_ne t thread with rfl | ht
    · simp
    · simp [ht]
  · rw [update_of_ne hm, h.mem]
    rcases eq_or_ne t thread with rfl | ht
    · simp [hth, hm.symm]
    · rw [update_of_ne ht]

theorem Waits.push_empty (h : Waits next fifos blocked q) (hth : blocked thread = none)
  (hh : (fifos mailbox).head = none) (size : ℕ) :
  Waits (update next thread none) (update fifos mailbox ⟨some thread, some thread, size⟩)
  (update blocked thread (some mailbox)) (update q mailbox (q mailbox ++ [thread])) := by
  have hr := h.represents mailbox
  rw [hh] at hr
  refine h.join _ hth ?_ (update_self ..) fun m _ t ht ↦ update_of_ne ?_ ..
  · rw [hr.eq_nil]
    exact represents_singleton _ _
  · rintro rfl
    exact h.notMem hth m ht

theorem Waits.push {first last : ℕ} (h : Waits next fifos blocked q)
  (hth : blocked thread = none) (hh : (fifos mailbox).head = some first)
  (hta : (fifos mailbox).tail = some last) (size : ℕ) : blocked last = some mailbox ∧
  Waits (update (update next last (some thread)) thread none)
  (update fifos mailbox ⟨(fifos mailbox).head, some thread, size⟩)
  (update blocked thread (some mailbox)) (update q mailbox (q mailbox ++ [thread])) := by
  have hr := h.represents mailbox
  have hn : q mailbox ≠ [] := by
    rw [hh] at hr
    obtain ⟨rest, hc⟩ := hr.eq_cons
    exact hc ▸ cons_ne_nil _ _
  have hl : last ∈ q mailbox := mem_of_getLast? ((hr.tail_eq hn).symm.trans hta)
  have hb := (h.mem mailbox last).mp hl
  have hne : last ≠ thread := by
    rintro rfl
    exact h.notMem hth mailbox hl
  refine ⟨hb, h.join _ hth ?_ (update_self ..) fun m hm t ht ↦ ?_⟩
  · rw [hta] at hr
    rw [update_comm hne]
    exact (hr.frame (h.notMem hth mailbox) none).push hn (h.nodup mailbox)
  · have ht' := (h.mem m t).mp ht
    rw [update_of_ne, update_of_ne]
    · rintro rfl
      exact hm (Option.some.inj (ht'.symm.trans hb))
    · rintro rfl
      exact h.notMem hth m ht

theorem Waits.pop (h : Waits next fifos blocked q) (hh : (fifos mailbox).head = some thread)
  (size : ℕ) : Waits next (update fifos mailbox ⟨next thread, (fifos mailbox).tail, size⟩)
  (update blocked thread none) (update q mailbox (q mailbox).tail) := by
  have hr := h.represents mailbox
  rw [hh] at hr
  obtain ⟨rest, hc⟩ := hr.eq_cons
  have hn := h.nodup mailbox
  have he := h.ends mailbox
  rw [hc] at hr hn he ⊢
  refine ⟨fun m ↦ ?_, fun m ↦ ?_, fun m ↦ ?_, fun m t ↦ ?_⟩
  all_goals rcases eq_or_ne m mailbox with rfl | hm
  · simp only [update_self]
    refine hr.pop fun hni ↦ he thread ?_
    rw [hni]
    rfl
  · simpa only [update_of_ne hm] using h.represents m
  · simpa only [update_self, tail_cons] using he.pop
  · simpa only [update_of_ne hm] using h.ends m
  · simpa only [update_self, tail_cons] using (nodup_cons.mp hn).2
  · simpa only [update_of_ne hm] using h.nodup m
  · have hme := h.mem m t
    rw [hc, mem_cons] at hme
    rw [update_self, tail_cons]
    rcases eq_or_ne t thread with rfl | ht
    · simp [(nodup_cons.mp hn).1]
    · rw [update_of_ne ht, ← hme, or_iff_right ht]
  · rw [update_of_ne hm, h.mem]
    rcases eq_or_ne t thread with rfl | ht
    · have hb := (h.mem mailbox t).mp (hc ▸ mem_cons_self)
      simp [hb, hm.symm]
    · rw [update_of_ne ht]

end

open Foundation LinkedQueue Runs List

structure Inv (s : Run) (q : ℕ → List ℕ) : Prop where
  valid : s.threads.Valid (compare s.timestamp) s.ready
  parents : ∀ t, t ∉ s.ready → s.threads.treeParent t = none
  current : ∃ t, s.currentThread = some t ∧ t ∉ s.ready ∧ (t ≠ s.idleThread → s.blocked t = none)
  waits : Waits s.threads.next s.waitingThreads s.blocked q
  apart : ∀ t ∈ s.ready, s.blocked t = none

variable {s t : Run} {q : ℕ → List ℕ} {now thread : ℕ}

theorem Inv.retime (h : Inv s q) (ht : thread ∉ s.ready) (now : ℕ) :
  s.threads.Valid (compare (update s.timestamp thread now)) s.ready :=
  h.valid.congr rfl rfl (fun _ _ ↦ ⟨rfl, rfl, rfl⟩) (compare_update ht)

theorem Inv.reschedule (h : Inv s q) (now : ℕ) : ∃ t, s.reschedule now = some t ∧
  Picks s.toInstance (s.candidates (.reschedule now)) t := by
  obtain ⟨thread, hc, ht, -⟩ := h.current
  by_cases hi : thread = s.idleThread
  · have hpo : s.candidates (.reschedule now) = s.ready := by
      simp [Run.candidates, hc, hi]
    rw [hpo, Instance.reschedule, Instance.preempt, hc]
    simp only [hi, ne_eq, not_true_eq_false, if_false, Option.bind_some]
    exact pick_spec h.valid h.parents
  · have hpo : s.candidates (.reschedule now) = thread :: s.ready := by
      simp [Run.candidates, hc, hi]
    rw [hpo]
    rcases eq_or_ne s.ready [] with hn | hne
    · rw [hn]
      exact reschedule_lone (hn ▸ h.valid) (fun y ↦ h.parents y (by simp [hn])) hc hi
    · obtain ⟨threads, hpu, hv, hf⟩ := (h.retime ht now).push
        (strictWeak_compare _) ht fun hn ↦ absurd hn hne
      have hpr : s.preempt now = some { s.toInstance with
          timestamp := update s.timestamp thread now, currentThread := none, threads } := by
        simp [Instance.preempt, hc, hi, Instance.pushThread, hpu]
      rw [Instance.reschedule, hpr, Option.bind_some]
      obtain ⟨t, hpi, hp⟩ := pick_spec (s := { s.toInstance with
        timestamp := update s.timestamp thread now, currentThread := none, threads }) hv
        fun y hy ↦ (hf y hy).2.2.trans (h.parents y fun hm ↦ hy (mem_cons_of_mem _ hm))
      exact ⟨t, hpi, hp.current, hp.valid, hp.parents,
        fun y hy ↦ (hp.next y hy).trans (hf y hy).2.1, hp.idle, hp.waiting⟩

theorem Inv.deschedule (h : Inv s q) (now : ℕ) : ∃ thread t, s.deschedule now = some (thread, t) ∧
  Picks s.toInstance (s.candidates (.deschedule now)) t := by
  obtain ⟨thread, hc, ht, -⟩ := h.current
  obtain ⟨t, hpi, hp⟩ := pick_spec (s := { s.toInstance with
    timestamp := update s.timestamp thread now, currentThread := none }) (h.retime ht now) h.parents
  refine ⟨thread, t, ?_, hp.current, hp.valid, hp.parents, hp.next, hp.idle, hp.waiting⟩
  simp [Instance.deschedule, hc, Instance.reschedule, Instance.preempt, hpi]

theorem Inv.of_picks {u : Instance} {pool : List ℕ} (h : Inv s q) (hpi : Picks s.toInstance pool u)
  (hpo : ∀ y ∈ pool, s.blocked y = none) (hn : pool.Nodup) :
  Inv { s with toInstance := u, ready := leaveOut u.currentThread pool } q := by
  obtain ⟨p, hp, hw⟩ := hpi.current
  have hs (y : ℕ) (hy : y ∈ leaveOut u.currentThread pool) : y ∈ pool := by
    rw [hp] at hy
    exact mem_of_mem_erase hy
  refine ⟨hpi.valid, hpi.parents, ⟨p, hp, ?_, ?_⟩, ?_, fun y hy ↦ hpo y (hs y hy)⟩
  · rw [hp]
    exact hn.not_mem_erase
  · rintro hi
    rcases hw with ⟨-, rfl⟩ | ⟨hm, -⟩
    · exact absurd hpi.idle.symm hi
    · exact hpo p hm
  · have hwa : Waits u.threads.next s.waitingThreads s.blocked q :=
      h.waits.congr fun y hy ↦ hpi.next y fun hm ↦ hy (hpo y hm)
    exact hpi.waiting ▸ hwa

theorem Inv.candidates (h : Inv s q) (op : Op) :
  (∀ y ∈ s.candidates op, s.blocked y = none) ∧ (s.candidates op).Nodup := by
  obtain ⟨thread, hc, ht, hb⟩ := h.current
  have hr : (∀ y ∈ s.ready, s.blocked y = none) ∧ s.ready.Nodup := ⟨h.apart, h.valid.nodup⟩
  cases op with
  | reschedule now =>
    by_cases hi : thread = s.idleThread
    · simpa [Run.candidates, hc, hi] using hr
    · simpa [Run.candidates, hc, hi, ht, hb hi] using hr
  | _ => exact hr

def Unlinked (s : Run) : Op → Prop
  | .schedule thread => s.threads.top = none →
    s.threads.prev thread = none ∧ s.threads.next thread = none
  | _ => True

theorem Inv.schedule (h : Inv s q) (hr : thread ∉ s.ready) (hb : s.blocked thread = none)
  (hcu : s.currentThread ≠ some thread) (hl : Unlinked s (.schedule thread)) :
  ∃ t, step s (.schedule thread) = some t ∧ Inv t q := by
  obtain ⟨threads, hp, hv, hf⟩ := h.valid.push (strictWeak_compare _) hr fun hni ↦ by
    obtain ⟨hpr, hn⟩ := hl (TreeHeap.Valid.top_eq_none (hni ▸ h.valid))
    exact ⟨hpr, hn, h.parents thread hr⟩
  obtain ⟨c, hc, hcr, hcb⟩ := h.current
  refine ⟨{ s with threads, ready := thread :: s.ready }, ?_, hv, fun y hy ↦ ?_,
    ⟨c, hc, ?_, hcb⟩, h.waits.congr fun y hy ↦ ?_, ?_⟩
  · simp [step, hr, hb, Instance.schedule, hcu, Instance.pushThread, hp]
  · exact (hf y hy).2.2.trans (h.parents y fun hm ↦ hy (mem_cons_of_mem _ hm))
  · rintro (_ | ⟨_, hm⟩)
    · exact hcu hc
    · exact hcr hm
  · refine (hf y ?_).2.1
    rintro (_ | ⟨_, hm⟩)
    · exact hy hb
    · exact hy (h.apart y hm)
  · intro y hy
    rcases mem_cons.mp hy with rfl | hm
    · exact hb
    · exact h.apart y hm

theorem Inv.of_waits {next' : ℕ → Option ℕ} {fifos : ℕ → Fifo} {blocked : ℕ → Option ℕ}
  {q' : ℕ → List ℕ} (h : Inv s q) (hw : Waits next' fifos blocked q')
  (hr : ∀ y ∈ s.ready, blocked y = none ∧ next' y = s.threads.next y)
  (hcu : ∀ y, s.currentThread = some y → s.blocked y = none → blocked y = none) : Inv { s with
    threads := { s.threads with next := next' }
    waitingThreads := fifos
    blocked } q' := by
  obtain ⟨c, hc, hcr, hcb⟩ := h.current
  exact ⟨h.valid.congr rfl rfl (fun y hy ↦ ⟨rfl, (hr y hy).2, rfl⟩) fun _ _ _ _ ↦ rfl,
    h.parents, ⟨c, hc, hcr, fun hi ↦ hcu c hc (hcb hi)⟩, hw, fun y hy ↦ (hr y hy).1⟩

theorem Inv.wait {mailbox : ℕ} (h : Inv s q) (hs : step s (.wait mailbox thread) = some t) :
  ∃ q', Inv t q' := by
  rw [step] at hs
  split at hs
  next hg =>
    obtain ⟨hr, hb, hc⟩ := hg
    have hb' {y : ℕ} (hy : y ≠ thread) :
        update s.blocked thread (some mailbox) y = s.blocked y := update_of_ne hy ..
    have hne {y : ℕ} (hy : y ∈ s.ready) : y ≠ thread := by
      rintro rfl
      exact hr hy
    have hc' (y : ℕ) (hy : s.currentThread = some y) (hn : s.blocked y = none) :
        update s.blocked thread (some mailbox) y = none :=
      (hb' fun heq ↦ hc (heq ▸ hy)).trans hn
    obtain ⟨u, hp, rfl⟩ := Option.map_eq_some_iff.mp hs
    rw [Instance.pushBack] at hp
    split at hp
    next hh =>
      cases hp
      exact ⟨_, h.of_waits (h.waits.push_empty hb hh _) (fun y hy ↦
        ⟨(hb' (hne hy)).trans (h.apart y hy), update_of_ne (hne hy) ..⟩) hc'⟩
    next first hh =>
      obtain ⟨last, ht, rfl⟩ := Option.map_eq_some_iff.mp hp
      obtain ⟨hl, hw⟩ := h.waits.push hb hh ht ((s.waitingThreads mailbox).size + 1)
      refine ⟨_, h.of_waits hw (fun y hy ↦ ⟨(hb' (hne hy)).trans (h.apart y hy), ?_⟩) hc'⟩
      have hne' : y ≠ last := by
        rintro rfl
        cases hl.symm.trans (h.apart y hy)
      exact (update_of_ne (hne hy) ..).trans (update_of_ne hne' ..)
  next => cases hs

theorem Inv.wake {mailbox : ℕ} (h : Inv s q) (hs : step s (.wake mailbox) = some t) :
  ∃ q', Inv t q' := by
  rw [step, Instance.popFront] at hs
  cases hh : (s.waitingThreads mailbox).head with
  | none =>
    simp only [hh] at hs
    cases hs
    exact ⟨q, h⟩
  | some thread =>
    simp only [hh] at hs
    cases hs
    have hn (y : ℕ) (hy : s.blocked y = none) : update s.blocked thread none y = none := by
      rcases eq_or_ne y thread with rfl | hne
      · exact update_self ..
      · rwa [update_of_ne hne]
    exact ⟨_, h.of_waits (h.waits.pop hh _) (fun y hy ↦ ⟨hn y (h.apart y hy), rfl⟩) fun y _ ↦ hn y⟩

theorem inv_initial (idle : ℕ) (timestamp : ℕ → ℕ) : Inv (initial idle timestamp) fun _ ↦ [] := by
  refine ⟨TreeHeap.valid_nil rfl rfl idle, fun _ _ ↦ rfl, ⟨idle, rfl, not_mem_nil, fun _ ↦ rfl⟩,
    ⟨fun _ ↦ represents_nil _ _, ?_, fun _ ↦ nodup_nil, fun _ _ ↦ ⟨?_, ?_⟩⟩, ?_⟩
  · intro m x hx
    cases hx
  · exact fun h ↦ absurd h not_mem_nil
  · intro h
    cases h
  · exact fun _ h ↦ absurd h not_mem_nil

theorem schedule_guard (hs : step s (.schedule thread) = some t) :
  thread ∉ s.ready ∧ s.blocked thread = none ∧ s.currentThread ≠ some thread := by
  rw [step] at hs
  split at hs
  next hg =>
    refine ⟨hg.1, hg.2, fun hc ↦ ?_⟩
    rw [Instance.schedule, if_pos hc] at hs
    cases hs
  next => cases hs

theorem Inv.step {op : Op} (h : Inv s q) (hl : Unlinked s op) (hs : step s op = some t) :
  ∃ q', Inv t q' := by
  cases op with
  | schedule thread =>
    obtain ⟨hr, hb, hc⟩ := schedule_guard hs
    obtain ⟨t', hs', ht'⟩ := h.schedule hr hb hc hl
    cases hs.symm.trans hs'
    exact ⟨q, ht'⟩
  | deschedule now =>
    obtain ⟨thread, u, hu, hp⟩ := h.deschedule now
    obtain ⟨hb, hn⟩ := h.candidates (.deschedule now)
    simp only [RunQueue.step, hu, Option.map_some] at hs
    cases hs
    exact ⟨q, h.of_picks hp hb hn⟩
  | reschedule now =>
    obtain ⟨u, hu, hp⟩ := h.reschedule now
    obtain ⟨hb, hn⟩ := h.candidates (.reschedule now)
    simp only [RunQueue.step, hu, Option.map_some] at hs
    cases hs
    exact ⟨q, h.of_picks hp hb hn⟩
  | wait mailbox thread => exact h.wait hs
  | wake mailbox => exact h.wake hs

structure Conserved (s : Run) : Prop where
  nodup : s.ready.Nodup
  size : s.threads.size = s.ready.length
  once : ∀ thread ∈ s.ready, ∃! path, s.threads.follow path = some thread
  only : ∀ path thread, s.threads.follow path = some thread → thread ∈ s.ready

/-- A step picks an earliest one of the threads it can pick from, and the idle thread only if there
is none. -/
def PicksEarliest (s : Run) (op : Op) (t : Run) : Prop :=
  ∃ thread, t.currentThread = some thread ∧
    (s.candidates op = [] ∧ thread = s.idleThread ∨
      thread ∈ s.candidates op ∧ ∀ y ∈ s.candidates op, t.timestamp thread ≤ t.timestamp y)

structure Serves (s : Run) : Prop where
  schedule : ∀ thread, thread ∉ s.ready → s.blocked thread = none →
    s.currentThread ≠ some thread → Unlinked s (.schedule thread) →
    (step s (.schedule thread)).isSome
  deschedule : ∀ now, ∃ t, step s (.deschedule now) = some t ∧ PicksEarliest s (.deschedule now) t
  reschedule : ∀ now, ∃ t, step s (.reschedule now) = some t ∧ PicksEarliest s (.reschedule now) t

theorem Inv.conserved (h : Inv s q) : Conserved s :=
  ⟨h.valid.nodup, h.valid.size, h.valid.follow.1, h.valid.follow.2⟩

theorem Inv.serves (h : Inv s q) : Serves s := by
  refine ⟨fun thread hr hb hc hl ↦ ?_, fun now ↦ ?_, fun now ↦ ?_⟩
  · obtain ⟨t, hs, -⟩ := h.schedule hr hb hc hl
    rw [hs]
    rfl
  · obtain ⟨thread, u, hu, hp⟩ := h.deschedule now
    simp only [RunQueue.step, hu, Option.map_some]
    exact ⟨_, rfl, hp.current⟩
  · obtain ⟨u, hu, hp⟩ := h.reschedule now
    simp only [RunQueue.step, hu, Option.map_some]
    exact ⟨_, rfl, hp.current⟩

theorem conserved_of_unlinked (idle : ℕ) (timestamp : ℕ → ℕ) (s : Run)
    (h : Reachable step Unlinked (initial idle timestamp) s) : Conserved s ∧ Serves s := by
  obtain ⟨q, hq⟩ := h.invariant (I := fun s ↦ ∃ q, Inv s q) ⟨_, inv_initial idle timestamp⟩
    fun _ _ _ ⟨_, hq⟩ hl hs ↦ hq.step hl hs
  exact ⟨hq.conserved, hq.serves⟩

theorem conserved_twoThreads :
  ∃ s, exec step (initial 0 id) [.schedule 1, .schedule 2, .reschedule 3] = some s ∧
  Conserved s ∧ Serves s := by
  refine ⟨_, rfl, conserved_of_unlinked 0 id _ ?_⟩
  refine Reachable.head (.schedule 1) (fun _ ↦ ⟨rfl, rfl⟩) rfl ?_
  refine Reachable.head (.schedule 2) (fun _ ↦ ⟨rfl, rfl⟩) rfl ?_
  exact Reachable.head (.reschedule 3) trivial rfl (Reachable.refl ..)

theorem not_conserved :
    ¬ ∀ idle timestamp s, Reachable step Unrestricted (initial idle timestamp) s → Conserved s := by
  intro h
  have hru : (exec step (initial 0 fun _ ↦ 0) [.schedule 1, .schedule 2, .reschedule 1,
      .deschedule 2, .schedule 1]).any
        (fun s ↦ s.threads.follow [false] = some 2 ∧ s.ready = [1]) := by
    decide
  obtain ⟨s, hs, hst⟩ := Reachable.of_any hru
  obtain ⟨hf, hr⟩ := of_decide_eq_true hst
  have hm := (h _ _ s hs).only _ _ hf
  rw [hr] at hm
  exact absurd hm (by decide)

end ReaverOS.Kernel.RunQueue
