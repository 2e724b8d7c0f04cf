import ReaverOS.Kernel.Mailbox

namespace ReaverOS.Kernel.Mailbox

open Function Foundation.Runs Option

def Outcome.Finished : Outcome → Prop
  | .blocked => False
  | .returned result message => result = .ok ↔ message.isSome

def State.Finished (s : State) (t : Thread) : Prop :=
  ∀ outcome, s.outcome t = some outcome → outcome.Finished

def Pc.reads : Pc → Option Thread
  | .parking (.fresh _) thread => some thread
  | .parked (.fresh _) thread => some thread
  | _ => none

def State.Waits (s : State) (t : Thread) : Prop :=
  s.continuation t = true ∨ ∃ core, (s.pc core).reads = some t

def Pc.Sound (s : State) (core : ℕ) : Pc → Prop
  | .user => s.Finished (s.current core)
  | .reading (.fresh _) => s.lock = some core ∧ s.Finished (s.current core)
  | .reading .resumed => s.lock = some core ∧ s.messageQueue ≠ []
  | .parking (.fresh _) _ => s.lock = some core
  | .parking .resumed _ | .parked .resumed _ => False
  | .writing | .waking | .unlocking => s.lock = some core ∧ s.Finished (s.current core)
  | _ => True

structure Reads (s : State) : Prop where
  sound : ∀ core, (s.pc core).Sound s core
  waits : ∀ t, ¬ s.Finished t → s.Waits t

variable {s s' : State} {l : Thread → Option Place} {core d : ℕ} {t nx : Thread} {pc : Pc}

theorem Pc.reads_saving (h : pc.reads = some t) : pc.saving = some t := by
  rcases pc with _ | _ | ⟨_ | _⟩ | ⟨_ | _⟩ <;> first | exact h | cases h

theorem Pc.Sound.frame (h : pc.Sound s core) (hc : s'.current core = s.current core)
  (hf : s.Finished (s.current core) → s'.Finished (s.current core))
  (hl : s.lock = some core → s'.lock = s.lock ∧ s'.messageQueue = s.messageQueue) :
  pc.Sound s' core := by
  rw [← hc] at hf
  rcases pc with _ | ⟨_ | _⟩ | ⟨_ | _⟩ | ⟨_ | _⟩ <;>
    simp only [Pc.Sound, hc] at h hf ⊢ <;> grind

theorem Reads.advance (h : Reads s) (pc : Pc) (hp : s'.pc = update s.pc core pc)
  (hc : ∀ c ≠ core, s'.current c = s.current c)
  (hf : ∀ c ≠ core, s'.outcome (s.current c) = s.outcome (s.current c))
  (hl : (∀ c ≠ core, s.lock ≠ some c) ∨ s'.lock = s.lock ∧ s'.messageQueue = s.messageQueue)
  (hs : pc.Sound s' core) (hw : ∀ t, ¬ s'.Finished t → s'.Waits t) : Reads s' := by
  refine ⟨fun c ↦ ?_, hw⟩
  rw [hp]
  rcases eq_or_ne c core with rfl | hne
  · rwa [update_self]
  · rw [update_of_ne hne]
    refine (h.sound c).frame (hc c hne) (fun ho ↦ ?_) fun hh ↦ ?_
    · rwa [State.Finished, hf c hne]
    · rcases hl with hl | hl
      · exact absurd hh (hl c hne)
      · exact hl

theorem State.Waits.advance (h : s.Waits t) (pc : Pc) (hp : s'.pc = update s.pc core pc)
  (hc : s.continuation t = true → s'.continuation t = true)
  (hr : (s.pc core).reads = some t → s'.continuation t = true ∨ pc.reads = some t) :
  s'.Waits t := by
  rcases h with ho | ⟨c, ho⟩
  · exact .inl (hc ho)
  · rcases eq_or_ne c core with rfl | hne
    · refine (hr ho).imp_right fun hn ↦ ⟨c, ?_⟩
      rwa [hp, update_self]
    · refine .inr ⟨c, ?_⟩
      rwa [hp, update_of_ne hne]

theorem Reads.quiet (h : Reads s) (pc : Pc) (hp : s'.pc = update s.pc core pc)
  (hcu : ∀ c ≠ core, s'.current c = s.current c) (ho : s'.outcome = s.outcome)
  (hco : s'.continuation = s.continuation)
  (hl : (∀ c ≠ core, s.lock ≠ some c) ∨ s'.lock = s.lock ∧ s'.messageQueue = s.messageQueue)
  (hre : (s.pc core).reads = pc.reads) (hs : pc.Sound s' core) : Reads s' := by
  refine h.advance pc hp hcu (fun c _ ↦ by rw [ho]) hl hs fun t ht ↦ ?_
  have hol : s.Waits t := h.waits t fun hf ↦ ht (by rwa [State.Finished, ho])
  exact hol.advance pc hp (fun hc ↦ by rwa [hco]) fun hr ↦ .inr (hre ▸ hr)

theorem Reads.finish (h : Reads s) (hi : Inv s l) (ou : Outcome)
  (hp : s'.pc = update s.pc core .user) (hcu : s'.current = s.current)
  (hou : s'.outcome = update s.outcome (s.current core) (some ou))
  (hco : ∀ t ≠ s.current core, s'.continuation t = s.continuation t)
  (hl : (∀ c ≠ core, s.lock ≠ some c) ∨ s'.lock = s.lock ∧ s'.messageQueue = s.messageQueue)
  (hre : (s.pc core).reads = none) (hfi : ou.Finished) : Reads s' := by
  have hd : s'.Finished (s.current core) := by
    intro o ho
    rw [hou, update_self] at ho
    cases ho
    exact hfi
  have hot {t : Thread} (ht : t ≠ s.current core) : s'.outcome t = s.outcome t := by
    rw [hou, update_of_ne ht]
  refine h.advance .user hp (fun c _ ↦ congrFun hcu c) (fun c hc ↦ ?_) hl ?_ fun t ht ↦ ?_
  · exact hot (hi.located.current_ne hc)
  · rwa [Pc.Sound, hcu]
  · have hne : t ≠ s.current core := by
      rintro rfl
      exact ht hd
    have hol : s.Waits t := h.waits t fun hf ↦ ht (by rwa [State.Finished, hot hne])
    refine hol.advance .user hp (fun hc ↦ ?_) fun hr ↦ ?_
    · rwa [hco t hne]
    · cases hre.symm.trans hr

theorem lock_ne (h : s.lock = none ∨ s.lock = some core) (c : ℕ) (hn : c ≠ core) :
  s.lock ≠ some c := by
  rintro hc
  rcases h with h | h
  · cases h.symm.trans hc
  · cases h.symm.trans hc
    exact hn rfl

theorem Reads.at (h : Reads s) (hp : s.pc core = pc) : pc.Sound s core := hp ▸ h.sound core

theorem Reads.receive (h : Reads s) (hi : Inv s l) (hst : s.receive core = some s') :
  Reads s' := by
  obtain ⟨p, r, m, xs, hp, hf, rfl⟩ := receive_eq_some hst
  have hh : s.lock = some core := by
    have hs := h.at hp
    cases p <;> exact hs.1
  have hl := lock_ne (.inr hh)
  have hr : (s.pc core).reads = none := by rw [hp]; rfl
  cases p with
  | fresh po =>
    exact h.finish hi _ rfl rfl rfl (fun _ _ ↦ rfl) (.inl hl) hr hf
  | resumed =>
    exact h.finish hi _ rfl rfl rfl (fun t ht ↦ update_of_ne ht ..) (.inl hl) hr hf

theorem Reads.park (h : Reads s) (hi : Inv s l) (hs : s.park core nx = some s') :
  Reads s' := by
  obtain ⟨p, hpc, he, hp⟩ := park_eq_some hs
  obtain ⟨-, rfl⟩ := pick_eq_some hp
  cases p with
  | resumed => exact absurd he (h.at hpc).2
  | fresh po =>
    have hot {t : Thread} (ht : t ≠ s.current core) :
      update s.outcome (s.current core) (some .blocked) t = s.outcome t := update_of_ne ht ..
    refine h.advance (.parking (.fresh po) (s.current core)) rfl (fun c hc ↦ update_of_ne hc ..)
      (fun c hc ↦ hot (hi.located.current_ne hc)) (.inr ⟨rfl, rfl⟩) (h.at hpc).1 fun t ht ↦ ?_
    rcases eq_or_ne t (s.current core) with rfl | hne
    · exact .inr ⟨core, by simp only [State.goto, update_self, Pc.reads]⟩
    · have hol : s.Waits t := h.waits t fun hf ↦ ht fun o ho ↦ hf o ((hot hne).symm.trans ho)
      refine hol.advance (.parking (.fresh po) (s.current core)) rfl id fun hr ↦ ?_
      rw [hpc] at hr
      cases hr

theorem Reads.enqueue (h : Reads s) (hst : s.enqueue core = some s') : Reads s' := by
  obtain ⟨p, t, hp, rfl⟩ := enqueue_eq_some hst
  have hs := h.at hp
  cases p with
  | resumed => exact hs.elim
  | fresh po =>
    exact h.quiet (.parked (.fresh po) t) rfl (fun _ _ ↦ rfl) rfl rfl (.inl (lock_ne (.inr hs)))
      (by rw [hp]; rfl) trivial

theorem Reads.setContinuation (h : Reads s) (hs : s.setContinuation core = some s') :
  Reads s' := by
  obtain ⟨p, t, hp, rfl⟩ := setContinuation_eq_some hs
  refine h.advance (.suspending t) rfl (fun _ _ ↦ rfl) (fun _ _ ↦ rfl) (.inr ⟨rfl, rfl⟩) trivial
    fun t' ht' ↦ (h.waits t' ht').advance (.suspending t) rfl (fun ho ↦ ?_) fun hr ↦ .inl ?_
  · rcases eq_or_ne t' t with rfl | hne
    · exact update_self ..
    · exact (update_of_ne hne ..).trans ho
  · rw [hp] at hr
    cases hr
    exact update_self ..

theorem Reads.invoke {v : Bool} (h : Reads s) (hi : Inv s l)
  (hs : v = true → s.continuation (s.current core) = true → s.messageQueue ≠ [])
  (hst : s.invoke core v = some s') : Reads s' := by
  obtain ⟨hp, hca⟩ := invoke_eq_some hst
  have hr : (s.pc core).reads = none := by rw [hp]; rfl
  rcases hca with ⟨hc, rfl⟩ | ⟨-, -, rfl⟩ | ⟨hc, hv, hf, rfl⟩
  · refine h.quiet .user rfl (fun _ _ ↦ rfl) rfl rfl (.inr ⟨rfl, rfl⟩) hr ?_
    -- The thread is not waiting for a message: it has no continuation, and it has been saved.
    by_contra hb
    rcases h.waits _ hb with hw | ⟨c, hw⟩
    · cases hc.symm.trans hw
    · exact hi.resumable core hp c (Pc.reads_saving hw)
  · exact h.finish hi _ rfl rfl rfl (fun t ht ↦ update_of_ne ht ..) (.inr ⟨rfl, rfl⟩) hr
      (by simp [Outcome.Finished])
  · exact h.quiet (.reading .resumed) rfl (fun _ _ ↦ rfl) rfl rfl (.inl (lock_ne (.inl hf)))
      hr ⟨rfl, hs hv hc⟩

theorem Reads.wake (h : Reads s) (hst : s.wake core d = some s') : Reads s' := by
  obtain ⟨hp, ⟨-, rfl⟩ | ⟨t, xs, -, hs⟩⟩ := wake_eq_some hst
  · exact h.quiet .unlocking rfl (fun _ _ ↦ rfl) rfl rfl (.inr ⟨rfl, rfl⟩) (by rw [hp]; rfl)
      (h.at hp)
  · obtain ⟨-, rfl⟩ := schedule_eq_some hs
    exact h.quiet .unlocking rfl (fun _ _ ↦ rfl) rfl rfl (.inr ⟨rfl, rfl⟩) (by rw [hp]; rfl)
      (h.at hp)

theorem Reads.preempt (h : Reads s) (hs : s.preempt core nx = some s') : Reads s' := by
  obtain ⟨hpc, hca⟩ := preempt_eq_some hs
  have hr : (s.pc core).reads = none := by rw [hpc]; rfl
  obtain ⟨r, hy⟩ := s.yield_eq core
  rw [hy] at hca
  rcases hca with ⟨rfl, hp⟩ | ⟨-, hp⟩
  · obtain ⟨-, rfl⟩ := pick_eq_some hp
    have hps : s.pc = update s.pc core .user := by rw [← hpc, update_eq_self]
    have hcu : update s.current core (s.current core) = s.current := update_eq_self ..
    refine h.quiet .user hps (fun c _ ↦ congrFun hcu c) rfl rfl (.inr ⟨rfl, rfl⟩) hr ?_
    simp only [Pc.Sound, hcu]
    exact h.at hpc
  · obtain ⟨-, rfl⟩ := pick_eq_some hp
    exact h.quiet (.suspending (s.current core)) rfl (fun c hc ↦ update_of_ne hc ..) rfl rfl
      (.inr ⟨rfl, rfl⟩) hr trivial

theorem Reads.refuse {r : Result} (h : Reads s) (hi : Inv s l) (hc : s.Calls core)
  (hr : r ≠ .ok) : Reads (s.setOutcome (s.current core) (.returned r none)) := by
  have hp : s.pc = update s.pc core .user := by rw [← hc.1, update_eq_self]
  exact h.finish hi _ hp rfl rfl (fun _ _ ↦ rfl) (.inr ⟨rfl, rfl⟩) (by rw [hc.1]; rfl)
    (by simp [Outcome.Finished, hr])

/-- No unsaved thread is scheduled on another core, and a continuation is run only when there is a
message for it. -/
def Attended (s : State) (op : Op) : Prop :=
  Settled s op ∧ ∀ core, op = .invoke core true → s.continuation (s.current core) = true →
    s.messageQueue ≠ []

theorem Reads.step {op : Op} (h : Reads s) (hi : Inv s l) (ha : Attended s op)
  (hs : Mailbox.step s op = some s') : Reads s' := by
  cases op with
  | spawn d =>
    obtain ⟨-, rfl⟩ := schedule_eq_some hs
    exact ⟨fun core ↦ (h.sound core).frame rfl id fun _ ↦ ⟨rfl, rfl⟩, h.waits⟩
  | refuse core r =>
    obtain ⟨⟨hc, hr⟩, ⟨⟩⟩ := ite_none_right_eq_some.mp hs
    exact h.refuse hi hc hr
  | read core p =>
    obtain ⟨hc, hre⟩ := ite_none_right_eq_some.mp hs
    obtain ⟨hf, rfl⟩ := acquire_eq_some hre
    exact h.quiet (.reading (.fresh p)) rfl (fun _ _ ↦ rfl) rfl rfl
      (.inl (lock_ne (.inl hf))) (by rw [hc.1]; rfl) ⟨rfl, h.at hc.1⟩
  | receive core => exact h.receive hi hs
  | park core nx => exact h.park hi hs
  | enqueue core => exact h.enqueue hs
  | setContinuation core => exact h.setContinuation hs
  | dropContinuation core =>
    obtain ⟨t, hp, -⟩ := dropContinuation_eq_some hs
    exact (h.at hp).elim
  | save core =>
    obtain ⟨t, hp, rfl⟩ := save_eq_some hs
    exact h.quiet .switching rfl (fun _ _ ↦ rfl) rfl rfl (.inr ⟨rfl, rfl⟩) (by rw [hp]; rfl) trivial
  | load core =>
    obtain ⟨hp, ⟨⟩⟩ := ite_none_right_eq_some.mp hs
    exact h.quiet .loaded rfl (fun _ _ ↦ rfl) rfl rfl (.inr ⟨rfl, rfl⟩) (by rw [hp]; rfl) trivial
  | invoke core v =>
    refine h.invoke hi (fun hv ↦ ?_) hs
    exact ha.2 core (by rw [hv])
  | write core =>
    obtain ⟨hc, hw⟩ := ite_none_right_eq_some.mp hs
    obtain ⟨hf, rfl⟩ := acquire_eq_some hw
    exact h.quiet .writing rfl (fun _ _ ↦ rfl) rfl rfl (.inl (lock_ne (.inl hf)))
      (by rw [hc.1]; rfl) ⟨rfl, h.at hc.1⟩
  | reject core =>
    obtain ⟨hp, ⟨⟩⟩ := ite_none_right_eq_some.mp hs
    exact h.quiet .user rfl (fun _ _ ↦ rfl) rfl rfl (.inl (lock_ne (.inr (h.at hp).1)))
      (by rw [hp]; rfl) (h.at hp).2
  | push core m =>
    obtain ⟨hp, ⟨⟩⟩ := ite_none_right_eq_some.mp hs
    exact h.quiet .waking rfl (fun _ _ ↦ rfl) rfl rfl (.inl (lock_ne (.inr (h.at hp).1)))
      (by rw [hp]; rfl) (h.at hp)
  | wake core d => exact h.wake hs
  | unlock core =>
    obtain ⟨hp, ⟨⟩⟩ := ite_none_right_eq_some.mp hs
    exact h.quiet .user rfl (fun _ _ ↦ rfl) rfl rfl (.inl (lock_ne (.inr (h.at hp).1)))
      (by rw [hp]; rfl) (h.at hp).2
  | preempt core nx => exact h.preempt hs

def Completed (s : State) : Prop := ∀ core, s.pc core = .user → s.Finished (s.current core)

theorem reads_initial : Reads {} := by
  refine ⟨fun core o ho ↦ ?_, fun t ht ↦ absurd (fun o ho ↦ ?_) ht⟩
  · cases ho
  · cases ho

theorem completed_of_attended (s : State) (h : Reachable step Attended {} s) : Completed s := by
  have hb : Reads s ∧ ∃ l, Inv s l :=
    h.invariant (I := fun s ↦ Reads s ∧ ∃ l, Inv s l) ⟨reads_initial, _, inv_initial⟩
      fun _ _ _ ⟨hr, _, hi⟩ ha hs ↦ ⟨hr.step hi ha hs, hi.step ha.1 hs⟩
  intro core hp
  exact hb.1.at hp

theorem completed_woken :
  ∃ s, exec step {} (woken ++ [.invoke 1 true, .receive 1]) = some s ∧ s.pc 1 = .user ∧
  s.current 1 = .user 0 ∧ s.outcome (.user 0) = some (.returned .ok (some (.user 0))) ∧
  Completed s := by
  have hru : (exec step {} (woken ++ [.invoke 1 true, .receive 1])).any
    (fun s ↦ s.pc 1 = .user ∧ s.current 1 = .user 0 ∧
    s.outcome (.user 0) = some (.returned .ok (some (.user 0)))) := by
    decide
  have hq : (exec step {} woken).any (fun s ↦ s.messageQueue ≠ []) := by decide
  obtain ⟨s, hs, hre⟩ := (any_eq_true _ _).mp hru
  obtain ⟨h, hc, ho⟩ := of_decide_eq_true hre
  have ha := hs
  rw [exec_append] at ha
  obtain ⟨u, hu, hr⟩ := bind_eq_some_iff.mp ha
  rw [hu, any_some, decide_eq_true_eq] at hq
  have hw : Reachable step Attended {} u :=
    Reachable.of_exec_split (by simp [awaited, resume, block, Attended, Settled])
      (fun s hs ↦ ⟨settled_awaited 1 hs, by simp⟩) (by simp [Attended, Settled]) hu
  obtain ⟨v, hi, hr⟩ := bind_eq_some_iff.mp hr
  have hrea : Reachable step Attended {} s :=
    hw.trans (Reachable.head (.invoke 1 true) ⟨trivial, fun _ _ _ ↦ hq⟩ hi
      (Reachable.of_exec (by simp [Attended, Settled]) hr))
  exact ⟨s, hs, h, hc, ho, completed_of_attended s hrea⟩

/-- The reader is woken twice. The continuation that found no message is dropped, and the second
wake-up leads to user code. -/
def wokenTwice : List Op :=
  List.flatten [.spawn 0 :: resume 0 (.user 0), .spawn 1 :: resume 1 (.user 1), block 0 (.idle 0),
    [.write 1, .push 1 (.user 0), .wake 1 0, .unlock 1], [.read 1 false, .receive 1],
    [.preempt 0 (.user 0), .save 0, .load 0, .invoke 0 true, .park 0 (.idle 0), .enqueue 0,
      .dropContinuation 0, .load 0, .invoke 0 true],
    [.write 1, .push 1 (.user 1), .wake 1 0, .unlock 1],
    [.preempt 0 (.user 0), .save 0, .load 0, .invoke 0 true]]

theorem not_completed : ¬ ∀ s, Reachable step Unrestricted {} s → Completed s := by
  intro h
  have hr : (exec step {} wokenTwice).any
    (fun s ↦ s.pc 0 = .user ∧ s.outcome (s.current 0) = some .blocked) := by
    decide
  obtain ⟨s, hs, hb⟩ := Reachable.of_any hr
  obtain ⟨hp, ho⟩ := of_decide_eq_true hb
  exact h s hs 0 hp _ ho

end ReaverOS.Kernel.Mailbox
