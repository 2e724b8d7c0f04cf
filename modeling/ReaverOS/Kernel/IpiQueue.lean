import Mathlib.Data.List.Count
import ReaverOS.Foundation.LinkedQueue
import ReaverOS.Foundation.Runs

namespace ReaverOS.Kernel.Ipi

open Function List Option

section Model

inductive Policy
  | all
  | specific (target : ℕ)
  deriving DecidableEq

structure Call where
  id : ℕ
  todo : List ℕ
  prepared : Option ℕ := none
  pushed : List ℕ := []
  deriving DecidableEq

/-- `running` holds the items whose function has been run and whose call has not been told; pushes
and executions are recorded as pairs of a call and a core. -/
structure Calls where
  call : ℕ → Option Call := fun _ ↦ none
  state : ℕ → Option ℕ := fun _ ↦ none
  unfinishedCores : ℕ → ℤ := fun _ ↦ 0
  taken : ℕ → List ℕ := fun _ ↦ []
  running : ℕ → List ℕ := fun _ ↦ []
  started : ℕ := 0
  sent : List (ℕ × ℕ) := []
  executed : List (ℕ × ℕ) := []

def slot (coreCount self target : ℕ) : ℕ := self * coreCount + target

def Policy.targets (coreCount : ℕ) : Policy → List ℕ
  | .all => List.range coreCount
  | .specific target => [target]

namespace Calls

variable (coreCount : ℕ) (s : Calls)

def setCall (core : ℕ) (call : Option Call) : Calls :=
  { s with call := update s.call core call }

def start (core : ℕ) (policy : Policy) : Option Calls :=
  if core < coreCount ∧ (∀ t ∈ policy.targets coreCount, t < coreCount) ∧ s.call core = none then
    some { s.setCall core (some ⟨s.started, policy.targets coreCount, none, []⟩) with
      started := s.started + 1 }
  else none

def prepare (core : ℕ) : Option Calls :=
  match s.call core with
  | some ⟨id, target :: todo, none, pushed⟩ =>
    some { s.setCall core (some ⟨id, todo, some target, pushed⟩) with
      unfinishedCores := update s.unfinishedCores id (s.unfinishedCores id + 1)
      state := update s.state (slot coreCount core target) (some id) }
  | _ => none

def push (core : ℕ) : Option (ℕ × Calls) :=
  match s.call core with
  | some ⟨id, todo, some target, pushed⟩ =>
    some (target, { s.setCall core (some ⟨id, todo, none, target :: pushed⟩) with
      sent := (id, target) :: s.sent })
  | _ => none

def take (core item : ℕ) : Calls :=
  { s with taken := update s.taken core (item :: s.taken core) }

def execute (core item : ℕ) : Option Calls :=
  match s.state item with
  | some id =>
    if item ∈ s.taken core then
      some { s with
        taken := update s.taken core ((s.taken core).erase item)
        running := update s.running core (item :: s.running core)
        executed := (id, core) :: s.executed }
    else none
  | none => none

def finish (core item : ℕ) : Option Calls :=
  match s.state item with
  | some id =>
    if item ∈ s.running core then
      some { s with
        running := update s.running core ((s.running core).erase item)
        unfinishedCores := update s.unfinishedCores id (s.unfinishedCores id - 1) }
    else none
  | none => none

def leave (core : ℕ) : Option Calls :=
  match s.call core with
  | some ⟨id, [], none, _⟩ =>
    if s.unfinishedCores id = 0 then some (s.setCall core none) else none
  | _ => none

end Calls

structure State extends Calls where
  next : ℕ → Option ℕ := fun _ ↦ none
  head : ℕ → Option ℕ := fun _ ↦ none
  tail : ℕ → Option ℕ := fun _ ↦ none

def State.pushItem (s : State) (core item : ℕ) : Option State :=
  match s.head core with
  | none => some { s with
      head := update s.head core (some item)
      tail := update s.tail core (some item) }
  | some _ =>
    match s.tail core with
    | none => none
    | some last => some { s with
        next := update s.next last (some item)
        tail := update s.tail core (some item) }

def State.takeItem (s : State) (core : ℕ) : Option State :=
  match s.head core with
  | none => none
  | some item => some { s with
      toCalls := s.toCalls.take core item
      head := update s.head core (s.next item) }

inductive Op
  | start (core : ℕ) (policy : Policy)
  | prepare (core : ℕ)
  | push (core : ℕ)
  | take (core : ℕ)
  | execute (core item : ℕ)
  | finish (core item : ℕ)
  | leave (core : ℕ)
  deriving DecidableEq

def State.withCalls (s : State) (calls : Calls) : State := { s with toCalls := calls }

def step (coreCount : ℕ) (s : State) : Op → Option State
  | .start core policy => (s.start coreCount core policy).map s.withCalls
  | .prepare core => (s.prepare coreCount core).map s.withCalls
  | .push core =>
    (s.push core).bind fun (target, calls) ↦
      (s.withCalls calls).pushItem target (slot coreCount core target)
  | .take core => s.takeItem core
  | .execute core item => (s.execute core item).map s.withCalls
  | .finish core item => (s.finish core item).map s.withCalls
  | .leave core => (s.leave core).map s.withCalls

end Model

section Invariant

variable {n : ℕ} {s t : Calls} {q q' : ℕ → List ℕ} {core item : ℕ} {call : Call}

theorem slot_inj {a b i j : ℕ} (hi : i < n) (hj : j < n) (h : slot n a i = slot n b j) :
  a = b ∧ i = j := by
  rw [slot, slot] at h
  have hij : i = j := by
    have hm := congrArg (· % n) h
    simpa [Nat.mul_add_mod_self_right, Nat.mod_eq_of_lt hi, Nat.mod_eq_of_lt hj] using hm
  refine ⟨Nat.eq_of_mul_eq_mul_right (Nat.zero_lt_of_lt hi) ?_, hij⟩
  omega

namespace Calls

def ids (s : Calls) (core : ℕ) : Option ℕ := (s.call core).map Call.id

def Active (s : Calls) (id : ℕ) : Prop := ∃ core, s.ids core = some id

def flight (s : Calls) (q : ℕ → List ℕ) (core : ℕ) : List ℕ :=
  q core ++ (s.taken core ++ s.running core)

def waiting (s : Calls) (q : ℕ → List ℕ) (core : ℕ) : List ℕ := q core ++ s.taken core

structure Sound (n : ℕ) (s : Calls) (q : ℕ → List ℕ) (core : ℕ) (call : Call) : Prop where
  core_lt : core < n
  id_lt : call.id < s.started
  nodup : (call.pushed ++ (call.prepared.toList ++ call.todo)).Nodup
  target_lt : ∀ i ∈ call.pushed ++ (call.prepared.toList ++ call.todo), i < n
  stored : ∀ i, call.prepared = some i → s.state (slot n core i) = some call.id
  unfinished : s.unfinishedCores call.id =
    call.pushed.countP (fun i ↦ slot n core i ∈ s.flight q i) + call.prepared.toList.length
  sent : ∀ i, s.sent.count (call.id, i) = if i ∈ call.pushed then 1 else 0
  executed : ∀ i, s.executed.count (call.id, i) =
    if i ∈ call.pushed ∧ slot n core i ∉ s.waiting q i then 1 else 0

structure Inv (n : ℕ) (s : Calls) (q : ℕ → List ℕ) : Prop where
  nodup : ∀ core, (s.flight q core).Nodup
  owner : ∀ core, ∀ item ∈ s.flight q core, ∃ self call, s.call self = some call ∧
    core ∈ call.pushed ∧ item = slot n self core ∧ s.state item = some call.id
  sound : ∀ core call, s.call core = some call → s.Sound n q core call
  distinct : ∀ core core' id, s.ids core = some id → s.ids core' = some id → core = core'
  returned : ∀ id, ¬ s.Active id → ∀ i, s.executed.count (id, i) = s.sent.count (id, i) ∧
    s.sent.count (id, i) ≤ 1
  fresh : ∀ id, s.started ≤ id → s.unfinishedCores id = 0 ∧ ∀ i, s.sent.count (id, i) = 0

theorem Sound.congr (h : s.Sound n q core call) (hs : s.started ≤ t.started)
  (hst : ∀ i, call.prepared = some i → t.state (slot n core i) = s.state (slot n core i))
  (hu : t.unfinishedCores call.id = s.unfinishedCores call.id)
  (hf : ∀ i ∈ call.pushed, slot n core i ∈ t.flight q' i ↔ slot n core i ∈ s.flight q i)
  (hw : ∀ i ∈ call.pushed, slot n core i ∈ t.waiting q' i ↔ slot n core i ∈ s.waiting q i)
  (hse : ∀ i, t.sent.count (call.id, i) = s.sent.count (call.id, i))
  (he : ∀ i, t.executed.count (call.id, i) = s.executed.count (call.id, i)) :
  t.Sound n q' core call where
  core_lt := h.core_lt
  id_lt := h.id_lt.trans_le hs
  nodup := h.nodup
  target_lt := h.target_lt
  stored i hi := (hst i hi).trans (h.stored i hi)
  unfinished := by
    rw [hu, h.unfinished]
    congr 2
    exact countP_congr fun i hi ↦ by simp [hf i hi]
  sent i := (hse i).trans (h.sent i)
  executed i := by
    rw [he, h.executed]
    by_cases hi : i ∈ call.pushed
    · simp only [hi, hw i hi]
    · simp only [hi, false_and]

theorem setCall_call_self (co : ℕ) (c : Option Call) : (s.setCall co c).call co = c :=
  update_self ..

theorem setCall_call_of_ne {core' : ℕ} (c : Option Call) (h : core' ≠ core) :
  (s.setCall core c).call core' = s.call core' :=
  update_of_ne h ..

theorem ids_of_call (h : s.call core = some call) : s.ids core = some call.id :=
  congrArg (Option.map Call.id) h

theorem ids_eq_some {id : ℕ} (h : s.ids core = some id) :
  ∃ call, s.call core = some call ∧ call.id = id :=
  map_eq_some_iff.mp h

theorem ids_setCall {call' : Call} (h : s.call core = some call) (hi : call'.id = call.id) :
  (s.setCall core (some call')).ids = s.ids := by
  funext c
  rcases eq_or_ne c core with rfl | hne
  · rw [ids, setCall_call_self, ids_of_call h, map_some, hi]
  · rw [ids, setCall_call_of_ne _ hne, ids]

theorem active_congr (h : t.ids = s.ids) (id : ℕ) : t.Active id ↔ s.Active id := by
  rw [Active, Active, h]

theorem Inv.not_active_of_fresh (h : s.Inv n q) {id : ℕ} (hid : s.started ≤ id) :
  ¬ s.Active id := by
  rintro ⟨core, hc⟩
  obtain ⟨call, hca, rfl⟩ := ids_eq_some hc
  have := (h.sound core call hca).id_lt
  omega

theorem Inv.start {p : Policy} (h : s.Inv n q) (hsr : s.start n core p = some t) : t.Inv n q := by
  obtain ⟨⟨hco, hta, hn⟩, ht⟩ := ite_none_right_eq_some.mp hsr
  rw [some.injEq, eq_comm] at ht
  have hse : t.call core = some ⟨s.started, p.targets n, none, []⟩ := by
    rw [ht]
    exact setCall_call_self ..
  have ho {c : ℕ} (hc : c ≠ core) : t.call c = s.call c := by
    rw [ht]
    exact setCall_call_of_ne _ hc
  have hil {c : ℕ} {call : Call} (hc : s.call c = some call) : c ≠ core := by
    rintro rfl
    cases hn.symm.trans hc
  have his {c : ℕ} (hc : c ≠ core) : t.ids c = s.ids c := congrArg (Option.map _) (ho hc)
  have hre : t.flight q = s.flight q ∧ t.waiting q = s.waiting q ∧ t.state = s.state ∧
    t.sent = s.sent ∧ t.executed = s.executed ∧ t.unfinishedCores = s.unfinishedCores ∧
    t.started = s.started + 1 := by
    rw [ht]
    exact ⟨rfl, rfl, rfl, rfl, rfl, rfl, rfl⟩
  obtain ⟨hf, hw, hsta, hs, he, hu, hst⟩ := hre
  refine ⟨?_, ?_, fun c call hca ↦ ?_, fun c c' id hc hc' ↦ ?_, fun id hd i ↦ ?_, fun id hd ↦ ?_⟩
  · rw [hf]
    exact h.nodup
  · rw [hf, hsta]
    intro c item hit
    obtain ⟨se, call, hca, how⟩ := h.owner c item hit
    exact ⟨se, call, (ho (hil hca)).trans hca, how⟩
  · rcases eq_or_ne c core with rfl | hc
    · cases hse.symm.trans hca
      obtain ⟨hz, hn⟩ := h.fresh s.started le_rfl
      have hr := h.returned s.started (h.not_active_of_fresh le_rfl)
      refine ⟨hco, by rw [hst]; exact Nat.lt_succ_self _, ?_, ?_, ?_, ?_, ?_, ?_⟩
      · cases p with
        | all => exact nodup_range
        | specific target => exact nodup_singleton target
      · simpa using hta
      · intro i hi
        cases hi
      · simpa [hu] using hz
      · simpa [hs] using hn
      · simpa [he, (hr _).1] using hn
    · refine (h.sound c call ((ho hc).symm.trans hca)).congr (by omega) ?_ ?_ ?_ ?_ ?_ ?_
      all_goals simp [hf, hw, hsta, hs, he, hu]
  · have hnw := ids_of_call hse
    have hol {c : ℕ} (hc : t.ids c = some s.started) : c = core := by
      by_contra hne
      exact h.not_active_of_fresh le_rfl ⟨c, (his hne).symm.trans hc⟩
    rcases eq_or_ne c core with rfl | hne
    · cases hnw.symm.trans hc
      exact (hol hc').symm
    · rcases eq_or_ne c' core with rfl | hne'
      · cases hnw.symm.trans hc'
        exact hol hc
      · exact h.distinct c c' id ((his hne).symm.trans hc) ((his hne').symm.trans hc')
  · rw [he, hs]
    refine h.returned id ?_ i
    rintro ⟨c, hc⟩
    obtain ⟨call, hca, -⟩ := ids_eq_some hc
    exact hd ⟨c, (his (hil hca)).trans hc⟩
  · rw [hu, hs]
    exact h.fresh id (by omega)

structure Touches (item : ℕ) (s : Calls) (q : ℕ → List ℕ) (t : Calls) (q' : ℕ → List ℕ) : Prop where
  flight : ∀ c, ∀ i ≠ item, i ∈ t.flight q' c ↔ i ∈ s.flight q c
  waiting : ∀ c, ∀ i ≠ item, i ∈ t.waiting q' c ↔ i ∈ s.waiting q c
  state : ∀ i ≠ item, t.state i = s.state i

structure Spares (id : ℕ) (s t : Calls) : Prop where
  started : t.started = s.started
  unfinished : ∀ id' ≠ id, t.unfinishedCores id' = s.unfinishedCores id'
  sent : ∀ id' ≠ id, ∀ i, t.sent.count (id', i) = s.sent.count (id', i)
  executed : ∀ id' ≠ id, ∀ i, t.executed.count (id', i) = s.executed.count (id', i)

theorem Inv.advance (call' : Call) {target : ℕ} (h : s.Inv n q) (hca : s.call core = some call)
  (hta : target < n) (ht : Touches (slot n core target) s q t q')
  (hsp : Spares call.id s t) (htc : t.call = (s.setCall core (some call')).call)
  (hd : call'.id = call.id) (hp : ∀ i ∈ call.pushed, i ∈ call'.pushed)
  (hn : ∀ c, (t.flight q' c).Nodup) (hit : ∀ c, slot n core target ∈ t.flight q' c →
  c = target ∧ c ∈ call'.pushed ∧ t.state (slot n core target) = some call.id)
  (hso : t.Sound n q' core call') : t.Inv n q' := by
  have hse : t.call core = some call' := by
    rw [htc]
    exact setCall_call_self ..
  have ho {c : ℕ} (hc : c ≠ core) : t.call c = s.call c := by
    rw [htc]
    exact setCall_call_of_ne _ hc
  have his : t.ids = s.ids := by
    rw [← ids_setCall hca hd]
    funext c
    rw [ids, htc, ids]
  refine ⟨hn, fun c item hm ↦ ?_, fun c a ha ↦ ?_, ?_, fun id hin i ↦ ?_, fun id hf ↦ ?_⟩
  · rcases eq_or_ne item (slot n core target) with rfl | hne
    · obtain ⟨rfl, hm', hst⟩ := hit c hm
      exact ⟨core, call', hse, hm', rfl, hst.trans (congrArg some hd.symm)⟩
    · obtain ⟨se, a, ha, hw, hsl, hst⟩ := h.owner c item ((ht.flight c item hne).mp hm)
      rcases eq_or_ne se core with rfl | hse'
      · cases hca.symm.trans ha
        exact ⟨se, call', hse, hp c hw, hsl,
          ((ht.state item hne).trans hst).trans (congrArg some hd.symm)⟩
      · exact ⟨se, a, (ho hse').trans ha, hw, hsl, (ht.state item hne).trans hst⟩
  · rcases eq_or_ne c core with rfl | hne
    · cases hse.symm.trans ha
      exact hso
    · have hol := (ho hne).symm.trans ha
      have his' : a.id ≠ call.id := fun he ↦
        hne (h.distinct c core _ (ids_of_call hol) (he ▸ ids_of_call hca))
      have hsl (i : ℕ) (hi : i < n) : slot n c i ≠ slot n core target :=
        fun he ↦ hne (slot_inj hi hta he).1
      have hs := h.sound c a hol
      refine hs.congr hsp.started.ge (fun i hi ↦ ?_) (hsp.unfinished _ his')
        (fun i hi ↦ ?_) (fun i hi ↦ ?_) (hsp.sent _ his') (hsp.executed _ his')
      · exact ht.state _ (hsl i (hs.target_lt i (by simp [hi])))
      · exact ht.flight i _ (hsl i (hs.target_lt i (by simp [hi])))
      · exact ht.waiting i _ (hsl i (hs.target_lt i (by simp [hi])))
  · rw [his]
    exact h.distinct
  · have hne : id ≠ call.id := fun he ↦ hin ((active_congr his id).mpr ⟨core, he ▸ ids_of_call hca⟩)
    rw [hsp.executed id hne, hsp.sent id hne]
    exact h.returned id (fun h' ↦ hin ((active_congr his id).mpr h')) i
  · have hne : id ≠ call.id := by
      have := (h.sound core call hca).id_lt
      have := hsp.started
      omega
    obtain ⟨hz, hno⟩ := h.fresh id (hsp.started ▸ hf)
    exact ⟨(hsp.unfinished id hne).trans hz, fun i ↦ (hsp.sent id hne i).trans (hno i)⟩

end Calls

end Invariant

section Steps

variable {n : ℕ} {s t : Calls} {q q' : ℕ → List ℕ} {core item : ℕ} {call : Call}

namespace Calls

variable {target c : ℕ}

theorem Inv.locate (h : s.Inv n q) (hca : s.call core = some call) (ht : target < n)
  (hm : slot n core target ∈ s.flight q c) :
  c = target ∧ c ∈ call.pushed ∧ s.state (slot n core target) = some call.id := by
  obtain ⟨se, a, ha, ho, hsl, hs⟩ := h.owner c _ hm
  have hc := (h.sound se a ha).target_lt c (by simp [ho])
  obtain ⟨rfl, rfl⟩ := slot_inj ht hc hsl
  cases hca.symm.trans ha
  exact ⟨rfl, ho, hs⟩

theorem Inv.notMem_flight (h : s.Inv n q) (hc : s.call core = some call) (ht : target < n)
  (hn : target ∉ call.pushed) (c : ℕ) : slot n core target ∉ s.flight q c := by
  intro hm
  obtain ⟨rfl, hp, -⟩ := h.locate hc ht hm
  exact hn hp

theorem Inv.prepare (h : s.Inv n q) (hp : s.prepare n core = some t) : t.Inv n q := by
  rw [Calls.prepare] at hp
  split at hp <;> cases hp
  rename_i id target todo pushed hc
  obtain ⟨hco, hd, hn, ht, -, hu, hs, he⟩ := h.sound core _ hc
  have hta := ht target (by simp)
  have hne : target ∉ pushed := fun hm ↦ (nodup_append.mp hn).2.2 target hm target (by simp) rfl
  refine h.advance ⟨id, todo, some target, pushed⟩ hc hta
    ⟨fun _ _ _ ↦ Iff.rfl, fun _ _ _ ↦ Iff.rfl, fun i hi ↦ update_of_ne hi ..⟩
    ⟨rfl, fun i hi ↦ update_of_ne hi .., fun _ _ _ ↦ rfl, fun _ _ _ ↦ rfl⟩ rfl rfl
    (fun _ hi ↦ hi) h.nodup (fun c hm ↦ absurd hm (h.notMem_flight hc hta hne c)) ?_
  refine ⟨hco, hd, hn, ht, ?_, ?_, hs, he⟩
  · rintro i hi
    cases hi
    exact update_self ..
  · have hcou := update_self id (s.unfinishedCores id + 1) s.unfinishedCores
    exact hcou.trans (by rw [hu]; rfl)

variable {x i : ℕ}

theorem mem_enqueue : i ∈ update q target (q target ++ [x]) c ↔ i ∈ q c ∨ c = target ∧ i = x := by
  rcases eq_or_ne c target with rfl | hne
  · simp
  · simp [hne]

theorem mem_flight_enqueue : i ∈ s.flight (update q target (q target ++ [x])) c ↔
  i ∈ s.flight q c ∨ c = target ∧ i = x := by
  simp only [flight, mem_append, mem_enqueue]
  tauto

theorem mem_waiting_enqueue : i ∈ s.waiting (update q target (q target ++ [x])) c ↔
  i ∈ s.waiting q c ∨ c = target ∧ i = x := by
  simp only [waiting, mem_append, mem_enqueue]
  tauto

theorem nodup_flight_enqueue (h : ∀ c, (s.flight q c).Nodup) (hx : x ∉ s.flight q target) (c : ℕ) :
  (s.flight (update q target (q target ++ [x])) c).Nodup := by
  rcases eq_or_ne c target with rfl | hne
  · have hp : (s.flight (update q c (q c ++ [x])) c).Perm (x :: s.flight q c) := by
      simp only [flight, update_self, append_assoc, singleton_append]
      exact perm_middle
    exact hp.nodup_iff.mpr (nodup_cons.mpr ⟨hx, h c⟩)
  · have heq : s.flight (update q target (q target ++ [x])) c = s.flight q c := by
      rw [flight, update_of_ne hne, flight]
    rw [heq]
    exact h c

theorem Inv.push (h : s.Inv n q) (hp : s.push core = some (target, t)) :
  t.Inv n (update q target (q target ++ [slot n core target])) := by
  rw [Calls.push] at hp
  split at hp <;> cases hp
  rename_i id todo pushed hc
  obtain ⟨hco, hd, hn, ht, hs, hu, hse, he⟩ := h.sound core _ hc
  simp only [toList_some, singleton_append, length_singleton] at *
  have hta : target < n := ht target (by simp)
  have hnw : target ∉ pushed := fun hm ↦ (nodup_append.mp hn).2.2 target hm target (by simp) rfl
  have hil := h.notMem_flight hc hta hnw
  have hsl (i : ℕ) (hi : i ∈ pushed) : slot n core i ≠ slot n core target := fun hq ↦
    hnw ((slot_inj (ht i (by simp [hi])) hta hq).2 ▸ hi)
  refine h.advance ⟨id, todo, none, target :: pushed⟩ hc hta
    ⟨fun c i hi ↦ mem_flight_enqueue.trans (by simp [hi]; rfl),
    fun c i hi ↦ mem_waiting_enqueue.trans (by simp [hi]; rfl), fun _ _ ↦ rfl⟩
    ⟨rfl, fun _ _ ↦ rfl, fun id' hne i ↦ ?_, fun _ _ _ ↦ rfl⟩ rfl rfl
    (fun _ hi ↦ mem_cons_of_mem _ hi) (nodup_flight_enqueue h.nodup (hil target)) (fun c hm ↦ ?_) ?_
  · exact count_cons_of_ne (by simpa using fun h' ↦ absurd h'.symm hne)
  · rcases mem_flight_enqueue.mp hm with hm | ⟨rfl, -⟩
    · exact absurd hm (hil c)
    · exact ⟨rfl, mem_cons_self .., hs c rfl⟩
  · have hpe : (pushed ++ target :: todo).Perm (target :: pushed ++ todo) := perm_middle
    refine ⟨hco, hd, hpe.nodup_iff.mp hn, fun i hi ↦ ht i (hpe.mem_iff.mpr hi),
      ?_, ?_, fun i ↦ ?_, fun i ↦ ?_⟩
    · intro i hi
      cases hi
    · have hcou : pushed.countP (fun i ↦ slot n core i ∈
        s.flight (update q target (q target ++ [slot n core target])) i) =
        pushed.countP fun i ↦ slot n core i ∈ s.flight q i :=
        countP_congr fun i hi ↦ by simp [mem_flight_enqueue, hsl i hi]
      have hsf : slot n core target ∈
        s.flight (update q target (q target ++ [slot n core target])) target :=
        mem_flight_enqueue.mpr (.inr ⟨rfl, rfl⟩)
      refine hu.trans ?_
      rw [← hcou]
      refine congrArg Nat.cast (countP_cons_of_pos (p := fun i ↦ decide (slot n core i ∈
        s.flight (update q target (q target ++ [slot n core target])) i)) ?_).symm
      exact decide_eq_true hsf
    · refine (count_cons ..).trans ?_
      rw [hse]
      rcases eq_or_ne i target with rfl | hne
      · simp [hnw]
      · simp [hne, hne.symm]
    · refine (he i).trans (if_congr ?_ rfl rfl)
      rcases eq_or_ne i target with rfl | hne
      · simp only [hnw, false_and, false_iff]
        exact fun h ↦ h.2 (mem_waiting_enqueue.mpr (.inr ⟨rfl, rfl⟩))
      · have hst : slot n core i ∈ s.waiting
          (update q target (q target ++ [slot n core target])) i ↔ slot n core i ∈ s.waiting q i :=
          mem_waiting_enqueue.trans (or_iff_left fun h ↦ hne h.1)
        exact and_congr (by simp [hne]) (not_congr hst.symm)

theorem take_perm {xs : List ℕ} (h : q core = item :: xs) (c : ℕ) :
  ((s.take core item).flight (update q core xs) c).Perm (s.flight q c) ∧
  ((s.take core item).waiting (update q core xs) c).Perm (s.waiting q c) := by
  rcases eq_or_ne c core with rfl | hne
  · simp only [flight, waiting, take, update_self, h, cons_append]
    exact ⟨perm_middle, perm_middle⟩
  · simp only [flight, waiting, take, update_of_ne hne]
    exact ⟨List.Perm.refl _, List.Perm.refl _⟩

theorem Inv.of_perm (h : s.Inv n q) (hc : t.call = s.call) (hst : t.state = s.state)
  (hu : t.unfinishedCores = s.unfinishedCores) (hs : t.started = s.started)
  (hse : t.sent = s.sent) (he : t.executed = s.executed)
  (hf : ∀ c, (t.flight q' c).Perm (s.flight q c))
  (hw : ∀ c, (t.waiting q' c).Perm (s.waiting q c)) : t.Inv n q' := by
  have his : t.ids = s.ids := by
    funext c
    rw [ids, hc, ids]
  refine ⟨fun c ↦ (hf c).nodup_iff.mpr (h.nodup c), fun c i hi ↦ ?_, fun c a ha ↦ ?_, ?_,
    fun id hd ↦ ?_, ?_⟩
  · rw [hc, hst]
    exact h.owner c i ((hf c).mem_iff.mp hi)
  · refine (h.sound c a (hc ▸ ha)).congr hs.ge ?_ ?_
      (fun i _ ↦ (hf i).mem_iff) (fun i _ ↦ (hw i).mem_iff) ?_ ?_
    all_goals simp [hst, hu, hse, he]
  · rw [his]
    exact h.distinct
  · rw [he, hse]
    exact h.returned id fun hac ↦ hd ((active_congr his id).mpr hac)
  · rw [hs, hu, hse]
    exact h.fresh

theorem Inv.take {xs : List ℕ} (h : s.Inv n q) (hq : q core = item :: xs) :
  (s.take core item).Inv n (update q core xs) :=
  h.of_perm rfl rfl rfl rfl rfl rfl (fun c ↦ (take_perm hq c).1) fun c ↦ (take_perm hq c).2

theorem call_eq_setCall (h : s.call core = some call) :
  s.call = (s.setCall core (some call)).call :=
  (update_eq_self_iff.mpr h.symm).symm

theorem mem_update_erase (hi : i ≠ item) : i ∈ update q core ((q core).erase item) c ↔ i ∈ q c := by
  rcases eq_or_ne c core with rfl | hne
  · rw [update_self, mem_erase_of_ne hi]
  · rw [update_of_ne hne]

theorem Inv.execute (h : s.Inv n q) (he : s.execute core item = some t) : t.Inv n q := by
  rw [Calls.execute] at he
  split at he
  case h_2 => cases he
  rename_i id hst
  obtain ⟨hta, ht⟩ := ite_none_right_eq_some.mp he
  rw [some.injEq, eq_comm] at ht
  have hm : item ∈ s.flight q core := by simp [flight, hta]
  obtain ⟨se, call, hca, hp, rfl, hid⟩ := h.owner core item hm
  cases hst.symm.trans hid
  have hs := h.sound se call hca
  have hco : core < n := hs.target_lt core (by simp [hp])
  have hf (c : ℕ) : (t.flight q c).Perm (s.flight q c) := by
    rcases eq_or_ne c core with rfl | hne
    · simp only [ht, flight, update_self]
      exact (perm_middle.trans
        ((perm_cons_erase hta).symm.append_right (s.running c))).append_left (q c)
    · simp only [ht, flight, update_of_ne hne]
      exact List.Perm.refl _
  have hg : slot n se core ∉ t.waiting q core := by
    obtain ⟨-, hr, hd⟩ := nodup_append.mp (h.nodup core)
    simp only [ht, waiting, update_self, mem_append, not_or]
    exact ⟨fun hq ↦ hd _ hq _ (mem_append_left _ hta) rfl, (nodup_append.mp hr).1.not_mem_erase⟩
  have hsta (c i : ℕ) (hi : i ≠ slot n se core) : i ∈ t.waiting q c ↔ i ∈ s.waiting q c := by
    simp only [ht, waiting, mem_append, mem_update_erase hi]
  have hcou (id i : ℕ) : t.executed.count (id, i) =
    s.executed.count (id, i) + if call.id = id ∧ core = i then 1 else 0 := by
    simp only [ht, count_cons, beq_iff_eq, Prod.mk.injEq]
  have hsl (i : ℕ) (hi : i ∈ call.pushed) (hne : i ≠ core) : slot n se i ≠ slot n se core :=
    fun heq ↦ hne (slot_inj (hs.target_lt i (by simp [hi])) hco heq).2
  refine h.advance call hca hco ⟨fun c _ _ ↦ (hf c).mem_iff, hsta, fun _ _ ↦ by rw [ht]⟩
    ⟨by rw [ht], fun _ _ ↦ by rw [ht], fun _ _ _ ↦ by rw [ht],
    fun id hne i ↦ by rw [hcou, if_neg fun h ↦ hne h.1.symm]; rfl⟩
    (by rw [ht]; exact call_eq_setCall hca) rfl (fun _ hi ↦ hi)
    (fun c ↦ (hf c).nodup_iff.mpr (h.nodup c)) (fun c hc ↦ ?_) ?_
  · rw [ht]
    exact h.locate hca hco ((hf c).mem_iff.mp hc)
  · refine ⟨hs.core_lt, by rw [ht]; exact hs.id_lt, hs.nodup, hs.target_lt,
      by rw [ht]; exact hs.stored, ?_, by rw [ht]; exact hs.sent, fun i ↦ ?_⟩
    · simp only [(hf _).mem_iff]
      rw [ht]
      exact hs.unfinished
    · rcases eq_or_ne i core with rfl | hne
      · have hw : slot n se i ∈ s.waiting q i := mem_append_right _ hta
        simp [hcou, hs.executed, hp, hw, hg]
      · rw [hcou, if_neg fun h ↦ hne h.2.symm, Nat.add_zero, hs.executed]
        by_cases hi : i ∈ call.pushed
        · simp only [hi, hsta i _ (hsl i hi hne)]
        · simp only [hi, false_and]

theorem countP_eq_succ {l : List ℕ} {p p' : ℕ → Bool} {a : ℕ} (hl : l.Nodup) (ha : a ∈ l) (hp : p a)
  (hp' : ¬ p' a) (h : ∀ i ∈ l, i ≠ a → p' i = p i) : l.countP p = l.countP p' + 1 := by
  have hpe := perm_cons_erase ha
  have hr : (l.erase a).countP p' = (l.erase a).countP p := countP_congr fun i hi ↦ by
      obtain ⟨hn, hm⟩ := hl.mem_erase_iff.mp hi
      rw [h i hm hn]
  rw [hpe.countP_eq, hpe.countP_eq, countP_cons_of_pos hp, countP_cons_of_neg hp', hr]

theorem Inv.finish (h : s.Inv n q) (hf : s.finish core item = some t) : t.Inv n q := by
  rw [Calls.finish] at hf
  split at hf
  case h_2 => cases hf
  rename_i id hst
  obtain ⟨hr, ht⟩ := ite_none_right_eq_some.mp hf
  rw [some.injEq, eq_comm] at ht
  have hm : item ∈ s.flight q core := by simp [flight, hr]
  obtain ⟨se, call, hca, hp, rfl, hid⟩ := h.owner core item hm
  cases hst.symm.trans hid
  have hs := h.sound se call hca
  have hco : core < n := hs.target_lt core (by simp [hp])
  have hsta (c i : ℕ) (hi : i ≠ slot n se core) : i ∈ t.flight q c ↔ i ∈ s.flight q c := by
    simp only [ht, flight, mem_append, mem_update_erase hi]
  have hsu (c : ℕ) : (t.flight q c).Sublist (s.flight q c) := by
    rw [ht]
    refine ((List.Sublist.refl _).append ((List.Sublist.refl _).append ?_))
    rcases eq_or_ne c core with rfl | hn
    · simp only [update_self, erase_sublist]
    · simp only [update_of_ne hn, List.Sublist.refl]
  have hg : slot n se core ∉ t.flight q core := by
    obtain ⟨-, hre, hd⟩ := nodup_append.mp (h.nodup core)
    obtain ⟨-, hla, hd'⟩ := nodup_append.mp hre
    simp only [ht, flight, update_self, mem_append, not_or]
    exact ⟨fun hq ↦ hd _ hq _ (mem_append_right _ hr) rfl,
      fun hq ↦ hd' _ hq _ hr rfl, hla.not_mem_erase⟩
  have hsl (i : ℕ) (hi : i ∈ call.pushed) (hn : i ≠ core) : slot n se i ≠ slot n se core :=
    fun he ↦ hn (slot_inj (hs.target_lt i (by simp [hi])) hco he).2
  refine h.advance call hca hco ⟨hsta, fun _ _ _ ↦ by rw [ht]; rfl, fun _ _ ↦ by rw [ht]⟩
    ⟨by rw [ht], fun id hn ↦ by rw [ht]; exact update_of_ne hn .., fun _ _ _ ↦ by rw [ht],
    fun _ _ _ ↦ by rw [ht]⟩ (by rw [ht]; exact call_eq_setCall hca) rfl (fun _ hi ↦ hi)
    (fun c ↦ (h.nodup c).sublist (hsu c)) (fun c hc ↦ ?_) ?_
  · rw [ht]
    exact h.locate hca hco ((hsu c).subset hc)
  · refine ⟨hs.core_lt, by rw [ht]; exact hs.id_lt, hs.nodup, hs.target_lt,
      by rw [ht]; exact hs.stored, ?_, by rw [ht]; exact hs.sent, by rw [ht]; exact hs.executed⟩
    have hcou : call.pushed.countP (fun i ↦ slot n se i ∈ s.flight q i) =
      call.pushed.countP (fun i ↦ slot n se i ∈ t.flight q i) + 1 :=
      countP_eq_succ (nodup_append.mp hs.nodup).1 hp (decide_eq_true hm)
        (by simpa using hg) fun i hi hn ↦ decide_eq_decide.mpr (hsta i _ (hsl i hi hn))
    have hl : t.unfinishedCores call.id = s.unfinishedCores call.id - 1 := by
      rw [ht]
      exact update_self ..
    rw [hl, hs.unfinished, hcou]
    omega

theorem Inv.leave (h : s.Inv n q) (hl : s.leave core = some t) : t.Inv n q := by
  rw [Calls.leave] at hl
  split at hl
  case h_2 => cases hl
  rename_i id pushed hca
  obtain ⟨hz, ht⟩ := ite_none_right_eq_some.mp hl
  rw [some.injEq, eq_comm] at ht
  have hs := h.sound core _ hca
  have hd (i : ℕ) (hi : i ∈ pushed) : slot n core i ∉ s.flight q i := by
    have hco : pushed.countP (fun i ↦ slot n core i ∈ s.flight q i) = 0 := by
      have hco := hs.unfinished
      rw [hz] at hco
      simpa using hco.symm
    simpa using countP_eq_zero.mp hco i hi
  have ho {c : ℕ} (hc : c ≠ core) : t.call c = s.call c := by
    rw [ht]
    exact setCall_call_of_ne _ hc
  have hse : t.call core = none := by
    rw [ht]
    exact setCall_call_self ..
  have hid {c i : ℕ} (hc : t.ids c = some i) : c ≠ core ∧ s.ids c = some i := by
    have hn : c ≠ core := by
      rintro rfl
      rw [ids, hse] at hc
      cases hc
    exact ⟨hn, (congrArg (Option.map _) (ho hn)).symm.trans hc⟩
  refine ⟨by rw [ht]; exact h.nodup, fun c i hi ↦ ?_, fun c a ha ↦ ?_, fun c c' i hc hc' ↦ ?_,
    fun i hin target ↦ ?_, by rw [ht]; exact h.fresh⟩
  · have hm : i ∈ s.flight q c := by
      rw [ht] at hi
      exact hi
    obtain ⟨se, a, ha, hw, rfl, hst⟩ := h.owner c i hm
    have hn : se ≠ core := by
      rintro rfl
      cases hca.symm.trans ha
      exact hd c hw hm
    exact ⟨se, a, (ho hn).trans ha, hw, rfl, by rw [ht]; exact hst⟩
  · obtain ⟨hn, -⟩ := hid (ids_of_call ha)
    refine (h.sound c a ((ho hn).symm.trans ha)).congr ?_ ?_ ?_ ?_ ?_ ?_ ?_
    all_goals rw [ht]; simp [setCall, flight, waiting]
  · exact h.distinct c c' i (hid hc).2 (hid hc').2
  · rw [ht]
    by_cases hac : s.Active i
    · obtain ⟨c, hc⟩ := hac
      have hc' : c = core := by
        by_contra hn
        exact hin ⟨c, (congrArg (Option.map _) (ho hn)).trans hc⟩
      subst hc'
      cases (ids_of_call hca).symm.trans hc
      have hon : s.sent.count (id, target) ≤ 1 := by
        rw [hs.sent target]
        split_ifs <;> simp
      refine ⟨(hs.executed target).trans ((hs.sent target).trans (if_congr ?_ rfl rfl)).symm, hon⟩
      refine (and_iff_left_of_imp fun hi hm ↦ hd target hi ?_).symm
      simp only [waiting, flight, mem_append] at hm ⊢
      exact hm.imp_right .inl
    · exact h.returned i hac target

end Calls

end Steps

open Foundation LinkedQueue Runs

variable {n : ℕ} {s t : State} {q : ℕ → List ℕ} {core item : ℕ}

def State.Queued (s : State) (core item : ℕ) : Prop :=
  ∃ first, s.head core = some first ∧
    Relation.ReflTransGen (fun a b ↦ s.next a = some b) first item

def State.Holds (n : ℕ) (s : State) (q : ℕ → List ℕ) : Prop :=
  (∀ core, Represents s.next (s.head core) (s.tail core) (q core)) ∧ s.toCalls.Inv n q

theorem holds_empty (n : ℕ) : State.Holds n {} fun _ ↦ [] := by
  refine ⟨fun _ ↦ represents_nil _ _, fun _ ↦ nodup_nil, ?_, ?_, ?_,
    fun _ _ _ ↦ ⟨rfl, Nat.zero_le 1⟩, fun _ _ ↦ ⟨rfl, fun _ ↦ rfl⟩⟩
  · intro core item hi
    cases hi
  · intro core call hc
    cases hc
  · intro core core' id hid
    cases hid

theorem State.Holds.notMem (h : s.Holds n q) {tg : ℕ} (hi : item ∈ q tg)
  (hn : core ≠ tg) : item ∉ q core := by
  intro hm
  obtain ⟨se, call, hc, hp, rfl, -⟩ := h.2.owner tg item (mem_append_left _ hi)
  have ht := (h.2.sound se call hc).target_lt tg (by simp [hp])
  exact hn (h.2.locate hc ht (mem_append_left _ hm)).1

theorem State.Holds.pushItem {target : ℕ} {cs : Calls} (h : s.Holds n q)
  (hp : s.push core = some (target, cs))
  (hs : (s.withCalls cs).pushItem target (slot n core target) = some t) :
  t.Holds n (update q target (q target ++ [slot n core target])) := by
  have hi := h.2.push hp
  have hq := h.1 target
  rw [State.pushItem] at hs
  split at hs
  next hh =>
    have hni : q target = [] := by
      have hh : s.head target = none := hh
      rw [hh] at hq
      exact hq.eq_nil
    cases hs
    refine ⟨fun c ↦ ?_, hi⟩
    rcases eq_or_ne c target with rfl | hne
    · simp only [update_self, hni, nil_append]
      exact represents_singleton _ _
    · simp only [update_of_ne hne]
      exact h.1 c
  next first hh =>
    have hne : q target ≠ [] := by
      have hh : s.head target = some first := hh
      rw [hh] at hq
      obtain ⟨xs, hco⟩ := hq.eq_cons
      exact hco ▸ cons_ne_nil _ _
    split at hs
    next => cases hs
    next last ht =>
      have ht : s.tail target = some last := ht
      cases hs
      have hl : last ∈ q target := mem_of_getLast? ((hq.tail_eq hne).symm.trans ht)
      have hn : (q target).Nodup := (nodup_append.mp (h.2.nodup target)).1
      refine ⟨fun c ↦ ?_, hi⟩
      rcases eq_or_ne c target with rfl | hc
      · simp only [update_self]
        rw [ht] at hq
        exact hq.push hne hn
      · simp only [update_of_ne hc]
        exact (h.1 c).frame (h.notMem hl hc) _

def Detached (s : State) : Op → Prop
  | .take core => ∀ item, s.head core = some item → s.tail core = some item → s.next item = none
  | _ => True

theorem State.Holds.takeItem (h : s.Holds n q) (hd : Detached s (.take core))
  (hs : s.takeItem core = some t) : ∃ xs, t.Holds n (update q core xs) := by
  rw [State.takeItem] at hs
  split at hs
  next => cases hs
  next item hh =>
    cases hs
    have hq := h.1 core
    rw [hh] at hq
    obtain ⟨xs, hc⟩ := hq.eq_cons
    rw [hc] at hq
    refine ⟨xs, fun c ↦ ?_, h.2.take hc⟩
    rcases eq_or_ne c core with rfl | hne
    · simp only [update_self]
      refine hq.pop fun hn ↦ hd item hh ?_
      subst hn
      exact hq.tail_eq (cons_ne_nil _ _)
    · simp only [update_of_ne hne]
      exact h.1 c

theorem State.Holds.step {op : Op} (h : s.Holds n q) (hd : Detached s op)
  (hs : step n s op = some t) : ∃ q, t.Holds n q := by
  cases op with
  | start core p =>
    obtain ⟨cs, hc, rfl⟩ := map_eq_some_iff.mp hs
    exact ⟨q, h.1, h.2.start hc⟩
  | prepare core =>
    obtain ⟨cs, hc, rfl⟩ := map_eq_some_iff.mp hs
    exact ⟨q, h.1, h.2.prepare hc⟩
  | push core =>
    obtain ⟨⟨target, cs⟩, hp, hi⟩ := bind_eq_some_iff.mp hs
    exact ⟨_, h.pushItem hp hi⟩
  | take core =>
    obtain ⟨xs, hr⟩ := h.takeItem hd hs
    exact ⟨_, hr⟩
  | execute core item =>
    obtain ⟨cs, hc, rfl⟩ := map_eq_some_iff.mp hs
    exact ⟨q, h.1, h.2.execute hc⟩
  | finish core item =>
    obtain ⟨cs, hc, rfl⟩ := map_eq_some_iff.mp hs
    exact ⟨q, h.1, h.2.finish hc⟩
  | leave core =>
    obtain ⟨cs, hc, rfl⟩ := map_eq_some_iff.mp hs
    exact ⟨q, h.1, h.2.leave hc⟩

theorem holds_reachable (h : Reachable (step n) Detached {} s) : ∃ q, s.Holds n q :=
  h.invariant (I := fun s ↦ ∃ q, s.Holds n q) ⟨_, holds_empty n⟩
    fun _ _ _ ⟨_, hq⟩ hd hs ↦ hq.step hd hs

structure ExactlyOnce (s : State) : Prop where
  once : ∀ id core, s.executed.count (id, core) ≤ s.sent.count (id, core) ∧
    s.sent.count (id, core) ≤ 1
  pending : ∀ id core, s.executed.count (id, core) < s.sent.count (id, core) →
    ∃ item, s.state item = some id ∧ (item ∈ s.taken core ∨ s.Queued core item)
  returned : ∀ id, ¬ s.Active id → ∀ core, s.executed.count (id, core) = s.sent.count (id, core)
  live : ∀ core item, item ∈ s.taken core ∨ item ∈ s.running core →
    ∃ id, s.state item = some id ∧ s.Active id

theorem State.Holds.once (h : s.Holds n q) (id co : ℕ) :
  s.executed.count (id, co) ≤ s.sent.count (id, co) ∧ s.sent.count (id, co) ≤ 1 := by
  by_cases ha : s.Active id
  · obtain ⟨se, hse⟩ := ha
    obtain ⟨call, hc, rfl⟩ := Calls.ids_eq_some hse
    have hs := h.2.sound se call hc
    rw [hs.sent, hs.executed]
    split_ifs <;> simp_all
  · obtain ⟨he, hl⟩ := h.2.returned id ha co
    exact ⟨he.le, hl⟩

theorem State.Holds.pending (h : s.Holds n q) {id : ℕ}
  (hl : s.executed.count (id, core) < s.sent.count (id, core)) :
  ∃ item, s.state item = some id ∧ (item ∈ s.taken core ∨ s.Queued core item) := by
  by_cases ha : s.Active id
  · obtain ⟨se, hse⟩ := ha
    obtain ⟨call, hc, rfl⟩ := Calls.ids_eq_some hse
    have hs := h.2.sound se call hc
    have hp : core ∈ call.pushed := by
      by_contra hn
      simp [hs.sent, hn] at hl
    have hw : slot n se core ∈ s.waiting q core := by
      by_contra hn
      simp [hs.sent, hs.executed, hp, hn] at hl
    have hf : slot n se core ∈ s.flight q core := by
      simp only [Calls.waiting, Calls.flight, mem_append] at hw ⊢
      exact hw.imp_right .inl
    refine ⟨slot n se core, (h.2.locate hc (hs.target_lt core (by simp [hp])) hf).2.2, ?_⟩
    rcases mem_append.mp hw with hq | ht
    · exact .inr ((h.1 core).reaches hq)
    · exact .inl ht
  · exact absurd (h.2.returned id ha core).1 hl.ne

theorem State.Holds.live (h : s.Holds n q) (hi : item ∈ s.taken core ∨ item ∈ s.running core) :
  ∃ id, s.state item = some id ∧ s.Active id := by
  have hf : item ∈ s.flight q core := mem_append_right _ (mem_append.mpr hi)
  obtain ⟨se, call, hc, -, -, hs⟩ := h.2.owner core item hf
  exact ⟨call.id, hs, se, Calls.ids_of_call hc⟩

theorem exactlyOnce_of_detached (n : ℕ) (s : State) (h : Reachable (step n) Detached {} s) :
    ExactlyOnce s := by
  obtain ⟨q, hq⟩ := holds_reachable h
  exact ⟨hq.once, fun _ _ ↦ hq.pending, fun id hi core ↦ (hq.2.returned id hi core).1,
    fun _ _ ↦ hq.live⟩

/-- Both cores call, and two items wait in the queue of core 1. -/
theorem exactlyOnce_twoCores : ∃ s, exec (step 2) {} [.start 0 (.specific 1), .start 1 .all,
  .prepare 0, .push 0, .prepare 1, .push 1, .prepare 1, .push 1, .take 1, .execute 1 1,
  .finish 1 1, .leave 0, .take 0, .execute 0 2] = some s ∧
  s.executed = [(1, 0), (0, 1)] ∧ ExactlyOnce s := by
  refine ⟨_, rfl, rfl, exactlyOnce_of_detached 2 _ ?_⟩
  refine Reachable.head (.start 0 (.specific 1)) trivial rfl ?_
  refine Reachable.head (.start 1 .all) trivial rfl ?_
  refine Reachable.head (.prepare 0) trivial rfl ?_
  refine Reachable.head (.push 0) trivial rfl ?_
  refine Reachable.head (.prepare 1) trivial rfl ?_
  refine Reachable.head (.push 1) trivial rfl ?_
  refine Reachable.head (.prepare 1) trivial rfl ?_
  refine Reachable.head (.push 1) trivial rfl ?_
  refine Reachable.head (.take 1) (fun _ hh ht ↦ absurd (hh.trans ht.symm) (by decide)) rfl ?_
  refine Reachable.head (.execute 1 1) trivial rfl ?_
  refine Reachable.head (.finish 1 1) trivial rfl ?_
  refine Reachable.head (.leave 0) trivial rfl ?_
  refine Reachable.head (.take 0) (fun _ hh _ ↦ by cases hh; rfl) rfl ?_
  exact Reachable.head (.execute 0 2) trivial rfl (Reachable.refl ..)

theorem not_exactlyOnce : ¬ ∀ n s, Reachable (step n) Unrestricted {} s → ExactlyOnce s := by
  intro h
  have hr : (exec (step 2) {}
    [.start 0 (.specific 0), .prepare 0, .push 0, .start 1 (.specific 0), .prepare 1, .push 1,
    .take 0, .execute 0 0, .finish 0 0, .take 0, .execute 0 2, .finish 0 2, .leave 0, .leave 1,
    .start 0 (.specific 0), .prepare 0, .push 0, .take 0, .execute 0 0, .finish 0 0,
    .take 0, .execute 0 2]).any
    (fun s ↦ s.executed.count (1, 0) = 2 ∧ s.sent.count (1, 0) = 1) := by
    decide
  obtain ⟨s, hs, ht⟩ := Reachable.of_any hr
  have := ((h 2 s hs).once 1 0).1
  obtain ⟨he, hse⟩ := of_decide_eq_true ht
  omega

end ReaverOS.Kernel.Ipi
