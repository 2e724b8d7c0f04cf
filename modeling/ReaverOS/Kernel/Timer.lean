import Mathlib.Algebra.Group.Nat.Defs
import Mathlib.Algebra.Order.Group.Int
import Mathlib.Tactic.Common
import ReaverOS.Kernel.TreeHeap

namespace ReaverOS.Kernel

open Function

inductive ScheduleCall
  | entered
  | popped (event : ℕ)
  | called (event : ℕ)
  | returned
  deriving DecidableEq

/-- An event is named by the `id` of its descriptor. The last two fields record the events popped
and the callbacks called, each with the `_now` of the call. -/
structure Timer where
  now : ℤ
  nextId : ℕ := 0
  triggerTime : ℕ → ℤ := fun _ ↦ 0
  valid : ℕ → Bool := fun _ ↦ false
  heap : TreeHeap ℕ := {}
  calls : List ScheduleCall := []
  oneShotAfter : Option ℤ := none
  popped : List ℕ := []
  ran : List (ℕ × ℤ) := []

namespace Timer

def compare (triggerTime : ℕ → ℤ) (lhs rhs : ℕ) : Bool := triggerTime lhs < triggerTime rhs

def updateNow (s : Timer) (now : ℤ) : Option Timer :=
  if s.now ≤ now then some { s with now } else none

def periodic (id : ℕ) : Bool := id.testBit 63

/-- `_do` for one event that is not periodic, up to its call of `_schedule_next`. Ids that have run
out are a panic. -/
def register (s : Timer) (now dur : ℤ) : Option Timer :=
  (s.updateNow now).bind fun s ↦
    let id := s.nextId + 1
    let s := { s with
      nextId := id
      triggerTime := update s.triggerTime id (s.now + dur)
      valid := update s.valid id true }
    if periodic id then none
    else
      (s.heap.push (compare s.triggerTime) id).map fun heap ↦
        { s with heap, calls := s.calls ++ [.entered] }

/-- The head of the loop of `_schedule_next`, under the lock, up to the next point without it. -/
def scheduleNext (s : Timer) (call : ℕ) : Option Timer :=
  match s.heap.top with
  | none => some { s with calls := s.calls.set call .returned }
  | some top =>
    if s.triggerTime top ≤ s.now then
      (s.heap.pop (compare s.triggerTime)).bind fun (desc, heap) ↦
        desc.map fun event ↦
          { s with heap, calls := s.calls.set call (.popped event), popped := event :: s.popped }
    else
      some { s with
        oneShotAfter := some (s.triggerTime top - s.now)
        calls := s.calls.set call .returned }

def lock (s : Timer) (call : ℕ) (now : ℤ) : Option Timer :=
  match s.calls[call]? with
  | some .entered => (s.updateNow now).bind (·.scheduleNext call)
  | some (.called event) =>
    (s.updateNow now).bind fun s ↦ if periodic event then none else s.scheduleNext call
  | _ => none

def load (s : Timer) (call : ℕ) : Option Timer :=
  match s.calls[call]? with
  | some (.popped event) =>
    let s := { s with calls := s.calls.set call (.called event) }
    some (if s.valid event then { s with ran := (event, s.now) :: s.ran } else s)
  | _ => none

def cancel (s : Timer) (event : ℕ) : Option Timer :=
  if 1 ≤ event ∧ event ≤ s.nextId then some { s with valid := update s.valid event false }
  else none

inductive Op
  | oneShot (now dur : ℤ)
  | interrupt
  | now (now : ℤ)
  | lock (call : ℕ) (now : ℤ)
  | load (call : ℕ)
  | cancel (event : ℕ)

def step (s : Timer) : Op → Option Timer
  | .oneShot now dur => s.register now dur
  | .interrupt => some { s with calls := s.calls ++ [.entered] }
  | .now now => s.updateNow now
  | .lock call now => s.lock call now
  | .load call => s.load call
  | .cancel event => s.cancel event

/-- The clock does not go back, a call is at the point where it makes the operation, there is a
token to cancel, and ids are left. -/
def Possible (s : Timer) : Op → Prop
  | .oneShot now _ => s.now ≤ now ∧ s.nextId + 1 < 2 ^ 63
  | .interrupt => True
  | .now now => s.now ≤ now
  | .lock call now => s.now ≤ now ∧
      (s.calls[call]? = some .entered ∨ ∃ event, s.calls[call]? = some (.called event))
  | .load call => ∃ event, s.calls[call]? = some (.popped event)
  | .cancel event => 1 ≤ event ∧ event ≤ s.nextId

def Holds (s : Timer) (event : ℕ) : Prop := ∃ path, s.heap.follow path = some event

structure Settled (s : Timer) : Prop where
  future : ∀ e, s.Holds e → s.now < s.triggerTime e
  armed : ∀ e, s.Holds e → ∃ first, s.Holds first ∧ (∀ e, s.Holds e →
    s.triggerTime first ≤ s.triggerTime e) ∧ s.oneShotAfter = some (s.triggerTime first - s.now)

end Timer

end ReaverOS.Kernel

namespace ReaverOS.Kernel.Timer

variable {calls : List ScheduleCall} {popped ran : List ℕ} {e i : ℕ}

structure Once (calls : List ScheduleCall) (popped ran : List ℕ) : Prop where
  pending : ∀ i e : ℕ, calls[i]? = some (.popped e) → e ∈ popped ∧ e ∉ ran
  unique : ∀ i j e : ℕ, calls[i]? = some (.popped e) → calls[j]? = some (.popped e) → i = j
  called : ∀ i e : ℕ, calls[i]? = some (.called e) → e ∈ popped
  nodup : ran.Nodup
  subset : ran ⊆ popped

theorem getElem?_set_eq_some {cl c : ScheduleCall} {j : ℕ}
  (h : (calls.set i cl)[j]? = some c) : j = i ∧ c = cl ∨ j ≠ i ∧ calls[j]? = some c := by
  rw [List.getElem?_set] at h
  grind

theorem Once.enter (h : Once calls popped ran) : Once (calls ++ [.entered]) popped ran where
  pending := by
    intro i e hi
    exact h.pending i e (by grind)
  unique := by
    intro i j e hi hj
    exact h.unique i j e (by grind) (by grind)
  called := by
    intro i e hi
    exact h.called i e (by grind)
  nodup := h.nodup
  subset := h.subset

theorem Once.set {c : ScheduleCall} (h : Once calls popped ran)
  (hp : ∀ d, c ≠ .popped d) (hc : ∀ d, c = .called d → d ∈ popped) :
  Once (calls.set i c) popped ran where
  pending := by
    intro j d hj
    obtain ⟨-, hj⟩ | ⟨-, hj⟩ := getElem?_set_eq_some hj
    · exact absurd hj.symm (hp d)
    · exact h.pending j d hj
  unique := by
    intro j k d hj hk
    obtain ⟨-, hj⟩ | ⟨-, hj⟩ := getElem?_set_eq_some hj
    · exact absurd hj.symm (hp d)
    obtain ⟨-, hk⟩ | ⟨-, hk⟩ := getElem?_set_eq_some hk
    · exact absurd hk.symm (hp d)
    exact h.unique j k d hj hk
  called := by
    intro j d hj
    obtain ⟨-, hj⟩ | ⟨-, hj⟩ := getElem?_set_eq_some hj
    · exact hc d hj.symm
    · exact h.called j d hj
  nodup := h.nodup
  subset := h.subset

theorem Once.return (h : Once calls popped ran) : Once (calls.set i .returned) popped ran := by
  apply h.set
  · exact fun d hd ↦ ScheduleCall.noConfusion hd
  · exact fun d hd ↦ ScheduleCall.noConfusion hd

theorem Once.pop (h : Once calls popped ran) (he : e ∉ popped) :
  Once (calls.set i (.popped e)) (e :: popped) ran where
  pending := by
    intro j d hj
    obtain ⟨-, hj⟩ | ⟨-, hj⟩ := getElem?_set_eq_some hj
    · cases hj
      exact ⟨List.mem_cons_self, fun hr ↦ he (h.subset hr)⟩
    · obtain ⟨hp, hr⟩ := h.pending j d hj
      exact ⟨List.mem_cons_of_mem _ hp, hr⟩
  unique := by
    -- No call holds the event yet, as it has not been popped before.
    have ho (j : ℕ) (hj : calls[j]? = some (.popped e)) : False := he (h.pending j e hj).1
    intro j k d hj hk
    obtain ⟨hji, hj⟩ | ⟨-, hj⟩ := getElem?_set_eq_some hj
    · cases hj
      obtain ⟨hki, -⟩ | ⟨-, hk⟩ := getElem?_set_eq_some hk
      · exact hji.trans hki.symm
      · exact (ho k hk).elim
    · obtain ⟨-, hk⟩ | ⟨-, hk⟩ := getElem?_set_eq_some hk
      · cases hk
        exact (ho j hj).elim
      · exact h.unique j k d hj hk
  called := by
    intro j d hj
    obtain ⟨-, hj⟩ | ⟨-, hj⟩ := getElem?_set_eq_some hj
    · cases hj
    · exact List.mem_cons_of_mem _ (h.called j d hj)
  nodup := h.nodup
  subset := List.subset_cons_of_subset _ h.subset

theorem Once.skip (h : Once calls popped ran) (hi : calls[i]? = some (.popped e)) :
  Once (calls.set i (.called e)) popped ran := by
  apply h.set
  · exact fun d hd ↦ ScheduleCall.noConfusion hd
  · intro d hd
    cases hd
    exact (h.pending i e hi).1

theorem Once.run (h : Once calls popped ran) (hi : calls[i]? = some (.popped e)) :
  Once (calls.set i (.called e)) popped (e :: ran) where
  pending := by
    intro j d hj
    obtain ⟨-, hj'⟩ | ⟨hji, hj'⟩ := getElem?_set_eq_some hj
    · cases hj'
    · obtain ⟨hp, hr⟩ := h.pending j d hj'
      refine ⟨hp, List.not_mem_cons_of_ne_of_not_mem ?_ hr⟩
      intro hd
      subst hd
      exact hji (h.unique j i d hj' hi)
  unique := (h.skip hi).unique
  called := (h.skip hi).called
  nodup := List.nodup_cons.mpr ⟨(h.pending i e hi).2, h.nodup⟩
  subset := List.cons_subset.mpr ⟨(h.pending i e hi).1, h.subset⟩

end ReaverOS.Kernel.Timer
