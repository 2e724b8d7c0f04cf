import ReaverOS.Kernel.Timer
import ReaverOS.Kernel.TreeHeapPop

namespace ReaverOS.Kernel.Timer

open Function Option

section

open Foundation.BinaryHeap List

variable {s : Timer} {e i : ℕ} {now du : ℤ}

theorem strictWeak_compare (tr : ℕ → ℤ) : StrictWeak (compare tr) := by
  refine ⟨fun a b h ↦ ?_, fun a b c h h' ↦ ?_⟩
  all_goals simp only [compare, decide_eq_true_eq] at *
  all_goals omega

structure Good (s : Timer) : Prop where
  id : s.nextId < 2 ^ 63
  heap : ∃ xs, s.heap.Valid (compare s.triggerTime) xs ∧
    ∀ e, e ∈ xs ↔ 1 ≤ e ∧ e ≤ s.nextId ∧ e ∉ s.popped
  fresh : ∀ e, s.nextId < e →
    s.heap.prev e = none ∧ s.heap.next e = none ∧ s.heap.treeParent e = none
  due : ∀ e ∈ s.popped, e ≤ s.nextId ∧ s.triggerTime e ≤ s.now
  once : Once s.calls s.popped (s.ran.map Prod.fst)
  punctual : ∀ p ∈ s.ran, s.triggerTime p.1 ≤ p.2

theorem good_initial (now : ℤ) : Good { now } where
  id := Nat.two_pow_pos 63
  heap := by
    refine ⟨[], TreeHeap.valid_nil rfl rfl 0, fun e ↦ ⟨fun he ↦ absurd he not_mem_nil, ?_⟩⟩
    intro h
    exact absurd (h.1.trans h.2.1) (Nat.not_succ_le_zero 0)
  fresh := fun _ _ ↦ ⟨rfl, rfl, rfl⟩
  due := fun _ he ↦ absurd he not_mem_nil
  once := ⟨by simp, by simp, by simp, nodup_nil, List.Subset.refl _⟩
  punctual := fun _ hp ↦ absurd hp not_mem_nil

theorem Good.holds_iff (g : Good s) : s.Holds e ↔ 1 ≤ e ∧ e ≤ s.nextId ∧ e ∉ s.popped := by
  obtain ⟨xs, hv, hm⟩ := g.heap
  rw [← hm]
  constructor
  · rintro ⟨path, hp⟩
    exact hv.follow.2 path e hp
  · intro h
    exact (hv.follow.1 e h).exists

theorem Good.updateNow (g : Good s) (h : s.now ≤ now) : Good { s with now } where
  id := g.id
  heap := g.heap
  fresh := g.fresh
  due := fun e he ↦ ⟨(g.due e he).1, (g.due e he).2.trans h⟩
  once := g.once
  punctual := g.punctual

theorem Good.enter (g : Good s) : Good { s with calls := s.calls ++ [.entered] } where
  id := g.id
  heap := g.heap
  fresh := g.fresh
  due := g.due
  once := g.once.enter
  punctual := g.punctual

theorem updateNow_eq (h : s.now ≤ now) : s.updateNow now = some { s with now } := if_pos h

theorem periodic_eq_false (h : e < 2 ^ 63) : periodic e = false := Nat.testBit_lt_two_pow h

theorem register_spec (g : Good s) (hno : s.now ≤ now) (hid : s.nextId + 1 < 2 ^ 63) :
  ∃ t, s.register now du = some t ∧ Good t ∧ t.calls = s.calls ++ [.entered] := by
  obtain ⟨xs, hv, hm⟩ := g.heap
  have hne : s.nextId + 1 ∉ xs := by
    intro h
    have := ((hm _).mp h).2.1
    omega
  have ho {e : ℕ} (he : e ≤ s.nextId) :
    update s.triggerTime (s.nextId + 1) (now + du) e = s.triggerTime e :=
    update_of_ne (by omega) ..
  have hl := strictWeak_compare (update s.triggerTime (s.nextId + 1) (now + du))
  have hc : s.heap.Valid (compare (update s.triggerTime (s.nextId + 1) (now + du))) xs := by
    refine hv.congr rfl rfl (fun _ _ ↦ ⟨rfl, rfl, rfl⟩) ?_
    intro x hx y hy
    rw [compare, compare, ho ((hm x).mp hx).2.1, ho ((hm y).mp hy).2.1]
  obtain ⟨heap, hpu, hv', hf⟩ := hc.push hl hne fun _ ↦ g.fresh _ (Nat.lt_succ_self _)
  refine ⟨{ s with
    now
    nextId := s.nextId + 1
    triggerTime := update s.triggerTime (s.nextId + 1) (now + du)
    valid := update s.valid (s.nextId + 1) true
    heap
    calls := s.calls ++ [.entered] }, ?_, ⟨hid, ⟨_, hv', ?_⟩, ?_, ?_, g.once.enter, ?_⟩, rfl⟩
  · rw [register, updateNow_eq hno]
    simp only [bind_some, periodic_eq_false hid, Bool.false_eq_true, if_false, hpu, map_some]
  · intro e
    have hnt : s.nextId + 1 ∉ s.popped := by
      intro h
      have := (g.due _ h).1
      omega
    rw [mem_cons, hm]
    constructor
    · intro h
      obtain rfl | h := h
      · exact ⟨Nat.succ_pos _, le_rfl, hnt⟩
      · exact ⟨h.1, Nat.le_succ_of_le h.2.1, h.2.2⟩
    · intro h
      obtain hle | heq := Nat.le_or_eq_of_le_succ h.2.1
      · exact .inr ⟨h.1, hle, h.2.2⟩
      · exact .inl heq
  · intro e he
    have hlt := Nat.lt_of_succ_lt he
    have hou : e ∉ (s.nextId + 1) :: xs := by
      refine not_mem_cons_of_ne_of_not_mem (ne_of_gt he) fun h ↦ ?_
      exact absurd ((hm e).mp h).2.1 hlt.not_ge
    obtain ⟨hpr, hn, hpa⟩ := hf e hou
    obtain ⟨hpr', hn', hpa'⟩ := g.fresh e hlt
    exact ⟨hpr.trans hpr', hn.trans hn', hpa.trans hpa'⟩
  · intro e he
    obtain ⟨hle, hd⟩ := g.due e he
    exact ⟨Nat.le_succ_of_le hle, (ho hle).le.trans (hd.trans hno)⟩
  · intro p hp
    have hle := (g.due p.1 (g.once.subset (mem_map_of_mem hp))).1
    exact (ho hle).le.trans (g.punctual p hp)

theorem Good.return (g : Good s) (a : Option ℤ) :
  Good { s with oneShotAfter := a, calls := s.calls.set i .returned } where
  id := g.id
  heap := g.heap
  fresh := g.fresh
  due := g.due
  once := g.once.return
  punctual := g.punctual

theorem Good.top {top : ℕ} (g : Good s) (ht : s.heap.top = some top) :
  ∃ xs, s.heap.Valid (compare s.triggerTime) xs ∧
  (∀ e, e ∈ xs ↔ 1 ≤ e ∧ e ≤ s.nextId ∧ e ∉ s.popped) ∧ top ∈ xs ∧
  ∀ e ∈ xs, s.triggerTime top ≤ s.triggerTime e := by
  obtain ⟨xs, hv, hm⟩ := g.heap
  have hne : xs ≠ [] := by
    intro h
    subst h
    rw [hv.top_eq_none] at ht
    cases ht
  obtain ⟨x, hx, hxt, hl⟩ := hv.top (strictWeak_compare _) hne
  obtain rfl : x = top := some.inj (hxt.symm.trans ht)
  refine ⟨xs, hv, hm, hx, fun e he ↦ ?_⟩
  simpa [compare] using hl e he

theorem Good.settled {top : ℕ} (g : Good s) (ht : s.heap.top = some top)
  (hf : s.now < s.triggerTime top)
  (ha : s.oneShotAfter = some (s.triggerTime top - s.now)) : s.Settled := by
  obtain ⟨xs, -, hm, hx, hl⟩ := g.top ht
  have hmi (e : ℕ) (he : s.Holds e) : s.triggerTime top ≤ s.triggerTime e :=
    hl e ((hm e).mpr (g.holds_iff.mp he))
  refine ⟨fun e he ↦ hf.trans_le (hmi e he), fun e he ↦ ⟨top, ?_, hmi, ha⟩⟩
  exact g.holds_iff.mpr ((hm top).mp hx)

theorem Good.settled_of_top_eq_none (g : Good s) (ht : s.heap.top = none) : s.Settled := by
  have hem (e : ℕ) : ¬ s.Holds e := by
    rintro ⟨path, hp⟩
    obtain ⟨xs, hv, -⟩ := g.heap
    have hne := ne_nil_of_mem (hv.follow.2 path e hp)
    obtain ⟨x, -, hx, -⟩ := hv.top (strictWeak_compare _) hne
    rw [ht] at hx
    cases hx
  exact ⟨fun e he ↦ absurd he (hem e), fun e he ↦ absurd he (hem e)⟩

theorem Good.pop {top : ℕ} (g : Good s) (ht : s.heap.top = some top)
  (hdu : s.triggerTime top ≤ s.now) :
  ∃ e heap, s.heap.pop (compare s.triggerTime) = some (some e, heap) ∧
  Good { s with heap, calls := s.calls.set i (.popped e), popped := e :: s.popped } := by
  obtain ⟨xs, hv, hm, hx, -⟩ := g.top ht
  obtain ⟨e, heap, hpo, he, hl, hv', -, hf⟩ := hv.pop (strictWeak_compare _) (ne_nil_of_mem hx)
  obtain ⟨hps, hle, hno⟩ := (hm e).mp he
  have hmi : s.triggerTime e ≤ s.triggerTime top := by
    simpa [compare] using hl top hx
  refine ⟨e, heap, hpo, g.id, ⟨_, hv', fun d ↦ ?_⟩, fun d hd ↦ ?_, ?_, g.once.pop hno, g.punctual⟩
  · rw [hv.nodup.mem_erase_iff, hm, mem_cons, not_or]
    tauto
  · have ho : d ∉ xs.erase e := by
      intro h
      exact absurd ((hm d).mp (mem_of_mem_erase h)).2.1 (Nat.not_le_of_gt hd)
    obtain ⟨hpr, hn, hp⟩ := hf d ho
    obtain ⟨hpr', hn', hp'⟩ := g.fresh d hd
    exact ⟨hpr.trans hpr', hn.trans hn', hp.trans hp'⟩
  · intro d hd
    obtain rfl | hd := mem_cons.mp hd
    · exact ⟨hle, hmi.trans hdu⟩
    · exact g.due d hd

theorem scheduleNext_spec (g : Good s) : ∃ t, s.scheduleNext i = some t ∧ Good t ∧
  ((∃ e, t.calls = s.calls.set i (.popped e)) ∨ t.calls = s.calls.set i .returned ∧ t.Settled) := by
  rw [scheduleNext]
  cases ht : s.heap.top with
  | none =>
    refine ⟨_, rfl, g.return s.oneShotAfter, .inr ⟨rfl, ?_⟩⟩
    exact (g.return s.oneShotAfter).settled_of_top_eq_none ht
  | some top =>
    dsimp only
    split
    case isTrue hd =>
      obtain ⟨e, heap, hp, hg⟩ := g.pop ht hd
      rw [hp]
      exact ⟨_, rfl, hg, .inl ⟨e, rfl⟩⟩
    case isFalse hf =>
      refine ⟨_, rfl, g.return _, .inr ⟨rfl, ?_⟩⟩
      exact (g.return _).settled ht (not_le.mp hf) rfl

theorem load_spec (g : Good s) (hi : s.calls[i]? = some (.popped e)) :
  ∃ t, s.load i = some t ∧ Good t ∧ t.calls = s.calls.set i (.called e) := by
  rw [load, hi]
  dsimp only
  split
  · refine ⟨_, rfl, ⟨g.id, g.heap, g.fresh, g.due, g.once.run hi, ?_⟩, rfl⟩
    intro p hp
    obtain rfl | hp := mem_cons.mp hp
    · exact (g.due e (g.once.pending i e hi).1).2
    · exact g.punctual p hp
  · exact ⟨_, rfl, ⟨g.id, g.heap, g.fresh, g.due, g.once.skip hi, g.punctual⟩, rfl⟩

theorem lock_spec (g : Good s) (hn : s.now ≤ now)
  (hi : s.calls[i]? = some .entered ∨ ∃ e, s.calls[i]? = some (.called e)) :
  ∃ t, s.lock i now = some t ∧ Good t ∧ ((∃ e, t.calls = s.calls.set i (.popped e)) ∨
  t.calls = s.calls.set i .returned ∧ t.Settled) := by
  rw [lock]
  obtain hi | ⟨e, hi⟩ := hi
  · rw [hi]
    dsimp only
    rw [updateNow_eq hn]
    exact scheduleNext_spec (g.updateNow hn)
  · have hid : e < 2 ^ 63 := (g.due e (g.once.called i e hi)).1.trans_lt g.id
    rw [hi]
    dsimp only
    rw [updateNow_eq hn, bind_some, if_neg (by rw [periodic_eq_false hid]; simp)]
    exact scheduleNext_spec (g.updateNow hn)

end

open Foundation.Runs

variable {s t : Timer} {op : Op} {e i : ℕ} {now du : ℤ}

def ReturnsSettled (s t : Timer) : Prop :=
  ∀ i : ℕ, t.calls[i]? = some .returned → s.calls[i]? ≠ some .returned → t.Settled

theorem returnsSettled_of_enter (h : t.calls = s.calls ++ [.entered]) : ReturnsSettled s t := by
  intro i hi hn
  rw [h] at hi
  refine absurd ?_ hn
  grind

theorem returnsSettled_of_eq (h : t.calls = s.calls) : ReturnsSettled s t := by
  intro i hi hn
  rw [h] at hi
  exact absurd hi hn

theorem returnsSettled_of_set {c : ScheduleCall} (h : t.calls = s.calls.set i c)
  (hs : c = .returned → t.Settled) : ReturnsSettled s t := by
  intro j hj hn
  rw [h] at hj
  obtain ⟨-, hc⟩ | ⟨-, hj⟩ := getElem?_set_eq_some hj
  · exact hs hc.symm
  · exact absurd hj hn

theorem step_spec (g : Good s) (h : s.Possible op) :
  ∃ t, s.step op = some t ∧ Good t ∧ ReturnsSettled s t := by
  cases op with
  | oneShot now du =>
    obtain ⟨t, hs, hg, hc⟩ := register_spec g h.1 h.2
    exact ⟨t, hs, hg, returnsSettled_of_enter hc⟩
  | interrupt => exact ⟨_, rfl, g.enter, returnsSettled_of_enter rfl⟩
  | now now => exact ⟨_, updateNow_eq h, g.updateNow h, returnsSettled_of_eq rfl⟩
  | lock i now =>
    obtain ⟨t, hs, hg, ⟨e, hc⟩ | ⟨hc, hse⟩⟩ := lock_spec g h.1 h.2
    · exact ⟨t, hs, hg, returnsSettled_of_set hc fun h ↦ ScheduleCall.noConfusion h⟩
    · exact ⟨t, hs, hg, returnsSettled_of_set hc fun _ ↦ hse⟩
  | load i =>
    obtain ⟨e, hi⟩ := h
    obtain ⟨t, hs, hg, hc⟩ := load_spec g hi
    exact ⟨t, hs, hg, returnsSettled_of_set hc fun h ↦ ScheduleCall.noConfusion h⟩
  | cancel e =>
    refine ⟨_, if_pos h, ?_, returnsSettled_of_eq rfl⟩
    exact ⟨g.id, g.heap, g.fresh, g.due, g.once, g.punctual⟩

theorem updateNow_eq_some (h : s.updateNow now = some t) : s.now ≤ now ∧ t = { s with now } := by
  rw [updateNow] at h
  split at h
  case isTrue hn =>
    cases h
    exact ⟨hn, rfl⟩
  case isFalse => cases h

theorem possible_of_step (g : Good s) (h : s.step op = some t) : s.Possible op := by
  cases op with
  | oneShot now du =>
    obtain ⟨u, hu, h⟩ := bind_eq_some_iff.mp h
    obtain ⟨hn, rfl⟩ := updateNow_eq_some hu
    refine ⟨hn, lt_of_le_of_ne g.id ?_⟩
    intro hq
    dsimp only at h
    rw [if_pos (by rw [hq]; decide)] at h
    cases h
  | interrupt => trivial
  | now now => exact (updateNow_eq_some h).1
  | lock i now =>
    rw [step, lock] at h
    split at h
    case h_1 hi =>
      obtain ⟨u, hu, -⟩ := bind_eq_some_iff.mp h
      exact ⟨(updateNow_eq_some hu).1, .inl hi⟩
    case h_2 event hi =>
      obtain ⟨u, hu, -⟩ := bind_eq_some_iff.mp h
      exact ⟨(updateNow_eq_some hu).1, .inr ⟨event, hi⟩⟩
    case h_3 => cases h
  | load i =>
    rw [step, load] at h
    split at h
    case h_1 event hi => exact ⟨event, hi⟩
    case h_2 => cases h
  | cancel e =>
    rw [step, cancel] at h
    split at h
    case isTrue he => exact he
    case isFalse => cases h

theorem Good.step (g : Good s) (h : s.step op = some t) : Good t ∧ ReturnsSettled s t := by
  obtain ⟨u, hu, hg, hr⟩ := step_spec g (possible_of_step g h)
  obtain rfl : u = t := some.inj (hu.symm.trans h)
  exact ⟨hg, hr⟩

theorem good_of_reachable (h : Reachable step Unrestricted { now } s) : Good s :=
  h.invariant (good_initial now) fun _ _ _ g _ hs ↦ (g.step hs).1

theorem register_eq_some (h : s.register now du = some t) :
  t.nextId = s.nextId + 1 ∧ t.valid = update s.valid (s.nextId + 1) true ∧ t.ran = s.ran := by
  obtain ⟨u, hu, h⟩ := bind_eq_some_iff.mp h
  obtain ⟨-, rfl⟩ := updateNow_eq_some hu
  dsimp only at h
  split at h
  · cases h
  · obtain ⟨he, -, rfl⟩ := map_eq_some_iff.mp h
    exact ⟨rfl, rfl, rfl⟩

theorem scheduleNext_eq_some (h : s.scheduleNext i = some t) :
  t.nextId = s.nextId ∧ t.valid = s.valid ∧ t.ran = s.ran := by
  rw [scheduleNext] at h
  split at h
  · cases h
    exact ⟨rfl, rfl, rfl⟩
  · split at h
    · obtain ⟨⟨d, he⟩, -, h⟩ := bind_eq_some_iff.mp h
      obtain ⟨ev, -, rfl⟩ := map_eq_some_iff.mp h
      exact ⟨rfl, rfl, rfl⟩
    · cases h
      exact ⟨rfl, rfl, rfl⟩

theorem lock_eq_some (h : s.lock i now = some t) :
  t.nextId = s.nextId ∧ t.valid = s.valid ∧ t.ran = s.ran := by
  rw [lock] at h
  split at h
  · obtain ⟨u, hu, h⟩ := bind_eq_some_iff.mp h
    obtain ⟨hi, hv, hr⟩ := scheduleNext_eq_some h
    obtain ⟨-, rfl⟩ := updateNow_eq_some hu
    exact ⟨hi, hv, hr⟩
  · obtain ⟨u, hu, h⟩ := bind_eq_some_iff.mp h
    split at h
    · cases h
    · obtain ⟨hi, hv, hr⟩ := scheduleNext_eq_some h
      obtain ⟨-, rfl⟩ := updateNow_eq_some hu
      exact ⟨hi, hv, hr⟩
  · cases h

structure Dead (s : Timer) (e : ℕ) : Prop where
  le : e ≤ s.nextId
  valid : s.valid e = false
  ran : e ∉ s.ran.map Prod.fst

theorem Dead.step (d : Dead s e) (h : s.step op = some t) : Dead t e := by
  cases op with
  | oneShot now du =>
    obtain ⟨hi, hv, hr⟩ := register_eq_some h
    have hne : e ≠ s.nextId + 1 := (Nat.lt_succ_of_le d.le).ne
    refine ⟨hi ▸ Nat.le_succ_of_le d.le, ?_, hr ▸ d.ran⟩
    rw [hv, update_of_ne hne]
    exact d.valid
  | interrupt =>
    cases h
    exact ⟨d.le, d.valid, d.ran⟩
  | now now =>
    obtain ⟨-, rfl⟩ := updateNow_eq_some h
    exact ⟨d.le, d.valid, d.ran⟩
  | lock i now =>
    obtain ⟨hi, hv, hr⟩ := lock_eq_some h
    exact ⟨hi ▸ d.le, hv ▸ d.valid, hr ▸ d.ran⟩
  | load i =>
    rw [Timer.step, load] at h
    split at h
    case h_1 event _ =>
      cases h
      dsimp only
      split
      case isTrue he =>
        refine ⟨d.le, d.valid, List.not_mem_cons_of_ne_of_not_mem ?_ d.ran⟩
        rintro rfl
        rw [d.valid] at he
        cases he
      case isFalse => exact ⟨d.le, d.valid, d.ran⟩
    case h_2 => cases h
  | cancel d' =>
    rw [Timer.step, cancel] at h
    split at h
    · cases h
      refine ⟨d.le, ?_, d.ran⟩
      dsimp only
      rw [update_apply, d.valid, ite_self]
    · cases h

theorem dead_of_cancel (g : Good s) (he : e ∉ s.popped) (h : s.step (.cancel e) = some t) :
  Dead t e := by
  rw [Timer.step, cancel] at h
  split at h
  case isTrue hev =>
    cases h
    exact ⟨hev.2, update_self .., fun hr ↦ he (g.once.subset hr)⟩
  case isFalse => cases h

/-- Events are run at most once, not before their time and not when cancelled before they were
popped; the heap has those that were not popped, and each operation is completed. -/
structure Punctual (s : Timer) : Prop where
  once : (s.ran.map Prod.fst).Nodup
  due : ∀ p ∈ s.ran, s.triggerTime p.1 ≤ p.2
  cancelled : ∀ e t u, e ∉ s.popped → s.step (.cancel e) = some t →
    Reachable step Unrestricted t u → e ∉ u.ran.map Prod.fst
  settled : ∀ op t, s.step op = some t → ReturnsSettled s t
  holds : ∀ e, s.Holds e ↔ 1 ≤ e ∧ e ≤ s.nextId ∧ e ∉ s.popped
  completes : ∀ op, s.Possible op → (s.step op).isSome

theorem punctual_of_reachable (h : Reachable step Unrestricted { now } s) : Punctual s where
  once := (good_of_reachable h).once.nodup
  due := (good_of_reachable h).punctual
  cancelled := by
    intro e t u he hc hr
    have hd := dead_of_cancel (good_of_reachable h) he hc
    have hd' : Dead u e := hr.invariant hd fun _ _ _ d _ hs ↦ Dead.step d hs
    exact hd'.ran
  settled := fun op t hs ↦ ((good_of_reachable h).step hs).2
  holds := fun e ↦ (good_of_reachable h).holds_iff
  completes := by
    intro op ho
    obtain ⟨t, hs, -⟩ := step_spec (good_of_reachable h) ho
    exact isSome_of_eq_some hs

def nestedRun : List Op :=
  [.oneShot 0 10, .lock 0 0, .interrupt, .lock 1 12, .load 1, .oneShot 12 5, .lock 2 12,
    .lock 1 13, .cancel 2]

theorem punctual_nestedRun : ∃ s, Reachable step Unrestricted { now := 0 } s ∧
  (s.ran = [(1, 12)] ∧ s.oneShotAfter = some 4) ∧ Punctual s := by
  have hru : (exec step { now := 0 } nestedRun).any
    (fun s ↦ decide (s.ran = [(1, 12)] ∧ s.oneShotAfter = some 4)) = true := by
    decide
  obtain ⟨s, hr, hs⟩ := Reachable.of_any hru
  exact ⟨s, hr, of_decide_eq_true hs, punctual_of_reachable hr⟩

end ReaverOS.Kernel.Timer
