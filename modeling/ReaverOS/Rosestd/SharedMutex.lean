import Mathlib.Algebra.Group.Nat.Defs
import Mathlib.Logic.Function.Basic
import ReaverOS.Foundation.Runs
import ReaverOS.Foundation.Tally

namespace ReaverOS.Rosestd

open Function

inductive Place
  | outside
  | locking
  | exclusive
  | waiting
  | shared
  | refused
  deriving DecidableEq

def Place.isCounted : Place → Bool
  | waiting | shared | refused => true
  | outside | locking | exclusive => false

structure SharedMutex where
  lock : BitVec 64 := 0
  places : ℕ → Place := fun _ ↦ .outside

namespace SharedMutex

def uniqueMask : BitVec 64 := 1 <<< 63

/-- The atomic operations. `load` is the one in the loop of `lock_shared`, `giveBack` the
`fetch_sub` of `try_lock_shared`; `compare_exchange_weak` may fail for no reason. -/
inductive Op
  | lock (spurious : Bool)
  | tryLock
  | unlock
  | lockShared
  | load
  | unlockShared
  | tryLockShared
  | giveBack

def move (s : SharedMutex) (thread : ℕ) (lock : BitVec 64) (place : Place) : SharedMutex :=
  { lock, places := update s.places thread place }

def act (s : SharedMutex) (thread : ℕ) : Place → Op → Option SharedMutex
  | .outside, .lock spurious | .locking, .lock spurious =>
    if spurious = false ∧ s.lock = 0 then some (s.move thread uniqueMask .exclusive)
    else some (s.move thread s.lock .locking)
  | .outside, .tryLock =>
    if s.lock = 0 then some (s.move thread uniqueMask .exclusive)
    else some (s.move thread s.lock .outside)
  | .exclusive, .unlock => some (s.move thread (s.lock ^^^ uniqueMask) .outside)
  | .outside, .lockShared =>
    if s.lock &&& uniqueMask ≠ 0 then some (s.move thread (s.lock + 1) .waiting)
    else some (s.move thread (s.lock + 1) .shared)
  | .waiting, .load =>
    if s.lock &&& uniqueMask ≠ 0 then some (s.move thread s.lock .waiting)
    else some (s.move thread s.lock .shared)
  | .outside, .tryLockShared =>
    if s.lock &&& uniqueMask ≠ 0 then some (s.move thread (s.lock + 1) .refused)
    else some (s.move thread (s.lock + 1) .shared)
  | .refused, .giveBack => some (s.move thread (s.lock - 1) .outside)
  | .shared, .unlockShared => some (s.move thread (s.lock - 1) .outside)
  | _, _ => none

def step (n : ℕ) (s : SharedMutex) (a : ℕ × Op) : Option SharedMutex :=
  if a.1 < n then s.act a.1 (s.places a.1) a.2 else none

theorem and_uniqueMask_eq_zero_iff (x : BitVec 64) : x &&& uniqueMask = 0 ↔ x.toNat < 2 ^ 63 := by
  have hb : x.getLsbD 63 = decide (2 ^ 63 ≤ x.toNat) := x.msb_eq_decide
  rw [show uniqueMask = BitVec.twoPow 64 63 by decide, BitVec.and_twoPow, hb]
  by_cases h : 2 ^ 63 ≤ x.toNat
  · simp
  · simp

theorem add_xor_uniqueMask {x : BitVec 64} (h : x &&& uniqueMask = 0) :
  (x + uniqueMask) ^^^ uniqueMask = x := by
  rw [BitVec.add_eq_or_of_and_eq_zero _ _ h]
  ext i hi
  have hb : (x[i] && uniqueMask[i]) = false := by
    rw [← BitVec.getElem_and, h]
    exact BitVec.getElem_zero hi
  rw [BitVec.getElem_xor, BitVec.getElem_or]
  revert hb
  cases x[i] <;> cases uniqueMask[i] <;> decide

end SharedMutex

end ReaverOS.Rosestd

namespace ReaverOS.Rosestd.SharedMutex

open Function Foundation Runs Option

def readers (n : ℕ) (s : SharedMutex) : ℕ := tally (fun p ↦ p.isCounted = true) s.places n

theorem readers_le (n : ℕ) (s : SharedMutex) : readers n s ≤ n := Nat.count_le _

structure Sound (n : ℕ) (s : SharedMutex) (writer : Option ℕ) : Prop where
  lock : s.lock = BitVec.ofNat 64 (readers n s) + if writer.isSome then uniqueMask else 0
  exclusive : ∀ i < n, s.places i = .exclusive ↔ writer = some i
  lt : ∀ i, writer = some i → i < n
  shared : writer.isSome → ∀ i < n, s.places i ≠ .shared

variable {n i : ℕ} {s : SharedMutex} {writer : Option ℕ} {p : Place}

theorem readers_move (hi : i < n) (l : BitVec 64) (p : Place) :
  readers n (s.move i l p) + (if (s.places i).isCounted = true then 1 else 0) =
  readers n s + if p.isCounted = true then 1 else 0 :=
  tally_update hi p

theorem toNat_readers (hn : n < 2 ^ 63) : (BitVec.ofNat 64 (readers n s)).toNat = readers n s := by
  have := readers_le n s
  rw [BitVec.toNat_ofNat]
  omega

theorem Sound.toNat_lock (h : Sound n s writer) (hn : n < 2 ^ 63) :
  s.lock.toNat = readers n s + if writer.isSome then 2 ^ 63 else 0 := by
  have hle := readers_le n s
  rw [h.lock, BitVec.toNat_add, toNat_readers hn]
  cases writer with
  | none =>
    apply Nat.mod_eq_of_lt
    exact (hle.trans_lt hn).trans (Nat.pow_lt_pow_right Nat.one_lt_two (Nat.lt_succ_self 63))
  | some j =>
    have hm : uniqueMask.toNat = 2 ^ 63 := by decide
    rw [if_pos isSome_some, if_pos isSome_some, hm]
    apply Nat.mod_eq_of_lt
    rw [pow_succ 2 63]
    omega

theorem Sound.and_uniqueMask (h : Sound n s writer) (hn : n < 2 ^ 63) :
  s.lock &&& uniqueMask = 0 ↔ writer = none := by
  have hle := readers_le n s
  rw [and_uniqueMask_eq_zero_iff, h.toNat_lock hn]
  cases writer with
  | none => exact iff_of_true (hle.trans_lt hn) rfl
  | some j => exact iff_of_false (not_lt.mpr (Nat.le_add_left _ _)) (some_ne_none j)

theorem Sound.lock_eq_zero (h : Sound n s writer) (hn : n < 2 ^ 63) (hl : s.lock = 0) :
  writer = none ∧ readers n s = 0 := by
  have hc := h.toNat_lock hn
  rw [hl] at hc
  obtain ⟨hr, -⟩ := Nat.add_eq_zero_iff.mp hc.symm
  refine ⟨(h.and_uniqueMask hn).mp ?_, hr⟩
  rw [hl]
  exact BitVec.zero_and

theorem places_move (s : SharedMutex) (l : BitVec 64) (i j : ℕ) (p : Place) :
  (s.move i l p).places j = if j = i then p else s.places j :=
  update_apply ..

theorem Sound.move {lock : BitVec 64} (h : Sound n s writer) (hi : s.places i ≠ .exclusive)
  (hp : p ≠ .exclusive) (hs : p = .shared → writer = none)
  (hl : lock = BitVec.ofNat 64 (readers n (s.move i lock p)) +
  if writer.isSome then uniqueMask else 0) : Sound n (s.move i lock p) writer where
  lock := hl
  exclusive := by
    intro j hj
    rw [places_move]
    split
    case isTrue he =>
      subst he
      exact ⟨fun he ↦ absurd he hp, fun hw ↦ absurd ((h.exclusive j hj).mpr hw) hi⟩
    case isFalse => exact h.exclusive j hj
  lt := h.lt
  shared := by
    intro hw j hj
    rw [places_move]
    split
    · intro he
      rw [hs he] at hw
      cases hw
    · exact h.shared hw j hj

theorem Sound.stay (h : Sound n s writer) (hn : i < n) (hi : s.places i ≠ .exclusive)
  (hp : p ≠ .exclusive) (hs : p = .shared → writer = none)
  (hc : p.isCounted = (s.places i).isCounted) : Sound n (s.move i s.lock p) writer := by
  apply h.move hi hp hs
  have hr := readers_move (s := s) hn s.lock p
  rw [hc] at hr
  rw [Nat.add_right_cancel hr]
  exact h.lock

theorem Sound.add (h : Sound n s writer) (hn : i < n) (hi : s.places i = .outside)
  (hp : p.isCounted = true) (hs : p = .shared → writer = none) :
  Sound n (s.move i (s.lock + 1) p) writer := by
  have hne : p ≠ .exclusive := by
    rintro rfl
    cases hp
  apply h.move (by simp [hi]) hne hs
  have hr : readers n (s.move i (s.lock + 1) p) = readers n s + 1 := by
    have hm := readers_move (s := s) hn (s.lock + 1) p
    rwa [hi, if_pos hp, if_neg (by decide)] at hm
  rw [hr, BitVec.ofNat_add, h.lock]
  ac_rfl

theorem Sound.sub (h : Sound n s writer) (hn : i < n) (hi : (s.places i).isCounted = true) :
  Sound n (s.move i (s.lock - 1) .outside) writer := by
  have hne : s.places i ≠ .exclusive := by
    intro he
    rw [he] at hi
    cases hi
  apply h.move hne (by simp) (by simp)
  have hr : readers n (s.move i (s.lock - 1) .outside) + 1 = readers n s := by
    have hm := readers_move (s := s) hn (s.lock - 1) .outside
    rwa [if_pos hi, if_neg (by decide)] at hm
  apply BitVec.sub_eq_iff_eq_add.mpr
  rw [h.lock, ← hr, BitVec.ofNat_add]
  ac_rfl

theorem not_counted_of_readers_eq_zero (h : readers n s = 0) (hi : i < n) :
  (s.places i).isCounted ≠ true := by
  intro hc
  have hp : 0 < readers n s := tally_pos (P := fun p : Place ↦ p.isCounted = true) hi hc
  exact hp.ne' h

theorem Sound.acquire (h : Sound n s writer) (hn : n < 2 ^ 63) (hi : i < n) (hl : s.lock = 0) :
  Sound n (s.move i uniqueMask .exclusive) (some i) := by
  obtain ⟨rfl, hr⟩ := h.lock_eq_zero hn hl
  have hu := fun j hj ↦ not_counted_of_readers_eq_zero (i := j) hr hj
  have hm := readers_move (s := s) hi uniqueMask .exclusive
  rw [if_neg (hu i hi), if_neg (by decide), hr] at hm
  refine ⟨?_, fun j hj ↦ ?_, fun j hj ↦ some.inj hj ▸ hi, fun _ j hj ↦ ?_⟩
  · rw [add_zero] at hm
    rw [hm, if_pos isSome_some]
    exact (BitVec.zero_add _).symm
  · rw [places_move, some.injEq, eq_comm (a := i)]
    split
    case isTrue he => exact iff_of_true rfl he
    case isFalse hne =>
      refine iff_of_false (fun he ↦ ?_) hne
      cases (h.exclusive j hj).mp he
  · rw [places_move]
    split
    · exact Place.noConfusion
    · intro he
      apply hu j hj
      rw [he]
      rfl

theorem Sound.release (h : Sound n s writer) (hn : n < 2 ^ 63) (hin : i < n)
  (hi : s.places i = .exclusive) : Sound n (s.move i (s.lock ^^^ uniqueMask) .outside) none := by
  obtain rfl := (h.exclusive i hin).mp hi
  have hm := readers_move (s := s) hin (s.lock ^^^ uniqueMask) .outside
  rw [hi, if_neg (by decide), if_neg (by decide), add_zero, add_zero] at hm
  have hc : BitVec.ofNat 64 (readers n s) &&& uniqueMask = 0 := by
    rw [and_uniqueMask_eq_zero_iff, toNat_readers hn]
    exact (readers_le n s).trans_lt hn
  refine ⟨?_, fun j hj ↦ ?_, fun j hj ↦ (by cases hj), fun hno ↦ by cases hno⟩
  · rw [hm]
    have hl := h.lock
    rw [if_pos isSome_some] at hl
    rw [SharedMutex.move, hl, add_xor_uniqueMask hc]
    exact (BitVec.add_zero _).symm
  · rw [places_move]
    split
    · exact iff_of_false Place.noConfusion (some_ne_none j).symm
    case isFalse hne =>
      refine iff_of_false (fun he ↦ hne ?_) (some_ne_none j).symm
      exact (some.inj ((h.exclusive j hj).mp he)).symm

theorem Sound.act (h : Sound n s writer) (hn : n < 2 ^ 63) (hi : i < n) {op : Op} {t : SharedMutex}
  (ha : s.act i (s.places i) op = some t) : ∃ writer', Sound n t writer' := by
  have hf (hm : ¬ s.lock &&& uniqueMask ≠ 0) : writer = none :=
    (h.and_uniqueMask hn).mp (not_not.mp hm)
  generalize hp : s.places i = place at ha
  rw [SharedMutex.act.eq_def] at ha
  split at ha
  case h_1 =>
    split at ha <;> cases ha
    case isTrue hz => exact ⟨_, h.acquire hn hi hz.2⟩
    case isFalse =>
      exact ⟨_, h.stay hi (by simp [hp]) (by simp) (by simp) (by rw [hp]; rfl)⟩
  case h_2 =>
    split at ha <;> cases ha
    case isTrue hz => exact ⟨_, h.acquire hn hi hz.2⟩
    case isFalse => exact ⟨_, h.stay hi (by simp [hp]) (by simp) (by simp) (by rw [hp])⟩
  case h_3 =>
    split at ha <;> cases ha
    case isTrue hz => exact ⟨_, h.acquire hn hi hz⟩
    case isFalse => exact ⟨_, h.stay hi (by simp [hp]) (by simp) (by simp) (by rw [hp])⟩
  case h_4 =>
    cases ha
    exact ⟨_, h.release hn hi hp⟩
  case h_5 | h_7 =>
    split at ha <;> cases ha
    case isTrue => exact ⟨_, h.add hi hp rfl (by simp)⟩
    case isFalse hm => exact ⟨_, h.add hi hp rfl fun _ ↦ hf hm⟩
  case h_6 =>
    split at ha <;> cases ha
    case isTrue =>
      exact ⟨_, h.stay hi (by simp [hp]) (by simp) (by simp) (by rw [hp])⟩
    case isFalse hm =>
      exact ⟨_, h.stay hi (by simp [hp]) (by simp) (fun _ ↦ hf hm) (by rw [hp]; rfl)⟩
  case h_8 | h_9 =>
    cases ha
    exact ⟨_, h.sub hi (by rw [hp]; rfl)⟩
  case h_10 => cases ha

theorem readers_eq_zero (h : ∀ i < n, s.places i = .outside) : readers n s = 0 := by
  apply tally_eq_zero
  intro i hi
  rw [h i hi]
  exact Bool.false_ne_true

theorem sound_initial (n : ℕ) : Sound n {} none where
  lock := by
    rw [readers_eq_zero fun _ _ ↦ rfl]
    rfl
  exclusive := fun _ _ ↦ iff_of_false Place.noConfusion (by simp)
  lt := fun j hj ↦ by cases hj
  shared := fun hn ↦ by cases hn

theorem sound_of_reachable (hn : n < 2 ^ 63) (h : Reachable (step n) Unrestricted {} s) :
  ∃ writer, Sound n s writer := by
  apply Reachable.invariant h (I := fun s ↦ ∃ writer, Sound n s writer) ⟨none, sound_initial n⟩
  intro s a t hs _ hst
  obtain ⟨writer, hs⟩ := hs
  rw [step] at hst
  split at hst
  case isTrue hin => exact hs.act hn hin hst
  case isFalse => cases hst

theorem excludes_of_reachable (n : ℕ) (hn : n < 2 ^ 63) (s : SharedMutex)
    (h : Reachable (step n) Unrestricted {} s) :
    (∀ i j, i < n → j < n → i ≠ j → s.places i = .exclusive →
      s.places j ≠ .exclusive ∧ s.places j ≠ .shared) ∧
    ((∀ i < n, s.places i = .outside) → s.lock = 0) := by
  obtain ⟨writer, hs⟩ := sound_of_reachable hn h
  constructor
  · intro i j hi hj hij he
    obtain rfl := (hs.exclusive i hi).mp he
    refine ⟨fun hq ↦ hij ?_, hs.shared rfl j hj⟩
    exact some.inj ((hs.exclusive j hj).mp hq)
  · intro ha
    cases writer with
    | none =>
      rw [hs.lock, readers_eq_zero ha]
      rfl
    | some j =>
      have hj := hs.lt j rfl
      have he := (hs.exclusive j hj).mpr rfl
      rw [ha j hj] at he
      cases he

theorem excludes_threeThreads :
  ∃ s, Reachable (step 3) Unrestricted {} s ∧ (s.places 0 = .exclusive ∧
  s.places 1 = .waiting ∧ s.places 2 = .refused ∧ s.lock = uniqueMask + 2) ∧
  ((∀ i j, i < 3 → j < 3 → i ≠ j → s.places i = .exclusive →
  s.places j ≠ .exclusive ∧ s.places j ≠ .shared) ∧
  ((∀ i < 3, s.places i = .outside) → s.lock = 0)) := by
  have hru : (exec (step 3) {} [(0, .lock false), (1, .lockShared), (2, .tryLockShared)]).any
    (fun s ↦ decide (s.places 0 = .exclusive ∧ s.places 1 = .waiting ∧
    s.places 2 = .refused ∧ s.lock = uniqueMask + 2)) = true := by
    decide
  obtain ⟨s, hr, hs⟩ := Reachable.of_any hru
  exact ⟨s, hr, of_decide_eq_true hs, excludes_of_reachable 3 (by decide) s hr⟩

/-- An operation takes the thread to another place, so it is not stuck in a loop. -/
def Moves (n : ℕ) (s : SharedMutex) (thread : ℕ) : Prop :=
  ∃ op t, step n s (thread, op) = some t ∧ t.places thread ≠ s.places thread

theorem Sound.moves (h : Sound n s writer) (hn : n < 2 ^ 63) (hi : i < n)
  (hp : s.places i ≠ .outside) (hw : s.places i = .waiting → writer = none)
  (hl : s.places i = .locking → s.lock = 0) : Moves n s i := by
  simp only [Moves, step, if_pos hi]
  cases he : s.places i with
  | outside => exact absurd he hp
  | locking => exact ⟨.lock false, _, if_pos ⟨rfl, hl he⟩, by simp [places_move]⟩
  | exclusive => exact ⟨.unlock, _, rfl, by simp [places_move]⟩
  | waiting =>
    have hm := (h.and_uniqueMask hn).mpr (hw he)
    exact ⟨.load, _, if_neg (not_not_intro hm), by simp [places_move]⟩
  | shared => exact ⟨.unlockShared, _, rfl, by simp [places_move]⟩
  | refused => exact ⟨.giveBack, _, rfl, by simp [places_move]⟩

/-- There is no deadlock: if a thread is in one of the functions or in a section, then some such
thread can go on. -/
theorem moves_of_reachable (n : ℕ) (hn : n < 2 ^ 63) (s : SharedMutex)
    (h : Reachable (step n) Unrestricted {} s) (i : ℕ) (hi : i < n) (hp : s.places i ≠ .outside) :
    ∃ j < n, s.places j ≠ .outside ∧ Moves n s j := by
  obtain ⟨_ | j, hs⟩ := sound_of_reachable hn h
  · by_cases hr : ∃ j < n, (s.places j).isCounted = true
    · obtain ⟨j, hj, hc⟩ := hr
      have ho : s.places j ≠ .outside := fun he ↦ by simp [he, Place.isCounted] at hc
      refine ⟨j, hj, ho, hs.moves hn hj ho (fun _ ↦ rfl) fun he ↦ ?_⟩
      simp [he, Place.isCounted] at hc
    · -- nothing keeps the loop of `lock` from the lock
      refine ⟨i, hi, hp, hs.moves hn hi hp (fun _ ↦ rfl) fun _ ↦ ?_⟩
      have hz : readers n s = 0 := tally_eq_zero fun k hk hc ↦ hr ⟨k, hk, hc⟩
      rw [hs.lock, hz]
      rfl
  · have hj := hs.lt j rfl
    have he := (hs.exclusive j hj).mpr rfl
    exact ⟨j, hj, by simp [he], hs.moves hn hj (by simp [he]) (by simp [he]) (by simp [he])⟩

theorem moves_waiting : ∃ s, Reachable (step 3) Unrestricted {} s ∧ s.places 1 = .waiting ∧
  ∃ j < 3, s.places j ≠ .outside ∧ Moves 3 s j := by
  have hru : (exec (step 3) {} [(0, .lock false), (1, .lockShared), (2, .tryLockShared)]).any
    (fun s ↦ decide (s.places 1 = .waiting)) = true := by
    decide
  obtain ⟨s, hr, hs⟩ := Reachable.of_any hru
  have hw := of_decide_eq_true hs
  exact ⟨s, hr, hw, moves_of_reachable 3 (by decide) s hr 1 (by decide) (by simp [hw])⟩

end ReaverOS.Rosestd.SharedMutex
