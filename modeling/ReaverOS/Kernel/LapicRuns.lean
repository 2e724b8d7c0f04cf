import Mathlib.Algebra.Order.BigOperators.Group.List
import Mathlib.Tactic.Ring
import ReaverOS.Foundation.Runs
import ReaverOS.Kernel.LapicTimer

namespace ReaverOS.Kernel.LapicTimer

open Rosestd Foundation.Runs List

structure Ledger where
  timer : LapicTimer
  arms : List (ℕ × ℕ) := []
  unseen : ℕ := 0
  deriving DecidableEq

inductive Op
  | tick (n : ℕ)
  | updateNow
  | oneShotAfter (duration : ℤ)

def consume (n : ℕ) : List (ℕ × ℕ) → List (ℕ × ℕ)
  | [] => []
  | (divisor, ticks) :: arms => (divisor, ticks + n) :: arms

namespace Ledger

def step (s : Ledger) : Op → Option Ledger
  | .tick n => some {
      timer := { s.timer with counter := s.timer.counter - BitVec.ofNat 32 n }
      arms := consume n s.arms
      unseen := s.unseen + n }
  | .updateNow => s.timer.updateNow.map fun timer ↦ { s with timer, unseen := 0 }
  | .oneShotAfter duration => (s.timer.oneShotAfter ⟨duration⟩).map fun timer ↦
      { timer, arms := (timer.lastDivisor.toNat, 0) :: s.arms }

def Allowed (s : Ledger) : Op → Prop
  | .tick n => n ≤ s.timer.counter.toNat
  | .updateNow => True
  | .oneShotAfter duration => InRange s.timer.period.count duration ∧ s.unseen = 0

end Ledger

def total (p : ℤ) (arms : List (ℕ × ℕ)) : ℤ :=
  (arms.map fun arm ↦ (arm.2 * arm.1 * p : ℤ)).sum

/-- What is behind the last call is all that `_fine_now` lacks. Before the first arm there is no
divisor, and nothing is counted. -/
structure Accounts (p : ℤ) (s : Ledger) : Prop where
  period : s.timer.period.count = p
  bound : s.timer.lastWritten.toNat * s.timer.lastDivisor.toNat * p < 2 ^ 63
  armed : s.arms = [] ∧ s.timer.lastDivisor = 0 ∨
    ∃ ticks rest, s.arms = (s.timer.lastDivisor.toNat, ticks) :: rest ∧
      s.timer.counter.toNat + s.unseen = s.timer.lastWritten.toNat
  sum : s.timer.fineNow.count =
    (total p s.arms - s.unseen * s.timer.lastDivisor.toNat * p).bmod (2 ^ 128)

variable {s : LapicTimer} {a t : Ledger} {p d : ℤ} {n : ℕ}

theorem updateNow_eq {e : ℕ} (hp : 0 < s.period.count) (hlt : s.period.count < 2 ^ 63)
  (he : (s.lastWritten - s.counter).toNat * s.lastDivisor.toNat = e)
  (hb : e * s.period.count < 2 ^ 63) : ∃ now, s.updateNow = some { s with
    lastWritten := s.counter
    fineNow := ⟨(s.fineNow.count + e * s.period.count).bmod (2 ^ 128)⟩
    now } := by
  have ht : (e : ℤ) < 2 ^ (64 - 1) :=
    lt_of_le_of_lt (le_mul_of_one_le_right (Int.natCast_nonneg e) hp) hb
  have hpr : s.period.count * e < 2 ^ (max 64 64 - 1) := (mul_comm _ _).trans_lt hb
  refine ⟨⟨((⟨(s.fineNow.count + e * s.period.count).bmod (2 ^ 128)⟩ :
    Duration 128 femto).count.tdiv 1000000).bmod (2 ^ 64)⟩, ?_⟩
  rw [updateNow, ← Nat.cast_mul, he, checked_of_nonneg (Int.natCast_nonneg _), if_pos ht,
    Option.bind_some, Duration.mul_of_nonneg (by decide) (by decide) _ hp.le hlt
    (Int.natCast_nonneg _), if_pos hpr, Option.bind_some, mul_comm s.period.count]
  dsimp only
  rw [durationCast_nano]
  rfl

theorem total_consume {divisor ticks : ℕ} {rest : List (ℕ × ℕ)} (n : ℕ) :
  total p (consume n ((divisor, ticks) :: rest)) =
  total p ((divisor, ticks) :: rest) + n * divisor * p := by
  simp only [total, consume, map_cons, sum_cons]
  push_cast
  ring

theorem Ledger.step_updateNow (h : a.timer.updateNow = some s) :
  a.step .updateNow = some { a with timer := s, unseen := 0 } := by
  rw [step, h]
  rfl

theorem Accounts.tick (h : Accounts p a) (hn : n ≤ a.timer.counter.toNat)
  (hs : a.step (.tick n) = some t) : Accounts p t := by
  cases hs
  refine ⟨h.period, h.bound, ?_, ?_⟩
  · obtain ⟨ha, hd⟩ | ⟨ticks, rest, ha, hc⟩ := h.armed
    · exact .inl ⟨by rw [ha]; rfl, hd⟩
    · refine .inr ⟨ticks + n, rest, by rw [ha]; rfl, ?_⟩
      have hlt := a.timer.counter.isLt
      dsimp only
      rw [BitVec.toNat_sub, BitVec.toNat_ofNat]
      omega
  · refine h.sum.trans ?_
    dsimp only
    obtain ⟨ha, hd⟩ | ⟨ticks, rest, ha, hc⟩ := h.armed
    · rw [ha, hd]
      simp [consume]
    · rw [ha, total_consume]
      congr 1
      push_cast
      ring

theorem Accounts.bound_of_le (h : Accounts p a) (hp : 0 < p) {m : ℕ}
  (hm : m ≤ a.timer.lastWritten.toNat) : m * a.timer.lastDivisor.toNat * p < 2 ^ 63 := by
  refine lt_of_le_of_lt (mul_le_mul_of_nonneg_right ?_ hp.le) h.bound
  exact_mod_cast Nat.mul_le_mul_right _ hm

theorem Accounts.updateNow (h : Accounts p a) (hp : 0 < p) (hlt : p < 2 ^ 63) :
  ∃ t, a.step .updateNow = some t ∧ Accounts p t := by
  obtain rfl := h.period
  have he : (a.timer.lastWritten - a.timer.counter).toNat * a.timer.lastDivisor.toNat =
      a.unseen * a.timer.lastDivisor.toNat := by
    obtain ⟨ha, hd⟩ | ⟨ticks, rest, ha, hc⟩ := h.armed
    · simp [hd]
    · rw [BitVec.toNat_sub_of_le (BitVec.le_def.mpr (by omega))]
      congr 1
      omega
  have hb : ((a.unseen * a.timer.lastDivisor.toNat : ℕ) : ℤ) * a.timer.period.count < 2 ^ 63 := by
    obtain ⟨ha, hd⟩ | ⟨ticks, rest, ha, hc⟩ := h.armed
    · simp [hd]
    · rw [Nat.cast_mul]
      exact h.bound_of_le hp (by omega)
  obtain ⟨now, heq⟩ := updateNow_eq hp hlt he hb
  refine ⟨_, Ledger.step_updateNow heq, rfl, ?_, ?_, ?_⟩
  · obtain ⟨ha, hd⟩ | ⟨ticks, rest, ha, hc⟩ := h.armed
    · simp [hd]
    · have hle : a.timer.counter.toNat ≤ a.timer.lastWritten.toNat := by omega
      exact h.bound_of_le hp hle
  · obtain ⟨ha, hd⟩ | ⟨ticks, rest, ha, hc⟩ := h.armed
    · exact .inl ⟨ha, hd⟩
    · exact .inr ⟨ticks, rest, ha, rfl⟩
  · -- what was unseen is added, and the sum is what all arms have consumed
    have hal : total a.timer.period.count a.arms -
        (0 : ℕ) * a.timer.lastDivisor.toNat * a.timer.period.count =
        total a.timer.period.count a.arms -
          a.unseen * a.timer.lastDivisor.toNat * a.timer.period.count +
          (a.unseen * a.timer.lastDivisor.toNat : ℕ) * a.timer.period.count := by
      push_cast
      ring
    refine Eq.trans ?_ (congrArg (Int.bmod · (2 ^ 128)) hal).symm
    refine Eq.trans ?_ Int.bmod_add_bmod
    rw [← h.sum]

theorem Accounts.oneShotAfter (h : Accounts p a) (hr : InRange p d) (hu : a.unseen = 0) :
  ∃ t, a.step (.oneShotAfter d) = some t ∧ Accounts p t := by
  obtain rfl := h.period
  obtain ⟨s', heq, hpe, hf, hp, hb⟩ := oneShotAfter_programmed hr
  rw [hpe] at hb
  refine ⟨_, congrArg (Option.map _) heq, congrArg Duration.count hpe, hb,
    .inr ⟨0, a.arms, rfl, ?_⟩, ?_⟩
  · exact congrArg BitVec.toNat hp.counter
  · dsimp only
    rw [hf, h.sum, hu]
    simp [total]

theorem Accounts.step (h : Accounts p a) (hp : 0 < p) (hlt : p < 2 ^ 63) {op : Op}
  (hop : a.Allowed op) : ∃ t, a.step op = some t ∧ Accounts p t := by
  cases op with
  | tick n => exact ⟨_, rfl, h.tick hop rfl⟩
  | updateNow => exact h.updateNow hp hlt
  | oneShotAfter duration => exact h.oneShotAfter (h.period ▸ hop.1) hop.2

theorem accounts_of_reachable {period : Femtoseconds} {counter : BitVec 32}
  (hp : 0 < period.count) (hlt : period.count < 2 ^ 63)
  (h : Reachable Ledger.step Ledger.Allowed { timer := { period, counter } } a) :
  Accounts period.count a := by
  refine h.invariant ?_ fun s op t hs hop hst ↦ ?_
  · exact ⟨rfl, by simp, .inl ⟨rfl, rfl⟩, by simp [total]⟩
  · obtain ⟨t', hst', ht⟩ := hs.step hp hlt hop
    cases hst.symm.trans hst'
    exact ht

theorem total_nonneg (hp : 0 < p) (arms : List (ℕ × ℕ)) : 0 ≤ total p arms := by
  refine sum_nonneg fun x hx ↦ ?_
  obtain ⟨arm, -, rfl⟩ := mem_map.mp hx
  positivity

theorem keeps_time (period : Femtoseconds) (hp : 0 < period.count)
    (hle : period.count ≤ 5 * 10 ^ 13) :
    (∀ (s : LapicTimer) (d : ℤ), s.period = period → 0 < d → d ≤ 92 * 10 ^ 11 →
      ∃ s', s.oneShotAfter ⟨d⟩ = some s' ∧ s'.period = period ∧ Programmed s' d) ∧
    ∀ (counter : BitVec 32) (s : Ledger),
      Reachable Ledger.step Ledger.Allowed { timer := { period, counter } } s →
      (∀ op, s.Allowed op → ∃ t, s.step op = some t) ∧ (s.unseen = 0 →
        s.timer.fineNow.count = (total period.count s.arms).bmod (2 ^ 128) ∧
        (total period.count s.arms < 2 ^ 127 →
          s.timer.fineNow.count = total period.count s.arms)) := by
  have hlt : period.count < 2 ^ 63 := hle.trans_lt (by norm_num)
  constructor
  · rintro s d rfl hd hd'
    obtain ⟨s', heq, hpe, -, hpr, -⟩ := oneShotAfter_programmed ⟨hp, hle, hd, hd'⟩
    exact ⟨s', heq, hpe, hpr⟩
  · intro counter s hs
    have ha := accounts_of_reachable hp hlt hs
    refine ⟨fun op hop ↦ ?_, fun hu ↦ ?_⟩
    · obtain ⟨t, hst, -⟩ := ha.step hp hlt hop
      exact ⟨t, hst⟩
    · have hsu := ha.sum
      rw [hu, Nat.cast_zero, zero_mul, zero_mul, sub_zero] at hsu
      refine ⟨hsu, fun hsm ↦ hsu.trans ?_⟩
      exact bmod_of_nonneg (by decide) (total_nonneg hp _) hsm

theorem keeps_time_forty_ticks :
  (∃ s', oneShotAfter { period := ⟨1000000⟩ } ⟨100⟩ = some s' ∧ s'.period = ⟨1000000⟩ ∧
  Programmed s' 100) ∧
  ∃ s, Reachable Ledger.step Ledger.Allowed { timer := { period := ⟨1000000⟩, counter := 0 } } s ∧
  s.unseen = 0 ∧ s.timer.fineNow.count = (total 1000000 s.arms).bmod (2 ^ 128) ∧
  s.arms = [(1, 40)] := by
  let armed : LapicTimer := {
    period := ⟨1000000⟩
    counter := 101
    divideConfiguration := 0b1011
    lastWritten := 101
    lastDivisor := 1 }
  have hru : Reachable Ledger.step Ledger.Allowed { timer := { period := ⟨1000000⟩, counter := 0 } }
      { timer := { armed with
          counter := 61, lastWritten := 61, fineNow := ⟨40000000⟩, now := ⟨40⟩ }
        arms := [(1, 40)] } := by
    refine .head (.oneShotAfter 100) ⟨⟨by decide, by decide, by decide, by decide⟩, rfl⟩
      (u := { timer := armed, arms := [(1, 0)] }) (by decide +kernel) ?_
    refine .head (.tick 40) (by decide : 40 ≤ 101) rfl ?_
    exact .head .updateNow trivial (by decide) (.refl _ _ _)
  obtain ⟨hp, hr⟩ := keeps_time ⟨1000000⟩ (by decide) (by decide)
  exact ⟨hp _ 100 rfl (by decide) (by decide),
    _, hru, rfl, ((hr 0 _ hru).2 rfl).1, rfl⟩

end ReaverOS.Kernel.LapicTimer
