import Mathlib.Tactic.IntervalCases
import Mathlib.Tactic.Linarith
import ReaverOS.Rosestd.Chrono

namespace ReaverOS.Kernel

open Rosestd Option

structure LapicTimer where
  period : Femtoseconds
  counter : BitVec 32 := 0
  divideConfiguration : BitVec 32 := 0
  fineNow : Duration 128 femto := ⟨0⟩
  now : Nanoseconds := ⟨0⟩
  lastWritten : BitVec 32 := 0
  lastDivisor : BitVec 8 := 0
  deriving DecidableEq

namespace LapicTimer

def dividePattern (val : BitVec 8) : Option (BitVec 32) :=
  if val = 1 then some 0b1011
  else if val = 2 then some 0b0000
  else if val = 4 then some 0b0001
  else if val = 8 then some 0b0010
  else if val = 16 then some 0b0011
  else if val = 32 then some 0b1000
  else if val = 64 then some 0b1001
  else if val = 128 then some 0b1010
  else none

def updateNow (s : LapicTimer) : Option LapicTimer :=
  let current := s.counter
  let last := s.lastWritten
  (checked 64 ((last - current).toNat * s.lastDivisor.toNat)).bind fun ticks ↦
    (s.period.mul 64 ticks).bind fun elapsed ↦
      let fineNow := ⟨(s.fineNow.count + elapsed.count).bmod (2 ^ 128)⟩
      (durationCast 64 nano fineNow).map fun now ↦
        { s with lastWritten := current, fineNow, now }

def ticks (period : Femtoseconds) (durationNs : Nanoseconds) (divisor : BitVec 8) : Option ℤ :=
  (period.mul 8 divisor.toNat).bind fun tick ↦ durationNs.div tick

def chooseDivisor (period : Femtoseconds) (durationNs : Nanoseconds) :
  ℕ → BitVec 8 → Option (BitVec 8)
  | 0, _ => none
  | rounds + 1, divisor =>
    (ticks period durationNs divisor).bind fun count ↦
      if count > 2 ^ 32 - 1 ∧ divisor ≠ 128 then
        chooseDivisor period durationNs rounds (divisor * 2)
      else some divisor

def oneShotAfter (s : LapicTimer) (durationNs : Nanoseconds) : Option LapicTimer :=
  (chooseDivisor s.period durationNs 8 1).bind fun divisor ↦
    (ticks s.period durationNs divisor).bind fun quotient ↦
      (checked 64 (quotient + 1)).bind fun count ↦
        let count := if count > 2 ^ 32 - 1 then 2 ^ 32 - 1 else count
        (dividePattern divisor).map fun pattern ↦
          { s with
            divideConfiguration := pattern
            counter := BitVec.ofInt 32 count
            lastWritten := BitVec.ofInt 32 count
            lastDivisor := divisor }

def estimatePeriod (ticks : BitVec 32) : Option Femtoseconds :=
  (durationCast 64 femto (⟨50⟩ : Duration 64 1000)).bind fun span ↦
    if ticks = 0 then none else some ⟨span.count.tdiv ticks.toNat⟩

structure InRange (p d : ℤ) : Prop where
  period_pos : 0 < p
  period_le : p ≤ 5 * 10 ^ 13
  pos : 0 < d
  le : d ≤ 92 * 10 ^ 11

structure Programmed (s : LapicTimer) (d : ℤ) : Prop where
  divisor : ∃ k ≤ 7, s.lastDivisor.toNat = 2 ^ k
  counter : s.counter = s.lastWritten
  count_pos : 1 ≤ s.lastWritten.toNat
  count_le : s.lastWritten.toNat ≤ 2 ^ 32 - 1
  late : d * 1000000 < s.lastWritten.toNat * s.lastDivisor.toNat * s.period.count ∨
    s.lastWritten.toNat = 2 ^ 32 - 1 ∧
      2 ^ 32 - 1 < d * 1000000 / (s.lastDivisor.toNat * s.period.count) + 1

variable {s s' : LapicTimer} {p d : ℤ} {k n : ℕ}

def divisorOf (k : ℕ) : BitVec 8 := BitVec.ofNat 8 (2 ^ k)

theorem toNat_divisorOf (hk : k ≤ 7) : (divisorOf k).toNat = 2 ^ k := by
  interval_cases k <;> rfl

theorem divisorOf_mul_two (hk : k < 7) : divisorOf k * 2 = divisorOf (k + 1) := by
  interval_cases k <;> rfl

theorem divisorOf_eq_iff (hk : k ≤ 7) : divisorOf k = 128 ↔ k = 7 := by
  interval_cases k <;> decide

theorem exists_dividePattern (hk : k ≤ 7) :
  ∃ pattern, dividePattern (divisorOf k) = some pattern := by
  interval_cases k <;> exact ⟨_, rfl⟩

theorem InRange.tick_pos (h : InRange p d) (k : ℕ) : 0 < 2 ^ k * p :=
  mul_pos (by positivity) h.period_pos

theorem InRange.tick_le (h : InRange p d) (hk : k ≤ 7) : 2 ^ k * p ≤ 64 * 10 ^ 14 := by
  have hp : (2 : ℤ) ^ k ≤ 2 ^ 7 := pow_le_pow_right₀ (by norm_num) hk
  calc 2 ^ k * p ≤ 2 ^ 7 * (5 * 10 ^ 13) :=
        mul_le_mul hp h.period_le h.period_pos.le (by norm_num)
    _ = 64 * 10 ^ 14 := by norm_num

theorem ticks_eq (h : InRange p d) (hk : k ≤ 7) :
  ticks ⟨p⟩ ⟨d⟩ (divisorOf k) = some (d * 1000000 / (2 ^ k * p)) := by
  have hd := h.le
  have hp := h.period_le
  have hpo := h.tick_pos k
  have hle := h.tick_le hk
  rw [mul_comm] at hpo hle
  have hc : ((divisorOf k).toNat : ℤ) = 2 ^ k := by
    rw [toNat_divisorOf hk]
    norm_cast
  rw [ticks, Duration.mul_of_nonneg (by decide) (by decide) _ h.period_pos.le
    (hp.trans_lt (by norm_num)) (Int.natCast_nonneg _), hc, if_pos (hle.trans_lt (by norm_num)),
    bind_some, mul_comm (2 ^ k) p]
  refine Duration.div_of_nonneg ⟨d⟩ ⟨p * 2 ^ k⟩ h.pos.le ?_ hpo (hle.trans_lt (by norm_num))
  dsimp only
  omega

theorem chooseDivisor_spec (h : InRange p d) (hn : n ≤ 7) :
  ∃ k ≤ 7, chooseDivisor ⟨p⟩ ⟨d⟩ (n + 1) (divisorOf (7 - n)) = some (divisorOf k) ∧
  (k = 7 ∨ d * 1000000 / (2 ^ k * p) ≤ 2 ^ 32 - 1) := by
  induction n with
  | zero =>
    refine ⟨7, le_rfl, ?_, .inl rfl⟩
    rw [chooseDivisor, ticks_eq h (Nat.sub_le 7 0), bind_some, if_neg fun hc ↦ hc.2 rfl]
  | succ n ih =>
    rw [chooseDivisor, ticks_eq h (Nat.sub_le 7 (n + 1)), bind_some]
    by_cases hb : d * 1000000 / (2 ^ (7 - (n + 1)) * p) > 2 ^ 32 - 1
    · have hne : divisorOf (7 - (n + 1)) ≠ 128 := by
        rw [ne_eq, divisorOf_eq_iff (Nat.sub_le 7 (n + 1))]
        omega
      rw [if_pos ⟨hb, hne⟩, divisorOf_mul_two (by omega),
        show 7 - (n + 1) + 1 = 7 - n by omega]
      exact ih (by omega)
    · exact ⟨7 - (n + 1), Nat.sub_le _ _, if_neg fun hc ↦ hb hc.1, .inr (not_lt.mp hb)⟩

def clamp (q : ℤ) : ℤ := if q + 1 > 2 ^ 32 - 1 then 2 ^ 32 - 1 else q + 1

theorem oneShotAfter_eq (h : InRange s.period.count d) :
  ∃ k ≤ 7, ∃ pa, s.oneShotAfter ⟨d⟩ = some { s with
    divideConfiguration := pa
    counter := BitVec.ofInt 32 (clamp (d * 1000000 / (2 ^ k * s.period.count)))
    lastWritten := BitVec.ofInt 32 (clamp (d * 1000000 / (2 ^ k * s.period.count)))
    lastDivisor := divisorOf k } := by
  obtain ⟨k, hk, hdi, -⟩ := chooseDivisor_spec h le_rfl
  obtain ⟨pa, hp⟩ := exists_dividePattern hk
  refine ⟨k, hk, pa, ?_⟩
  have hq := Int.ediv_nonneg (a := d * 1000000) (by have := h.pos; omega) (h.tick_pos k).le
  have hse := Int.ediv_le_self (2 ^ k * s.period.count) (a := d * 1000000) (by have := h.pos; omega)
  have hd := h.le
  have hs : d * 1000000 / (2 ^ k * s.period.count) + 1 < 2 ^ (64 - 1) := by omega
  have ht : ticks s.period ⟨d⟩ (divisorOf k) = _ := ticks_eq (p := s.period.count) h hk
  rw [oneShotAfter, show chooseDivisor s.period ⟨d⟩ 8 1 = some (divisorOf k) from hdi,
    bind_some, ht, bind_some, checked_of_nonneg (by omega), if_pos hs, bind_some, hp]
  rfl

theorem toNat_clamp {q : ℤ} (hq : 0 ≤ q) : ((BitVec.ofInt 32 (clamp q)).toNat : ℤ) = clamp q := by
  rw [BitVec.toNat_ofInt, clamp]
  split <;> omega

theorem oneShotAfter_programmed (h : InRange s.period.count d) :
  ∃ s', s.oneShotAfter ⟨d⟩ = some s' ∧ s'.period = s.period ∧ s'.fineNow = s.fineNow ∧
  Programmed s' d ∧ s'.lastWritten.toNat * s'.lastDivisor.toNat * s'.period.count < 2 ^ 63 := by
  obtain ⟨k, hk, pattern, heq⟩ := oneShotAfter_eq h
  have ht := h.tick_pos k
  have hle := h.tick_le hk
  have hd := h.le
  have hq := Int.ediv_nonneg (a := d * 1000000) (by have := h.pos; omega) ht.le
  have hco := toNat_clamp hq
  have hdi : ((divisorOf k).toNat : ℤ) = 2 ^ k := by
    rw [toNat_divisorOf hk]
    norm_cast
  have hp : 1 ≤ clamp (d * 1000000 / (2 ^ k * s.period.count)) := by
    rw [clamp]
    split <;> omega
  have hp' : 1 ≤ (BitVec.ofInt 32 (clamp (d * 1000000 / (2 ^ k * s.period.count)))).toNat := by
    omega
  refine ⟨_, heq, rfl, rfl, ⟨⟨k, hk, toNat_divisorOf hk⟩, rfl, hp',
    Nat.le_pred_of_lt (BitVec.isLt _), ?_⟩, ?_⟩
  · dsimp only
    rw [hco, hdi, mul_assoc]
    by_cases hc : d * 1000000 / (2 ^ k * s.period.count) + 1 > 2 ^ 32 - 1
    · refine .inr ⟨?_, hc⟩
      have heq : clamp (d * 1000000 / (2 ^ k * s.period.count)) = 2 ^ 32 - 1 := if_pos hc
      omega
    · left
      rw [clamp, if_neg hc]
      exact Int.lt_ediv_add_one_mul_self _ ht
  · dsimp only
    rw [hco, hdi, mul_assoc]
    calc clamp (d * 1000000 / (2 ^ k * s.period.count)) * (2 ^ k * s.period.count)
        ≤ (d * 1000000 / (2 ^ k * s.period.count) + 1) * (2 ^ k * s.period.count) := by
          refine mul_le_mul_of_nonneg_right ?_ ht.le
          rw [clamp]
          split <;> omega
      _ = d * 1000000 / (2 ^ k * s.period.count) * (2 ^ k * s.period.count) +
            2 ^ k * s.period.count := by rw [add_mul, one_mul]
      _ ≤ d * 1000000 + 2 ^ k * s.period.count := by
          have := Int.ediv_mul_le (d * 1000000) ht.ne'
          omega
      _ < 2 ^ 63 := by omega

end LapicTimer

end ReaverOS.Kernel
