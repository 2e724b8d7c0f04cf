import Mathlib.Tactic.LinearCombination
import ReaverOS.Rosestd.Chrono

namespace ReaverOS.Kernel

open Rosestd

structure Hpet where
  period : Femtoseconds
  mainCounter : BitVec 64
  configuration : BitVec 64 := 0
  comparator : BitVec 64 := 0
  rawNow : BitVec 64 := 0
  now : Nanoseconds := ⟨0⟩
  deriving DecidableEq

namespace Hpet

def updateNow (s : Hpet) : Option Hpet :=
  let rawNow := s.mainCounter
  (s.period.mul 128 rawNow.toNat).bind fun elapsed ↦
    (durationCast 64 nano elapsed).map fun now ↦ { s with rawNow, now }

def oneShotAfter (s : Hpet) (durationNs : Nanoseconds) : Option Hpet :=
  (durationNs.div s.period).map fun quotient ↦
    -- the other side of the comparison is unsigned, so the quotient is taken as unsigned too
    let actualCount := BitVec.ofInt 64 quotient
    let count := if actualCount > BitVec.allOnes 64 then BitVec.allOnes 64 else actualCount
    { s with
      configuration := s.configuration ||| (1 <<< 2)
      comparator := s.rawNow + count }

def Meets (s : Hpet) (triggerTime : ℤ) : Prop :=
  ∃ armed fired, s.oneShotAfter ⟨triggerTime - s.now.count⟩ = some armed ∧
    armed.rawNow < armed.comparator ∧
    { armed with mainCounter := armed.comparator }.updateNow = some fired ∧
    triggerTime ≤ fired.now.count

def timeAt (p r : ℤ) : ℤ := r * p / 1000000

/-- The femtoseconds of a long distance are cut to sixty-four bits, and so is their quotient. -/
def comparatorAt (p r d : ℤ) : ℤ :=
  (r + ((d * 1000000).bmod (2 ^ 64)).tdiv p) % 2 ^ 64

/-- For a short distance the comparator must not go around, and what one division cuts off must be
made up by the other. -/
def Exact (p r d : ℤ) : Prop :=
  d * 1000000 < 2 ^ 63 ∧ r + d * 1000000 / p < 2 ^ 64 ∧ d * 1000000 % p ≤ r * p % 1000000 ∨
    2 ^ 63 ≤ d * 1000000 ∧ r < comparatorAt p r d ∧
      timeAt p r + d ≤ (timeAt p (comparatorAt p r d)).bmod (2 ^ 64)

instance {p r d : ℤ} : Decidable (Exact p r d) := instDecidableOr

variable {s : Hpet} {p r d : ℤ}

theorem updateNow_eq (hp : 0 < s.period.count) (hlt : s.period.count < 2 ^ 63) :
  s.updateNow = some { s with
    rawNow := s.mainCounter
    now := ⟨(timeAt s.period.count s.mainCounter.toNat).bmod (2 ^ 64)⟩ } := by
  have hr : (s.mainCounter.toNat : ℤ) < 2 ^ 64 := by exact_mod_cast s.mainCounter.isLt
  have hpr : s.period.count * s.mainCounter.toNat < 2 ^ (max 128 64 - 1) := by
    calc s.period.count * s.mainCounter.toNat
        ≤ s.period.count * 2 ^ 64 := mul_le_mul_of_nonneg_left hr.le hp.le
      _ < 2 ^ 63 * 2 ^ 64 := mul_lt_mul_of_pos_right hlt (by norm_num)
      _ = 2 ^ (max 128 64 - 1) := by norm_num
  have he : 0 ≤ s.period.count * s.mainCounter.toNat := mul_nonneg hp.le (Int.natCast_nonneg _)
  rw [updateNow, Duration.mul_of_nonneg (by decide) (by decide) _ hp.le
    (hlt.trans (by norm_num)) (Int.natCast_nonneg _), if_pos hpr, Option.bind_some,
    durationCast_nano, Int.tdiv_eq_ediv_of_nonneg he, mul_comm]
  rfl

theorem oneShotAfter_eq (hp : 0 < s.period.count) (hlt : s.period.count < 2 ^ 63) (hd : 0 ≤ d)
  (hdl : d < 2 ^ 63) : s.oneShotAfter ⟨d⟩ = some { s with
    configuration := s.configuration ||| (1 <<< 2)
    comparator := s.rawNow +
      BitVec.ofInt 64 (((d * 1000000).bmod (2 ^ 64)).tdiv s.period.count) } := by
  -- no value of sixty-four bits is above the largest one
  have hn (c : BitVec 64) : ¬ c > BitVec.allOnes 64 := by
    have hlt := c.isLt
    rw [gt_iff_lt, BitVec.lt_def, BitVec.toNat_allOnes]
    omega
  rw [oneShotAfter, Duration.div_eq _ _ hd hdl hp hlt]
  simp only [Option.map_some, if_neg (hn _)]

end Hpet

end ReaverOS.Kernel
