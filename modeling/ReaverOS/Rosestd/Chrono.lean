import Mathlib.Data.Nat.GCD.Basic
import Mathlib.Tactic.NormNum.GCD

namespace ReaverOS.Rosestd

def checked (bits : ℕ) (x : ℤ) : Option ℤ :=
  if -2 ^ (bits - 1) ≤ x ∧ x < 2 ^ (bits - 1) then some x else none

structure Duration (bits den : ℕ) where
  count : ℤ
  deriving DecidableEq

abbrev nano : ℕ := 1000000000

abbrev femto : ℕ := 1000000000000000

abbrev Nanoseconds := Duration 64 nano

abbrev Femtoseconds := Duration 64 femto

def durationCast (bits den : ℕ) {b d : ℕ} (x : Duration b d) : Option (Duration bits den) :=
  let cfNum := den / d.gcd den
  let cfDen := d / d.gcd den
  let cr := max (max bits b) 128
  if cfNum = 1 then
    if cfDen = 1 then some ⟨x.count.bmod (2 ^ bits)⟩
    else some ⟨(x.count.tdiv cfDen).bmod (2 ^ bits)⟩
  else
    if cfDen = 1 then (checked cr (x.count * cfNum)).map fun n ↦ ⟨n.bmod (2 ^ bits)⟩
    else (checked cr (x.count * cfNum)).map fun n ↦ ⟨(n.tdiv cfDen).bmod (2 ^ bits)⟩

namespace Duration

variable {b d b' d' : ℕ}

def mul (bits : ℕ) (s : ℤ) (x : Duration b d) : Option (Duration (max bits b) d) :=
  (durationCast (max bits b) d x).bind fun x ↦
    (checked (max bits b) (x.count * s)).map fun n ↦ ⟨n⟩

def div (x : Duration b d) (y : Duration b' d') : Option ℤ :=
  (durationCast (max b b') (d.lcm d') x).bind fun x ↦
    (durationCast (max b b') (d.lcm d') y).bind fun y ↦
      if y.count = 0 then none else checked (max b b') (x.count.tdiv y.count)

end Duration

variable {bits b d : ℕ} {x y : ℤ}

theorem checked_of_nonneg (hx : 0 ≤ x) :
  checked bits x = if x < 2 ^ (bits - 1) then some x else none := by
  have hl : -(2 : ℤ) ^ (bits - 1) ≤ x := (neg_nonpos.mpr (by positivity)).trans hx
  simp only [checked, hl, true_and]

theorem checked_tdiv (hy : 0 < y) (hl : -2 ^ (bits - 1) ≤ x) (hx : x < 2 ^ (bits - 1)) :
  checked bits (x.tdiv y) = some (x.tdiv y) := by
  have hn := Int.natAbs_tdiv_le_natAbs x y
  refine if_pos ?_
  rcases le_or_gt 0 x with h | h
  · have := Int.tdiv_nonneg h hy.le
    omega
  · have := Int.tdiv_nonneg (neg_nonneg.mpr h.le) hy.le
    rw [Int.neg_tdiv] at this
    omega

theorem bmod_of_nonneg (hb : 0 < bits) (hx : 0 ≤ x) (h : x < 2 ^ (bits - 1)) :
  x.bmod (2 ^ bits) = x := by
  obtain ⟨n, rfl⟩ := Nat.exists_eq_succ_of_ne_zero hb.ne'
  rw [Nat.succ_sub_one] at h
  apply Int.bmod_eq_of_le
  · exact (neg_nonpos.mpr (by positivity)).trans hx
  · rw [Nat.succ_eq_add_one, pow_succ]
    push_cast
    omega

theorem durationCast_same (hd : 0 < d) (hb : 0 < bits) (x : Duration b d) (hx : 0 ≤ x.count)
  (h : x.count < 2 ^ (bits - 1)) : durationCast bits d x = some ⟨x.count⟩ := by
  simp only [durationCast, Nat.gcd_self, Nat.div_self hd, if_true, bmod_of_nonneg hb hx h]

theorem durationCast_nano (x : Duration b femto) :
  durationCast 64 nano x = some ⟨(x.count.tdiv 1000000).bmod (2 ^ 64)⟩ := by
  have hg : Nat.gcd femto nano = nano := by norm_num
  rw [durationCast, hg]
  norm_num

theorem durationCast_femto (x : Nanoseconds) (hx : 0 ≤ x.count) (h : x.count < 2 ^ 63) :
  durationCast 64 femto x = some ⟨(x.count * 1000000).bmod (2 ^ 64)⟩ := by
  have hg : Nat.gcd nano femto = nano := by norm_num
  have hc : durationCast 64 femto x =
    (checked 128 (x.count * 1000000)).map fun n ↦ ⟨n.bmod (2 ^ 64)⟩ := by
    rw [durationCast, hg]
    norm_num
  rw [hc, checked_of_nonneg (by positivity), if_pos (by omega), Option.map_some]

namespace Duration

theorem mul_of_nonneg (hd : 0 < d) (hb : 0 < bits) {s : ℤ} (x : Duration b d)
  (hx : 0 ≤ x.count) (h : x.count < 2 ^ (max bits b - 1)) (hs : 0 ≤ s) : x.mul bits s =
  if x.count * s < 2 ^ (max bits b - 1) then some ⟨x.count * s⟩ else none := by
  rw [mul, durationCast_same hd (hb.trans_le (le_max_left _ _)) x hx h, Option.bind_some,
    checked_of_nonneg (mul_nonneg hx hs), apply_ite (Option.map _)]
  rfl

theorem div_eq (x : Nanoseconds) (y : Femtoseconds) (hx : 0 ≤ x.count) (h : x.count < 2 ^ 63)
  (hy : 0 < y.count) (hlt : y.count < 2 ^ 63) :
  x.div y = some (((x.count * 1000000).bmod (2 ^ 64)).tdiv y.count) := by
  have hl : Nat.lcm nano femto = femto := by norm_num
  rw [div, hl, max_self, durationCast_femto x hx h,
    durationCast_same (by decide) (by decide) y hy.le hlt]
  simp only [Option.bind_some, if_neg hy.ne']
  exact checked_tdiv hy (Int.le_bmod (by decide)) (Int.bmod_lt (by decide))

theorem div_of_nonneg (x : Nanoseconds) (y : Femtoseconds) (hx : 0 ≤ x.count)
  (h : x.count * 1000000 < 2 ^ 63) (hy : 0 < y.count) (hl : y.count < 2 ^ 63) :
  x.div y = some (x.count * 1000000 / y.count) := by
  rw [div_eq x y hx (by omega) hy hl, bmod_of_nonneg (by decide) (by positivity) h,
    Int.tdiv_eq_ediv_of_nonneg (by positivity)]

end Duration

end ReaverOS.Rosestd
