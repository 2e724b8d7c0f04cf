import Mathlib.Algebra.Group.Nat.Defs
import Mathlib.Logic.Function.Basic

namespace ReaverOS.Foundation

open Function

abbrev ByteMemory := ℕ → UInt8

namespace ByteMemory

variable {m m' : ByteMemory} {a b n k v : ℕ}

def load (m : ByteMemory) : (a n : ℕ) → ℕ
  | _, 0 => 0
  | a, n + 1 => (m a).toNat + 256 * load m (a + 1) n

def store (m : ByteMemory) : (a n v : ℕ) → ByteMemory
  | _, 0, _ => m
  | a, n + 1, v => store (update m a (UInt8.ofNat v)) (a + 1) n (v / 256)

theorem store_apply_of_outside (h : b < a ∨ a + n ≤ b) : m.store a n v b = m b := by
  induction n generalizing m a v with
  | zero => rfl
  | succ n ih =>
    rw [store, ih (by omega), update_of_ne (by omega)]

theorem load_congr (h : ∀ b, a ≤ b → b < a + n → m b = m' b) : m.load a n = m'.load a n := by
  induction n generalizing a with
  | zero => rfl
  | succ n ih =>
    rw [load, load, h a (Nat.le_refl a) (by omega), ih fun b hle hlt ↦ h b (by omega) (by omega)]

theorem load_store_of_disjoint (h : b + k ≤ a ∨ a + n ≤ b) :
  (m.store a n v).load b k = m.load b k :=
  load_congr fun _ _ _ ↦ store_apply_of_outside (by omega)

theorem load_update_of_outside {c : UInt8} (h : b < a ∨ a + n ≤ b) :
  ByteMemory.load (update m b c) a n = m.load a n :=
  load_congr fun _ _ _ ↦ update_of_ne (by omega) _ _

theorem load_store (hv : v < 256 ^ n) : (m.store a n v).load a n = v := by
  induction n generalizing m a v with
  | zero =>
    rw [pow_zero] at hv
    rw [load]
    omega
  | succ n ih =>
    have hr : v / 256 < 256 ^ n := by
      rw [pow_succ] at hv
      omega
    rw [load, store, ih hr, store_apply_of_outside (.inl (Nat.lt_succ_self a)), update_self,
      UInt8.toNat_ofNat']
    omega

theorem store_load_apply {i : ℕ} (hi : i < n) : m.store a n (m'.load b n) (a + i) = m' (b + i) := by
  induction n generalizing m a b i with
  | zero => omega
  | succ n ih =>
    have hb : (m' b).toNat < 256 := (m' b).toNat_lt
    have hr : ((m' b).toNat + 256 * m'.load (b + 1) n) / 256 = m'.load (b + 1) n := by omega
    rw [store, load, hr]
    cases i with
    | zero =>
      rw [store_apply_of_outside (by omega)]
      simp
    | succ i =>
      have h := ih (m := update m a (UInt8.ofNat ((m' b).toNat + 256 * m'.load (b + 1) n)))
        (a := a + 1) (b := b + 1) (i := i) (by omega)
      rwa [Nat.add_right_comm a 1 i, Nat.add_right_comm b 1 i] at h

end ByteMemory

end ReaverOS.Foundation
