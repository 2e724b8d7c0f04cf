import Mathlib.Data.Nat.Bitwise
import ReaverOS.Foundation.ByteMemory

namespace ReaverOS.Rosestd.Cstring

open Foundation List

/-- A pointer to characters: those that can be read from it on. `none` stands for a read past
them, here and below. -/
abbrev Pointer := List UInt8

def skipString : Pointer → Option Pointer
  | [] => none
  | c :: s => if c = 0 then some s else skipString s

def strlen (start : Pointer) : Option ℕ :=
  (skipString start).map fun s ↦ start.length - s.length

def lengthLoop (ret : ℕ) : Pointer → Option ℕ
  | [] => none
  | c :: s => if c = 0 then some ret else lengthLoop (ret + 1) s

def traitsLength (s : Pointer) : Option ℕ :=
  lengthLoop 0 s

structure View where
  data : Pointer
  size : ℕ

def View.ofPointer (str : Pointer) : Option View :=
  (traitsLength str).map fun size ↦ ⟨str, size⟩

inductive LengthFunction
  | strlen
  | traits
  | stringView
  deriving DecidableEq

def LengthFunction.run (s : Pointer) : LengthFunction → Option ℕ
  | strlen => Cstring.strlen s
  | traits => traitsLength s
  | stringView => (View.ofPointer s).map View.size

section Strings

variable {s : Pointer} (hs : ∀ c ∈ s, c ≠ 0) (rest : Pointer)
include hs

theorem skipString_append : skipString (s ++ 0 :: rest) = some rest := by
  induction s with
  | nil => rfl
  | cons c s ih =>
    obtain ⟨hc, hs⟩ := forall_mem_cons.mp hs
    rw [cons_append, skipString, if_neg hc, ih hs]

theorem lengthLoop_append (r : ℕ) : lengthLoop r (s ++ 0 :: rest) = some (r + s.length) := by
  induction s generalizing r with
  | nil => rfl
  | cons c s ih =>
    obtain ⟨hc, hs⟩ := forall_mem_cons.mp hs
    rw [cons_append, lengthLoop, if_neg hc, ih hs, length_cons]
    congr 1
    omega

/-- As `rest` can be empty, none of the functions reads behind the zero. -/
theorem length_exact_iff (f : LengthFunction) : (f.run (s ++ 0 :: rest)).isSome ∧
      (f.run (s ++ 0 :: rest) = some s.length ↔ f ≠ .strlen) := by
  have ht : traitsLength (s ++ 0 :: rest) = some s.length := by
    rw [traitsLength, lengthLoop_append hs, zero_add]
  cases f with
  | strlen =>
    have hl : strlen (s ++ 0 :: rest) = some (s.length + 1) := by
      rw [strlen, skipString_append hs, Option.map_some, length_append, length_cons]
      congr 1
      omega
    rw [LengthFunction.run, hl]
    simp
  | traits => simp [LengthFunction.run, ht]
  | stringView => simp [LengthFunction.run, View.ofPointer, ht]

end Strings

theorem length_exact_traits : LengthFunction.traits.run [104, 105, 0] = some 2 :=
  (length_exact_iff (s := [104, 105]) (by simp) [] .traits).2.mpr (by decide)

theorem strlen_not_exact : LengthFunction.strlen.run [104, 105, 0] = some 3 ∧
    LengthFunction.strlen.run [0] = some 1 := by
  decide

structure Access where
  address : ℕ
  width : ℕ

structure Machine where
  memory : ByteMemory
  reads : List Access := []
  writes : List Access := []

def Machine.copyWord (width s1 s2 : ℕ) (m : Machine) : Machine where
  memory := m.memory.store s1 width (m.memory.load s2 width)
  reads := ⟨s2, width⟩ :: m.reads
  writes := ⟨s1, width⟩ :: m.writes

def memcpyLoop (width : ℕ) : (n s1 s2 : ℕ) → Machine → Machine
  | 0, _, _, m => m
  | n + 1, s1, s2, m => memcpyLoop width n (s1 + width) (s2 + width) (m.copyWord width s1 s2)

def memcpyAs (width s1 s2 n : ℕ) (m : Machine) : Machine :=
  memcpyLoop width (n / width) s1 s2 m

def ffs (x : ℕ) : ℕ :=
  match (List.range 64).find? x.testBit with
  | none => 0
  | some i => i + 1

/-- The width is the lowest bit that is set in an address or in the length, and at most eight. -/
def memcpy (s1 s2 n : ℕ) (m : Machine) : Machine :=
  let common := s1 ||| s2 ||| n
  match ffs common with
  | 1 => memcpyAs 1 s1 s2 n m
  | 2 => memcpyAs 2 s1 s2 n m
  | 3 => memcpyAs 4 s1 s2 n m
  | _ => memcpyAs 8 s1 s2 n m

theorem testBit_of_ffs {x k : ℕ} (h : ffs x = 0 ∨ k + 1 < ffs x) (hk : k < 64) :
  x.testBit k = false := by
  rw [ffs] at h
  split at h
  · rename_i hn
    simpa using find?_eq_none.mp hn k (mem_range.mpr hk)
  · rename_i i hso
    obtain ⟨-, -, hb⟩ := find?_range_eq_some.mp hso
    simpa using hb k (by omega)

theorem dvd_of_ffs {s1 s2 n : ℕ} (k : ℕ)
  (h : ffs (s1 ||| s2 ||| n) = 0 ∨ k < ffs (s1 ||| s2 ||| n)) (hk : k ≤ 64) :
  2 ^ k ∣ s1 ∧ 2 ^ k ∣ s2 ∧ 2 ^ k ∣ n := by
  have hb (i : ℕ) (hi : i < k) : s1.testBit i = false ∧ s2.testBit i = false ∧
    n.testBit i = false := by
    have := testBit_of_ffs (k := i) (h.imp id (by omega)) (by omega)
    simpa [Nat.testBit_or, and_assoc] using this
  have hd {x : ℕ} (hx : ∀ i < k, x.testBit i = false) : 2 ^ k ∣ x := by
    refine Nat.dvd_of_mod_eq_zero (Nat.zero_of_testBit_eq_false fun i ↦ ?_)
    rw [Nat.testBit_mod_two_pow]
    by_cases hi : i < k
    · simp [hx i hi]
    · simp [hi]
  exact ⟨hd fun i hi ↦ (hb i hi).1, hd fun i hi ↦ (hb i hi).2.1, hd fun i hi ↦ (hb i hi).2.2⟩

theorem memcpy_eq (s1 s2 n : ℕ) (m : Machine) : ∃ w, 0 < w ∧ w ∣ s1 ∧ w ∣ s2 ∧
  w ∣ n ∧ memcpy s1 s2 n m = memcpyAs w s1 s2 n m := by
  rw [memcpy]
  split
  · exact ⟨1, Nat.one_pos, one_dvd _, one_dvd _, one_dvd _, rfl⟩
  · rename_i hf
    have hlt : 1 < ffs (s1 ||| s2 ||| n) := by omega
    obtain ⟨h1, h2, hn⟩ := dvd_of_ffs 1 (.inr hlt) (by omega)
    exact ⟨2, Nat.two_pos, h1, h2, hn, rfl⟩
  · rename_i hf
    have hlt : 2 < ffs (s1 ||| s2 ||| n) := by omega
    obtain ⟨h1, h2, hn⟩ := dvd_of_ffs 2 (.inr hlt) (by omega)
    exact ⟨4, Nat.succ_pos 3, h1, h2, hn, rfl⟩
  · rename_i hne1 hne2 hne3
    have hf : ffs (s1 ||| s2 ||| n) = 0 ∨ 3 < ffs (s1 ||| s2 ||| n) := by grind
    obtain ⟨h1, h2, hn⟩ := dvd_of_ffs 3 hf (by omega)
    exact ⟨8, Nat.succ_pos 7, h1, h2, hn, rfl⟩

structure Copied (s1 s2 n : ℕ) (m m' : ByteMemory) : Prop where
  copied : ∀ i < n, m' (s1 + i) = m (s2 + i)
  frame : ∀ a, a < s1 ∨ s1 + n ≤ a → m' a = m a

theorem memcpyLoop_copied {width n s1 s2 : ℕ} (m : Machine) (h : s1 ≤ s2 ∨ s2 + n * width ≤ s1) :
  Copied s1 s2 (n * width) m.memory (memcpyLoop width n s1 s2 m).memory := by
  induction n generalizing s1 s2 m with
  | zero => exact ⟨fun i hi ↦ by omega, fun a _ ↦ rfl⟩
  | succ n ih =>
    rw [Nat.succ_mul] at h ⊢
    have hr : s1 + width ≤ s2 + width ∨ s2 + width + n * width ≤ s1 + width := by omega
    obtain ⟨hc, hf⟩ := ih (m.copyWord width s1 s2) hr
    rw [memcpyLoop]
    refine ⟨fun i hi ↦ ?_, fun a ha ↦ ?_⟩
    · rcases lt_or_ge i width with hlt | hge
      · rw [hf _ (.inl (by omega))]
        exact ByteMemory.store_load_apply hlt
      · obtain ⟨j, rfl⟩ := Nat.exists_eq_add_of_le hge
        rw [← add_assoc, hc j (by omega), add_assoc]
        exact ByteMemory.store_apply_of_outside (by omega)
    · rw [hf a (by omega)]
      exact ByteMemory.store_apply_of_outside (by omega)

def Within (s n : ℕ) (accesses : List Access) : Prop :=
  ∀ a ∈ accesses, a.width ∣ a.address ∧ s ≤ a.address ∧ a.address + a.width ≤ s + n

theorem memcpyLoop_within {w n s1 s2 t1 t2 k : ℕ} {m : Machine} (h1 : w ∣ s1)
  (h2 : w ∣ s2) (ht : t1 ≤ s1) (h : t2 ≤ s2) (hk1 : s1 + n * w ≤ t1 + k)
  (hk : s2 + n * w ≤ t2 + k) (hr : Within t2 k m.reads) (hw : Within t1 k m.writes) :
  Within t2 k (memcpyLoop w n s1 s2 m).reads ∧ Within t1 k (memcpyLoop w n s1 s2 m).writes := by
  induction n generalizing s1 s2 m with
  | zero => exact ⟨hr, hw⟩
  | succ n ih =>
    rw [Nat.succ_mul] at hk1 hk
    have hin1 : s1 + w ≤ t1 + k := by omega
    have hin2 : s2 + w ≤ t2 + k := by omega
    refine ih (Nat.dvd_add_self_right.mpr h1) (Nat.dvd_add_self_right.mpr h2) (by omega) (by omega)
      (by omega) (by omega) ?_ ?_
    · exact forall_mem_cons.mpr ⟨⟨h2, h, hin2⟩, hr⟩
    · exact forall_mem_cons.mpr ⟨⟨h1, ht, hin1⟩, hw⟩

/-- Exactly the destination changes, to what the source held before, and every access is aligned
and within its range. -/
theorem memcpy_copies (m : ByteMemory) (s1 s2 n : ℕ) (h : (s1 + n ≤ s2 ∨ s2 + n ≤ s1) ∨ s1 ≤ s2) :
    Copied s1 s2 n m (memcpy s1 s2 n { memory := m }).memory ∧
      Within s2 n (memcpy s1 s2 n { memory := m }).reads ∧
      Within s1 n (memcpy s1 s2 n { memory := m }).writes := by
  obtain ⟨w, hw, h1, h2, hn, he⟩ := memcpy_eq s1 s2 n { memory := m }
  obtain ⟨k, rfl⟩ := exists_eq_mul_left_of_dvd hn
  rw [he, memcpyAs, Nat.mul_div_cancel _ hw]
  refine ⟨memcpyLoop_copied { memory := m } (by omega), ?_⟩
  exact memcpyLoop_within h1 h2 le_rfl le_rfl le_rfl le_rfl (forall_mem_nil _) (forall_mem_nil _)

theorem memcpy_copies_scroll :
  Copied 16 24 32 (fun a ↦ .ofNat a) (memcpy 16 24 32 { memory := fun a ↦ .ofNat a }).memory :=
  (memcpy_copies (fun a ↦ .ofNat a) 16 24 32 (by decide)).1

end ReaverOS.Rosestd.Cstring
