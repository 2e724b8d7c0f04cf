import Mathlib.Algebra.Group.Nat.Defs

namespace ReaverOS.Foundation

open Option

section

open List

def wrap (a : ℕ) : ℕ := a % 2 ^ 64

theorem wrap_of_lt {a : ℕ} (h : a < 2 ^ 64) : wrap a = a := Nat.mod_eq_of_lt h

structure Block where
  base : ℕ
  bytes : List UInt8
  fits : base + bytes.length < 2 ^ 64

namespace Block

variable {m : Block} {a n : ℕ} {xs ys : List UInt8}

def limit (m : Block) : ℕ := m.base + m.bytes.length

def read (m : Block) (a : ℕ) : Option UInt8 :=
  if a < m.base then none else m.bytes[a - m.base]?

def load (m : Block) : (a n : ℕ) → Option ℕ
  | _, 0 => some 0
  | a, n + 1 => (m.read a).bind fun c ↦ (m.load (a + 1) n).map fun rest ↦ c.toNat + 256 * rest

def Inside (m : Block) (a n : ℕ) : Prop := m.base ≤ a ∧ a + n ≤ m.limit

instance : Decidable (m.Inside a n) := inferInstanceAs (Decidable (_ ∧ _))

def Holds (m : Block) : ℕ → List UInt8 → Prop
  | _, [] => True
  | a, c :: xs => m.read a = some c ∧ m.Holds (a + 1) xs

theorem read_isSome_iff : (∃ c, m.read a = some c) ↔ m.Inside a 1 := by
  rw [read, Inside, limit]
  split
  next h => exact iff_of_false (by simp) (by omega)
  next h =>
    constructor
    · rintro ⟨c, hc⟩
      obtain ⟨hlt, -⟩ := List.getElem?_eq_some_iff.mp hc
      omega
    · intro hi
      exact ⟨_, getElem?_eq_getElem (by omega)⟩

theorem Inside.tail (h : m.Inside a (n + 1)) : m.Inside (a + 1) n := by
  obtain ⟨hb, hl⟩ := h
  exact ⟨by omega, by omega⟩

theorem Inside.exists_read (h : m.Inside a (n + 1)) : ∃ c, m.read a = some c := by
  obtain ⟨hb, hl⟩ := h
  exact read_isSome_iff.mpr ⟨hb, by omega⟩

theorem load_isSome_iff : (∃ v, m.load a (n + 1) = some v) ↔ m.Inside a (n + 1) := by
  induction n generalizing a with
  | zero =>
    rw [← read_isSome_iff, load]
    cases m.read a <;> simp [load]
  | succ n ih =>
    constructor
    · rintro ⟨v, hv⟩
      obtain ⟨c, hc, hv⟩ := bind_eq_some_iff.mp hv
      obtain ⟨l, hr, -⟩ := map_eq_some_iff.mp hv
      obtain ⟨hb, -⟩ := read_isSome_iff.mp ⟨c, hc⟩
      obtain ⟨-, hl⟩ := ih.mp ⟨l, hr⟩
      exact ⟨hb, by omega⟩
    · intro h
      obtain ⟨c, hc⟩ := h.exists_read
      obtain ⟨l, hr⟩ := ih.mpr h.tail
      exact ⟨c.toNat + 256 * l, by rw [load, hc, bind_some, hr, map_some]⟩

theorem load_lt {v : ℕ} (h : m.load a n = some v) : v < 256 ^ n := by
  induction n generalizing a v with
  | zero =>
    cases h
    decide
  | succ n ih =>
    obtain ⟨c, -, hv⟩ := bind_eq_some_iff.mp h
    obtain ⟨l, hr, rfl⟩ := map_eq_some_iff.mp hv
    have hc := c.toNat_lt
    have hlt := ih hr
    rw [pow_succ]
    omega

theorem holds_append : m.Holds a (xs ++ ys) ↔ m.Holds a xs ∧ m.Holds (a + xs.length) ys := by
  induction xs generalizing a with
  | nil => simp [Holds]
  | cons c xs ih =>
    rw [cons_append, Holds, Holds, ih, and_assoc, length_cons, add_assoc a, add_comm 1]

theorem holds_of_eq {p : List UInt8} (h : m.bytes = p ++ (xs ++ ys)) :
  m.Holds (m.base + p.length) xs := by
  induction xs generalizing p with
  | nil => trivial
  | cons c xs ih =>
    refine ⟨?_, ?_⟩
    · rw [read, if_neg (by omega), Nat.add_sub_cancel_left, h]
      simp
    · have ht := @ih (p ++ [c]) (by simp [h])
      rwa [length_append, length_singleton, ← add_assoc] at ht

end Block

end

variable {ε σ : Type}

def iterations (first last : ℕ) : ℕ := wrap (last + 2 ^ 64 - first)

/-- A loop over the values of a counter. It ends early with an error, and has no result if one of
its rounds has none. -/
def countUp (body : ℕ → σ → Option (Except ε σ)) : (left index : ℕ) → σ → Option (Except ε σ)
  | 0, _, s => some (.ok s)
  | left + 1, index, s =>
    (body index s).bind fun r ↦
      match r with
      | .error e => some (.error e)
      | .ok s => countUp body left (wrap (index + 1)) s

/-- A loop that ends when one of its rounds says so. One with more rounds than `fuel` has no result,
as one with a round that has none. -/
def untilDone (body : σ → Option (Except ε σ)) : (fuel : ℕ) → σ → Option ε
  | 0, _ => none
  | fuel + 1, s =>
    (body s).bind fun r ↦
      match r with
      | .error out => some out
      | .ok s => untilDone body fuel s

def Round (r : Option (Except ε σ)) (returns passes : Prop) (next : σ) : Prop :=
  (¬ returns ∧ r = none) ∨ (returns ∧ ¬ passes ∧ ∃ e, r = some (.error e)) ∨
    (returns ∧ passes ∧ r = some (.ok next))

def Rounds (body : ℕ → σ → Option (Except ε σ)) (first : ℕ) (state : ℕ → σ)
  (returns passes : ℕ → Prop) : Prop :=
  ∀ k, (∀ j < k, passes j) →
    Round (body (wrap (first + k)) (state k)) (returns k) (passes k) (state (k + 1))

variable {body : ℕ → σ → Option (Except ε σ)} {first : ℕ} {state : ℕ → σ}
  {returns passes : ℕ → Prop}

theorem wrap_wrap_succ (a : ℕ) : wrap (wrap a + 1) = wrap (a + 1) := by
  rw [wrap, wrap, wrap, Nat.mod_add_mod]

theorem forall_lt_succ {k : ℕ} (h : ∀ j < k, passes j) (hk : passes k) : ∀ j < k + 1, passes j := by
  intro j hj
  obtain hj | rfl := Nat.lt_succ_iff_lt_or_eq.mp hj
  · exact h j hj
  · exact hk

theorem Rounds.countUp_from (h : Rounds body first state returns passes) (l : ℕ) {k : ℕ}
  (hk : ∀ j < k, passes j) : (∃ r, countUp body l (wrap (first + k)) (state k) = some r) ↔
  ∀ j, k ≤ j → j < k + l → (∀ i < j, passes i) → returns j := by
  induction l generalizing k with
  | zero => exact iff_of_true ⟨_, rfl⟩ fun j hle hlt ↦ absurd hlt (Nat.not_lt_of_le hle)
  | succ l ih =>
    rw [countUp]
    obtain ⟨hn, hb⟩ | ⟨hr, hn, e, hb⟩ | ⟨hr, hpa, hb⟩ := h k hk
    · rw [hb]
      exact iff_of_false (by simp) fun ha ↦ hn (ha k (Nat.le_refl _) (by omega) hk)
    · rw [hb]
      refine iff_of_true ⟨_, rfl⟩ fun j hle hlt hp ↦ ?_
      obtain rfl | hlt := Nat.eq_or_lt_of_le hle
      · exact hr
      · exact absurd (hp k hlt) hn
    · rw [hb, bind_some]
      simp only [wrap_wrap_succ, add_assoc]
      rw [ih (forall_lt_succ hk hpa)]
      constructor
      · intro ha j hle hlt hp
        obtain rfl | hle := Nat.eq_or_lt_of_le hle
        · exact hr
        · exact ha j hle (by omega) hp
      · intro ha j hle hlt hp
        exact ha j (by omega) (by omega) hp

theorem Rounds.countUp_from_ok (h : Rounds body first state returns passes) (l : ℕ) {k : ℕ}
  (hk : ∀ j < k, passes j) (s : σ) : countUp body l (wrap (first + k)) (state k) = some (.ok s) ↔
  (∀ j, k ≤ j → j < k + l → returns j ∧ passes j) ∧ s = state (k + l) := by
  induction l generalizing k with
  | zero =>
    rw [countUp]
    constructor
    · intro heq
      cases heq
      exact ⟨fun j hle hlt ↦ absurd hlt (Nat.not_lt_of_le hle), rfl⟩
    · rintro ⟨-, rfl⟩
      rfl
  | succ l ih =>
    rw [countUp]
    obtain ⟨hn, hb⟩ | ⟨hr, hn, e, hb⟩ | ⟨hr, hp, hb⟩ := h k hk
    · rw [hb]
      exact iff_of_false (by simp) fun ha ↦ hn (ha.1 k (Nat.le_refl _) (by omega)).1
    · rw [hb]
      exact iff_of_false (by simp) fun ha ↦ hn (ha.1 k (Nat.le_refl _) (by omega)).2
    · rw [hb, bind_some]
      simp only [wrap_wrap_succ, add_assoc]
      rw [ih (forall_lt_succ hk hp), add_comm l 1, ← add_assoc]
      refine and_congr_left fun _ ↦ ⟨fun ha j hle hlt ↦ ?_, fun ha j hle hlt ↦ ?_⟩
      · obtain rfl | hle := Nat.eq_or_lt_of_le hle
        · exact ⟨hr, hp⟩
        · exact ha j hle (by omega)
      · exact ha j (by omega) (by omega)

theorem Rounds.countUp_returns (h : Rounds body first state returns passes)
  (hfi : first < 2 ^ 64) (l : ℕ) : (∃ r, countUp body l first (state 0) = some r) ↔
  ∀ k < l, (∀ j < k, passes j) → returns k := by
  have hf := h.countUp_from l (fun j hj ↦ absurd hj (Nat.not_lt_zero j))
  rw [add_zero, wrap_of_lt hfi, zero_add] at hf
  rw [hf]
  exact forall_congr' fun k ↦ ⟨fun ha ↦ ha (Nat.zero_le _), fun ha _ ↦ ha⟩

theorem Rounds.countUp_ok (h : Rounds body first state returns passes) (hfi : first < 2 ^ 64)
  (left : ℕ) (s : σ) : countUp body left first (state 0) = some (.ok s) ↔
  (∀ k < left, returns k ∧ passes k) ∧ s = state left := by
  have hf := h.countUp_from_ok left (fun j hj ↦ absurd hj (Nat.not_lt_zero j)) s
  rw [add_zero, wrap_of_lt hfi, zero_add] at hf
  rw [hf]
  exact and_congr_left fun _ ↦ forall_congr' fun k ↦ ⟨fun ha ↦ ha (Nat.zero_le _), fun ha _ ↦ ha⟩

def states (body : ℕ → σ → Option (Except ε σ)) (first : ℕ) (s : σ) : (k : ℕ) → σ
  | 0 => s
  | k + 1 =>
    match body (wrap (first + k)) (states body first s k) with
    | some (.ok s) => s
    | some (.error _) => states body first s k
    | none => states body first s k

theorem states_succ {s s' : σ} {k : ℕ}
  (h : body (wrap (first + k)) (states body first s k) = some (.ok s')) :
  states body first s (k + 1) = s' := by
  rw [states, h]

theorem rounds_states
  (h : ∀ k s, ∃ nx, Round (body (wrap (first + k)) s) (returns k) (passes k) nx) (s : σ) :
  Rounds body first (states body first s) returns passes := by
  intro k _
  obtain ⟨nx, hn | he | ⟨hr, hp, hb⟩⟩ := h k (states body first s k)
  · exact .inl hn
  · exact .inr (.inl he)
  · rw [states_succ hb]
    exact .inr (.inr ⟨hr, hp, hb⟩)

section UntilDone

variable {body : σ → Option (Except ε σ)} {out : ε} {fuel : ℕ}

theorem exists_round_of_untilDone
  (h : ∀ k, (∀ j < k, passes j) → Round (body (state k)) (returns k) (passes k) (state (k + 1)))
  {k : ℕ} (hk : ∀ j < k, returns j ∧ passes j) (ho : untilDone body fuel (state k) = some out) :
  ∃ n, (∀ j < n, returns j ∧ passes j) ∧ body (state n) = some (.error out) := by
  induction fuel generalizing k with
  | zero => cases ho
  | succ fuel ih =>
    rw [untilDone] at ho
    obtain ⟨-, hb⟩ | ⟨-, -, e, hb⟩ | ⟨hr, hp, hb⟩ := h k fun j hj ↦ (hk j hj).2
    · rw [hb] at ho
      cases ho
    · rw [hb] at ho
      cases ho
      exact ⟨k, hk, hb⟩
    · rw [hb, bind_some] at ho
      exact ih (forall_lt_succ hk ⟨hr, hp⟩) ho

theorem untilDone_of_round
  (h : ∀ k, (∀ j < k, passes j) → Round (body (state k)) (returns k) (passes k) (state (k + 1)))
  {n k : ℕ} (hn : ∀ j < k + n, returns j ∧ passes j)
  (ho : body (state (k + n)) = some (.error out)) :
  untilDone body (n + 1) (state k) = some out := by
  induction n generalizing k with
  | zero =>
    rw [add_zero] at ho
    rw [untilDone, ho]
    rfl
  | succ n ih =>
    obtain ⟨hr, hp⟩ := hn k (by omega)
    rw [untilDone]
    obtain ⟨hno, -⟩ | ⟨-, hno, -⟩ | ⟨-, -, hb⟩ := h k fun j hj ↦ (hn j (by omega)).2
    · exact absurd hr hno
    · exact absurd hp hno
    · rw [hb, bind_some]
      rw [add_comm n, ← add_assoc] at hn ho
      exact ih hn ho

theorem untilDone_iff
  (h : ∀ k, (∀ j < k, passes j) → Round (body (state k)) (returns k) (passes k) (state (k + 1))) :
  (∃ fuel, untilDone body fuel (state 0) = some out) ↔
  ∃ n, (∀ j < n, returns j ∧ passes j) ∧ body (state n) = some (.error out) := by
  constructor
  · rintro ⟨fuel, ho⟩
    exact exists_round_of_untilDone h (fun j hj ↦ absurd hj (Nat.not_lt_zero j)) ho
  · rintro ⟨n, hn, ho⟩
    rw [← zero_add n] at hn ho
    exact ⟨n + 1, untilDone_of_round h hn ho⟩

end UntilDone

end ReaverOS.Foundation
