import Mathlib.Data.Nat.Digits.Lemmas

namespace ReaverOS.Rosestd

open List Option

inductive Width
  | w8
  | w16
  | w32
  | w64
  | w128
  deriving DecidableEq

structure IntType where
  width : Width
  isSigned : Bool
  deriving DecidableEq

namespace IntType

def modulus (T : IntType) : ℤ :=
  match T.width with
  | .w8 => 2 ^ 8
  | .w16 => 2 ^ 16
  | .w32 => 2 ^ 32
  | .w64 => 2 ^ 64
  | .w128 => 2 ^ 128

def min (T : IntType) : ℤ := if T.isSigned then -(T.modulus / 2) else 0

def max (T : IntType) : ℤ := T.min + T.modulus - 1

def wrap (T : IntType) (x : ℤ) : ℤ := (x - T.min) % T.modulus + T.min

def Holds (T : IntType) (x : ℤ) : Prop := T.min ≤ x ∧ x ≤ T.max

end IntType

inductive Errc
  | valueTooLarge
  | invalidArgument
  | resultOutOfRange
  deriving DecidableEq

namespace Charconv

def digits : List Char :=
  ['0', '1', '2', '3', '4', '5', '6', '7', '8', '9', 'a', 'b', 'c', 'd', 'e', 'f', 'g', 'h', 'i',
    'j', 'k', 'l', 'm', 'n', 'o', 'p', 'q', 'r', 's', 't', 'u', 'v', 'w', 'x', 'y', 'z', '\x00']

def digit (i : ℤ) : Option Char := if 0 ≤ i then digits[i.toNat]? else none

def digitLoop (base : ℕ) : (room : ℕ) → ℤ → List Char → Option (List Char)
  | 0, value, text => if value = 0 then some text else none
  | room + 1, value, text =>
    if value = 0 then some text
    else (digit (value.tmod base)).bind fun c ↦ digitLoop base room (value.tdiv base) (c :: text)

structure ToChars where
  written : List Char
  ptr : ℕ
  ec : Option Errc
  deriving DecidableEq

def toChars (T : IntType) (size : ℕ) (value : ℤ) (base : ℕ) : Option ToChars :=
  if size = 0 then some ⟨[], 0, some .valueTooLarge⟩
  else if value = 0 then some ⟨['0'], 1, none⟩
  else
    let sign := if value < 0 then ['-'] else []
    let value := if value < 0 then T.wrap (-value) else value
    (digitLoop base 128 value []).map fun text ↦
      if size - sign.length < text.length then ⟨sign, size, some .valueTooLarge⟩
      else ⟨sign ++ text, sign.length + text.length, none⟩

def numeral (base n : ℕ) : List Char :=
  if n = 0 then ['0'] else (Nat.digits base n).reverse.map fun d ↦ digits.getD d '0'

def representation (base : ℕ) (value : ℤ) : List Char :=
  (if value < 0 then ['-'] else []) ++ numeral base value.natAbs

/-- The representation is written if there is room for it, and nothing is read or written out of
bounds. -/
def Canonical (T : IntType) (size : ℕ) (value : ℤ) (base : ℕ) : Prop :=
  ∃ r, toChars T size value base = some r ∧ r.written.length ≤ size ∧
    if (representation base value).length ≤ size then
      r = ⟨representation base value, (representation base value).length, none⟩
    else r.ptr = size ∧ r.ec = some .valueTooLarge

variable {T : IntType} {base room size n : ℕ} {value x : ℤ} {text : List Char}

theorem wrap_of_holds (h : T.Holds x) : T.wrap x = x := by
  obtain ⟨hmi, hm⟩ := h
  unfold IntType.max at hm
  rw [IntType.wrap, Int.emod_eq_of_lt (by omega) (by omega)]
  omega

theorem modulus_bounds (T : IntType) :
  T.modulus = 2 * (T.modulus / 2) ∧ 128 ≤ T.modulus / 2 ∧ T.modulus ≤ 2 ^ 128 := by
  obtain ⟨w, i⟩ := T
  cases w <;> simp [IntType.modulus]

theorem wrap_max_succ (T : IntType) : T.wrap (T.max + 1) = T.min := by
  rw [IntType.wrap, IntType.max, show T.min + T.modulus - 1 + 1 - T.min = T.modulus by omega,
    Int.emod_self]
  omega

theorem digit_of_lt (h : n < 36) : digit n = some (digits.getD n '0') := by
  have hlt : n < digits.length := lt_of_lt_of_le h (by decide)
  simp [digit, List.getD, getElem?_eq_getElem hlt]

theorem digitLoop_of_nonneg (hba : 2 ≤ base) (hb : base ≤ 36) :
    ∀ (r n : ℕ) (t : List Char), n < base ^ r → digitLoop base r n t =
      some ((Nat.digits base n).reverse.map (fun d ↦ digits.getD d '0') ++ t)
  | 0, n, t, h => by
    obtain rfl : n = 0 := by simpa using h
    simp [digitLoop]
  | r + 1, n, t, h => by
    rw [digitLoop]
    rcases eq_zero_or_pos n with rfl | hp
    · simp
    · have hm : digit ((n : ℤ).tmod base) = some (digits.getD (n % base) '0') := by
        rw [← Int.ofNat_tmod]
        exact digit_of_lt ((Nat.mod_lt _ (by omega)).trans_le hb)
      rw [if_neg (by omega), hm, bind_some, ← Int.ofNat_tdiv,
        digitLoop_of_nonneg hba hb r _ _ (Nat.div_lt_of_lt_mul (by rwa [← pow_succ'])),
        Nat.digits_def' hba hp]
      simp

theorem digitLoop_of_neg (hb : 2 ≤ base) : ∀ (r : ℕ) (v : ℤ) (t : List Char),
    v < 0 → digitLoop base r v t = none
  | 0, v, t, h => by rw [digitLoop, if_neg (by omega)]
  | r + 1, v, t, h => by
    have hd := Int.mul_tdiv_add_tmod v base
    rw [digitLoop, if_neg (by omega)]
    by_cases hm : v.tmod base < 0
    · rw [digit, if_neg (by omega), bind_none]
    · cases digit (v.tmod base) with
      | none => rfl
      | some c =>
        refine digitLoop_of_neg hb r _ _ (Int.not_le.mp fun hl ↦ ?_)
        have := Int.mul_nonneg (Int.natCast_nonneg base) hl
        omega

theorem bounds_cases (T : IntType) :
  T.isSigned = true ∧ T.min = -(T.modulus / 2) ∧ T.max = T.modulus / 2 - 1 ∨
  T.isSigned = false ∧ T.min = 0 ∧ T.max = T.modulus - 1 := by
  have hm := (modulus_bounds T).1
  rw [IntType.max, IntType.min]
  cases T.isSigned
  · simp
  · refine .inl ⟨rfl, rfl, ?_⟩
    rw [if_pos rfl]
    omega

theorem natAbs_lt (h : T.Holds value) : value.natAbs < 2 ^ 128 := by
  obtain ⟨hm, -, hb⟩ := modulus_bounds T
  obtain ⟨hmi, hma⟩ := h
  rcases bounds_cases T with ⟨-, heq⟩ | ⟨-, heq⟩ <;> omega

theorem negated (h : T.Holds value) (hm : value ≠ T.min ∨ T.isSigned = false) :
  (if value < 0 then T.wrap (-value) else value) = value.natAbs := by
  obtain ⟨hl, hh⟩ := h
  split
  next hneg =>
    rcases bounds_cases T with ⟨hs, heq⟩ | ⟨-, heq⟩
    · have hne := hm.resolve_right (by simp [hs])
      rw [wrap_of_holds ⟨by omega, by omega⟩]
      omega
    · omega
  next hneg => omega

theorem toChars_eq (hb : 2 ≤ base) (h : base ≤ 36) (hs : size ≠ 0)
  (hv : T.Holds value) (hm : value ≠ T.min ∨ T.isSigned = false) : toChars T size value base =
  some (if (representation base value).length ≤ size then
  ⟨representation base value, (representation base value).length, none⟩
  else ⟨if value < 0 then ['-'] else [], size, some .valueTooLarge⟩) := by
  rw [toChars, if_neg hs]
  by_cases hz : value = 0
  · subst hz
    simp [representation, numeral, Nat.one_le_iff_ne_zero.mpr hs]
  · have hlt : value.natAbs < base ^ 128 := (natAbs_lt hv).trans_le (Nat.pow_le_pow_left hb _)
    have hr : representation base value = (if value < 0 then ['-'] else []) ++
      (Nat.digits base value.natAbs).reverse.map fun d ↦ digits.getD d '0' := by
      simp [representation, numeral, hz]
    have hsi : (if value < 0 then ['-'] else []).length ≤ 1 := by split <;> simp
    simp only [if_neg hz, negated hv hm, digitLoop_of_nonneg hb h 128 _ _ hlt,
      map_some, append_nil, hr, length_append]
    generalize (if value < 0 then ['-'] else []) = sign at hsi ⊢
    split_ifs <;> first | rfl | omega

theorem toChars_min (hb : 2 ≤ base) (h : size ≠ 0) (hs : T.isSigned = true) :
  toChars T size T.min base = none := by
  obtain ⟨-, hh, -⟩ := modulus_bounds T
  have hc := (bounds_cases T).resolve_right (by simp [hs])
  have hn : T.min < 0 := by omega
  have hm : -T.min = T.max + 1 := by omega
  simp only [toChars, if_neg h, if_neg hn.ne, if_pos hn, hm, wrap_max_succ,
    digitLoop_of_neg hb 128 _ _ hn, map_none]

theorem toChars_canonical_iff (T : IntType) (size base : ℕ) (value : ℤ) (hbase : 2 ≤ base)
    (hbound : base ≤ 36) (hvalue : T.Holds value) :
    Canonical T size value base ↔ size = 0 ∨ value ≠ T.min ∨ T.isSigned = false := by
  rw [Canonical]
  by_cases hs : size = 0
  · have hne : representation base value ≠ [] := by
      simp only [representation, numeral]
      split_ifs <;> simp_all
    simp [hs, toChars, hne]
  · by_cases hm : value ≠ T.min ∨ T.isSigned = false
    · refine iff_of_true ⟨_, toChars_eq hbase hbound hs hvalue hm, ?_, ?_⟩ (.inr hm)
      · split_ifs <;> simp <;> omega
      · split_ifs <;> simp
    · refine iff_of_false ?_ (by simp [hs, hm])
      obtain ⟨rfl, h⟩ : value = T.min ∧ T.isSigned = true := by simpa using hm
      simp [toChars_min hbase hs h]

theorem toChars_canonical_char : Canonical ⟨.w8, true⟩ 3 (-12) 10 :=
  (toChars_canonical_iff ⟨.w8, true⟩ 3 10 (-12) (by decide) (by decide) ⟨by decide, by decide⟩).mpr
    (.inr (.inl (by decide)))

theorem toChars_min_reads_outside : toChars ⟨.w32, true⟩ 20 (-2147483648) 10 = none := by
  decide

end Charconv

end ReaverOS.Rosestd
