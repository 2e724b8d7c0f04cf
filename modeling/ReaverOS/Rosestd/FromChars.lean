import Mathlib.Data.List.TakeWhile
import ReaverOS.Rosestd.Charconv

namespace ReaverOS.Rosestd.Charconv

open List

def toValue (c : Char) : ℤ :=
  if '0'.toNat ≤ c.toNat ∧ c.toNat ≤ '9'.toNat then c.toNat - '0'.toNat
  else if 'a'.toNat ≤ c.toNat ∧ c.toNat ≤ 'z'.toNat then c.toNat - 'a'.toNat + 10
  else if 'A'.toNat ≤ c.toNat ∧ c.toNat ≤ 'Z'.toNat then c.toNat - 'A'.toNat + 10
  else -1

/-- The bound of the overflow guard, which is the one of base ten. -/
def guard (T : IntType) (c : Char) : ℤ := T.max / 10 + if toValue c ≠ 0 then 1 else 0

structure FromChars where
  ptr : ℕ
  ec : Option Errc
  value : ℤ
  deriving DecidableEq

/-- The flag `__valid`, which nothing sets, is left out, and signed overflow is taken to wrap,
unlike in `Chrono.checked`. -/
def fromCharsLoop (T : IntType) (base : ℕ) :
  (first : ℕ) → (temp : ℤ) → List Char → Except (ℕ × Errc) (ℕ × ℤ)
  | first, temp, [] => .ok (first, temp)
  | first, temp, c :: rest =>
    if toValue c = -1 ∨ base ≤ toValue c then .error (first, .invalidArgument)
    else if guard T c < temp then .error (first, .resultOutOfRange)
    else fromCharsLoop T base (first + 1) (T.wrap (temp * base + toValue c)) rest

def negative (T : IntType) (text : List Char) : Bool := T.isSigned && text.head? == some '-'

def start (T : IntType) (text : List Char) : ℕ := if negative T text then 1 else 0

def body (T : IntType) (text : List Char) : List Char := text.drop (start T text)

def fromChars (T : IntType) (text : List Char) (value : ℤ) (base : ℕ) : FromChars :=
  if text = [] then ⟨0, some .invalidArgument, value⟩
  else if T.isSigned ∧ body T text = [] then ⟨start T text, some .invalidArgument, value⟩
  else
    match fromCharsLoop T base (start T text) 0 (body T text) with
    | .error (ptr, ec) => ⟨ptr, some ec, value⟩
    | .ok (ptr, temp) => ⟨ptr, none, if negative T text then T.wrap (temp * -1) else temp⟩

def isDigit (base : ℕ) (c : Char) : Bool := toValue c ≠ -1 ∧ toValue c < base

def magnitude (base : ℕ) (temp : ℤ) (text : List Char) : ℤ :=
  text.foldl (fun n c ↦ n * base + toValue c) temp

def pattern (T : IntType) (text : List Char) (base : ℕ) : List Char :=
  (body T text).takeWhile (isDigit base)

def number (T : IntType) (text : List Char) (base : ℕ) : ℤ :=
  if negative T text then -magnitude base 0 (pattern T text base)
  else magnitude base 0 (pattern T text base)

instance IntType.decidableHolds (T : IntType) (x : ℤ) : Decidable (T.Holds x) :=
  inferInstanceAs (Decidable (_ ∧ _))

def expected (T : IntType) (text : List Char) (value : ℤ) (base : ℕ) : FromChars :=
  if pattern T text base = [] then ⟨0, some .invalidArgument, value⟩
  else if T.Holds (number T text base) then
    ⟨start T text + (pattern T text base).length, none, number T text base⟩
  else ⟨start T text + (pattern T text base).length, some .resultOutOfRange, value⟩

def passes (T : IntType) (base : ℕ) : (temp : ℤ) → List Char → Bool
  | _, [] => true
  | temp, c :: rest => temp ≤ guard T c && passes T base (temp * base + toValue c) rest

variable {T : IntType} {base : ℕ} {text : List Char} {temp : ℤ}

theorem isDigit_iff {c : Char} : isDigit base c = true ↔ ¬ (toValue c = -1 ∨ base ≤ toValue c) := by
  simp [isDigit]

theorem toValue_nonneg {c : Char} (h : isDigit base c = true) : 0 ≤ toValue c := by
  have hne := (not_or.mp (isDigit_iff.mp h)).1
  unfold toValue at hne ⊢
  split_ifs at hne ⊢ <;> omega

theorem magnitude_le (hb : 2 ≤ base) : ∀ (t : List Char) (te : ℤ), 0 ≤ te →
    (∀ c ∈ t, isDigit base c) → te ≤ magnitude base te t ∧ (t ≠ [] → 2 * te ≤ magnitude base te t)
  | [], _, _, _ => ⟨le_rfl, fun h ↦ absurd rfl h⟩
  | c :: t, te, ht, hd => by
    have hc := toValue_nonneg (hd c mem_cons_self)
    have hm : te * 2 ≤ te * base := Int.mul_le_mul_of_nonneg_left (by omega) ht
    have ih := (magnitude_le hb t (te * base + toValue c) (by omega)
      fun c hc ↦ hd c (mem_cons_of_mem _ hc)).1
    rw [magnitude, foldl_cons, ← magnitude]
    exact ⟨by omega, fun _ ↦ by omega⟩

theorem fromCharsLoop_cases : ∀ (tx : List Char) (x : ℕ) (te : ℤ),
    (∃ p, fromCharsLoop T base x te tx = .error (p, .resultOutOfRange) ∧
        tx.takeWhile (isDigit base) ≠ [] ∧ p < x + (tx.takeWhile (isDigit base)).length) ∨
      (tx.takeWhile (isDigit base) ≠ tx ∧ fromCharsLoop T base x te tx =
        .error (x + (tx.takeWhile (isDigit base)).length, .invalidArgument)) ∨
      (tx.takeWhile (isDigit base) = tx ∧ ∃ t, fromCharsLoop T base x te tx =
        .ok (x + (tx.takeWhile (isDigit base)).length, t))
  | [], x, te => .inr (.inr ⟨rfl, te, rfl⟩)
  | c :: tx, x, te => by
    rw [fromCharsLoop]
    by_cases hc : toValue c = -1 ∨ base ≤ toValue c
    · have hd : isDigit base c = false := by
        rw [← Bool.not_eq_true, isDigit_iff, not_not]
        exact hc
      simp [hc, hd]
    · have hd := isDigit_iff.mpr hc
      rw [if_neg hc, takeWhile_cons_of_pos hd, length_cons]
      split
      · exact .inl ⟨x, rfl, by simp, by omega⟩
      · have ih := fromCharsLoop_cases tx (x + 1) (T.wrap (te * base + toValue c))
        simp only [add_assoc, add_comm 1] at ih
        rcases ih with ⟨p, hp, -, hlt⟩ | ⟨hne, h⟩ | ⟨heq, h⟩
        · exact .inl ⟨p, hp, by simp, by omega⟩
        · exact .inr (.inl ⟨by simpa using hne, h⟩)
        · exact .inr (.inr ⟨by rw [heq], h⟩)

theorem magnitude_cons (c : Char) :
  magnitude base temp (c :: text) = magnitude base (temp * base + toValue c) text :=
  rfl

theorem min_le_zero (T : IntType) : T.min ≤ 0 ∧ 127 ≤ T.max := by
  obtain ⟨hm, hh, -⟩ := modulus_bounds T
  rcases bounds_cases T with ⟨-, heq⟩ | ⟨-, heq⟩ <;> omega

theorem fromCharsLoop_passes (h : 2 ≤ base) : ∀ (t : List Char) (x : ℕ) (te : ℤ),
  0 ≤ te → te ≤ T.max → (∀ c ∈ t, isDigit base c) → magnitude base te t ≤ T.max + 1 →
  if passes T base te t then fromCharsLoop T base x te t =
  .ok (x + t.length, T.wrap (magnitude base te t))
  else ∃ e, fromCharsLoop T base x te t = .error e := by
  intro t
  induction t with
  | nil =>
    intro x te hl hh _ _
    have hm := min_le_zero T
    rw [passes, if_pos rfl, magnitude, foldl_nil, wrap_of_holds ⟨by omega, hh⟩]
    rfl
  | cons c t ih =>
    intro x te hl hh hd hb
    have hdig := hd c mem_cons_self
    have hc := toValue_nonneg hdig
    have hr : ∀ c ∈ t, isDigit base c := fun c hc ↦ hd c (mem_cons_of_mem _ hc)
    have hmu : te * 0 ≤ te * base := Int.mul_le_mul_of_nonneg_left (by omega) hl
    rw [magnitude_cons] at hb ⊢
    rw [fromCharsLoop, if_neg (isDigit_iff.mp hdig), passes]
    by_cases hg : guard T c < te
    · simp [hg]
    · simp only [hg, if_false, Int.not_lt.mp hg, decide_true, Bool.true_and]
      cases t with
      | nil => simp [passes, fromCharsLoop, magnitude]
      | cons d t =>
        have hm := min_le_zero T
        have hle := (magnitude_le h (d :: t) (te * base + toValue c) (by omega) hr).2 (by simp)
        rw [wrap_of_holds ⟨by omega, by omega⟩]
        simpa [add_assoc, add_comm 1] using
          ih (x + 1) _ (by omega) (by omega) hr hb

theorem isSigned_of_negative (h : negative T text = true) : T.isSigned = true :=
  (Bool.and_eq_true_iff.mp h).1

theorem magnitude_bound (h : T.Holds (number T text base)) :
  magnitude base 0 (pattern T text base) ≤ T.max + 1 := by
  obtain ⟨hl, hh⟩ := h
  rw [number] at hl hh
  split at hl
  next hn =>
    have := (bounds_cases T).resolve_right (by simp [isSigned_of_negative hn])
    have := (modulus_bounds T).1
    omega
  next hn =>
    rw [if_neg hn] at hh
    omega

theorem stored_eq (h : T.Holds (number T text base)) :
  (if negative T text then T.wrap (T.wrap (magnitude base 0 (pattern T text base)) * -1)
  else T.wrap (magnitude base 0 (pattern T text base))) = number T text base := by
  have hb := magnitude_bound h
  rw [number] at h ⊢
  split at h
  next hn =>
    have hc := (bounds_cases T).resolve_right (by simp [isSigned_of_negative hn])
    obtain ⟨hmod, hh, -⟩ := modulus_bounds T
    rw [if_pos hn, if_pos hn]
    rcases hb.eq_or_lt with heq | hlt
    · rw [heq, wrap_max_succ, show T.min * -1 = T.max + 1 by omega, wrap_max_succ]
      omega
    · have hm : T.Holds (magnitude base 0 (pattern T text base)) := by
        obtain ⟨hl, hhi⟩ := h
        constructor <;> omega
      rw [wrap_of_holds hm, Int.mul_neg_one, wrap_of_holds h]
  next hn => rw [if_neg hn, if_neg hn, wrap_of_holds h]

/-- Text that does not begin with a number is rejected as it should be. Otherwise there must not be
anything but digits behind the sign, their value must fit, and they must pass the guard. -/
theorem fromChars_exact_iff (T : IntType) (text : List Char) (value : ℤ) (base : ℕ)
    (hbase : 2 ≤ base) : fromChars T text value base = expected T text value base ↔
      negative T text = false ∧ pattern T text base = [] ∨
        body T text ≠ [] ∧ pattern T text base = body T text ∧ T.Holds (number T text base) ∧
          passes T base 0 (body T text) = true := by
  rw [fromChars, expected]
  by_cases he : text = []
  · simp [he, pattern, body, negative]
  · rw [if_neg he]
    by_cases hb : body T text = []
    · have hng : negative T text = true := by
        by_contra hng
        simp [body, start, hng, he] at hb
      have hs : T.isSigned = true := by
        simp [negative] at hng
        exact hng.1
      simp [hb, hs, pattern, start, hng]
    · rw [if_neg (by simp [hb])]
      have hpas : T.Holds (number T text base) → pattern T text base = body T text →
          if passes T base 0 (body T text) then
            fromCharsLoop T base (start T text) 0 (body T text) = .ok (start T text +
              (body T text).length, T.wrap (magnitude base 0 (body T text)))
          else ∃ e, fromCharsLoop T base (start T text) 0 (body T text) = .error e := by
        intro hh ha
        exact fromCharsLoop_passes hbase _ _ 0 le_rfl (by have := min_le_zero T; omega)
          (takeWhile_eq_self_iff.mp ha) (ha ▸ magnitude_bound hh)
      rcases @fromCharsLoop_cases T base (body T text) (start T text) 0 with
        ⟨p, hl, hne, hlt⟩ | ⟨hne, hl⟩ | ⟨ha, t, hl⟩
      · rw [← pattern] at hne hlt
        simp only [hl, if_neg hne]
        refine iff_of_false (fun h ↦ ?_) ?_
        · have hpt : p = start T text + (pattern T text base).length := by
            split_ifs at h <;> exact congrArg FromChars.ptr h
          omega
        · rintro (h | ⟨-, ha, hh, h⟩)
          · exact hne h.2
          · have := hpas hh ha
            simp [h, hl] at this
      · rw [← pattern] at hne hl
        simp only [hl]
        by_cases hn : pattern T text base = []
        · cases hng : negative T text <;> simp [hn, start, hng, Ne.symm hb]
        · refine iff_of_false (fun h ↦ ?_) ?_
          · rw [if_neg hn] at h
            split_ifs at h <;> cases congrArg FromChars.ec h
          · rintro (h | h)
            · exact hn h.2
            · exact hne h.2.1
      · rw [← pattern] at ha hl
        have hn : pattern T text base ≠ [] := ha ▸ hb
        simp only [hl, if_neg hn]
        by_cases hh : T.Holds (number T text base)
        · have := hpas hh ha
          rw [hl] at this
          split at this
          next hp =>
            obtain ⟨-, rfl⟩ : _ ∧ t = T.wrap (magnitude base 0 (body T text)) := by
              simpa using this
            rw [← ha] at hp ⊢
            rw [if_pos hh, stored_eq hh]
            simp [hp, hh, hn]
          next => simp at this
        · simp [hh, hn]

theorem fromChars_exact_int : fromChars ⟨.w32, true⟩ ['-', '1', '2'] 0 10 =
  expected ⟨.w32, true⟩ ['-', '1', '2'] 0 10 :=
  (fromChars_exact_iff ⟨.w32, true⟩ ['-', '1', '2'] 0 10 (by decide)).mpr (.inr (by decide))

theorem fromChars_not_exact :
    fromChars ⟨.w32, true⟩ ['1', ' '] 0 10 = ⟨1, some .invalidArgument, 0⟩ ∧
      expected ⟨.w32, true⟩ ['1', ' '] 0 10 = ⟨1, none, 1⟩ ∧
      fromChars ⟨.w8, false⟩ ['7', 'z'] 0 36 = ⟨2, none, 31⟩ ∧
      fromChars ⟨.w8, false⟩ ['1', '0', '0', '0', '0', '0', '0'] 0 2 =
        ⟨6, some .resultOutOfRange, 0⟩ := by
  decide

end ReaverOS.Rosestd.Charconv
