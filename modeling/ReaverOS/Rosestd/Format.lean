import ReaverOS.Rosestd.Charconv

namespace ReaverOS.Rosestd.Format

open List

section

open Charconv

inductive Align
  | left
  | right
  | middle
  deriving DecidableEq

structure Formatter where
  fill : Char := ' '
  sign : Char := '-'
  throwOnTrailing : Bool := true
  parsedForNumeric : Bool := false
  isNumeric : Bool := false
  altRepr : Bool := false
  zeroFill : Bool := false
  defaultAlign : Bool := true
  align : Align := .left
  width : ℕ := 0
  deriving DecidableEq

def alignOf (c : Char) : Option Align :=
  if c = '<' then some .left
  else if c = '>' then some .right
  else if c = '^' then some .middle
  else none

/-- The look-ahead for a fill character. An error, or a read behind the end, has no result. -/
def parseAlign (f : Formatter) : List Char → Option (Formatter × List Char)
  | [] => none
  | first :: text =>
    if first = '}' then some (f, first :: text)
    else
      match text with
      | [] => none
      | second :: rest =>
        match alignOf second, alignOf first with
        | some align, _ => some ({ f with fill := first, align, defaultAlign := false }, rest)
        | none, some align => some ({ f with align, defaultAlign := false }, second :: rest)
        | none, none => some (f, first :: second :: rest)

def step (p : Char → Bool) (set : Char → Formatter → Formatter) :
  Formatter × List Char → Formatter × List Char
  | (f, []) => (f, [])
  | (f, c :: rest) => if p c then (set c f, rest) else (f, c :: rest)

def parseSign : Formatter × List Char → Formatter × List Char :=
  step (fun c ↦ c = '+' || c = '-' || c = ' ')
    fun c f ↦ { f with sign := c, parsedForNumeric := true }

def parseAlt : Formatter × List Char → Formatter × List Char :=
  step (· = '#') fun _ f ↦ { f with altRepr := true, parsedForNumeric := true }

def parseZero : Formatter × List Char → Formatter × List Char :=
  step (· = '0') fun _ f ↦ { f with zeroFill := true, parsedForNumeric := true }

/-- The width is of eight bits, and a digit `9` ends it. -/
def widthLoop : ℕ → List Char → ℕ × List Char
  | width, [] => (width, [])
  | width, c :: rest =>
    if '0'.toNat ≤ c.toNat ∧ c.toNat < '9'.toNat then
      widthLoop ((width * 10 + (c.toNat - '0'.toNat)) % 256) rest
    else (width, c :: rest)

def parseWidth : Formatter × List Char → Formatter × List Char
  | (f, []) => (f, [])
  | (f, c :: rest) =>
    if '1'.toNat ≤ c.toNat ∧ c.toNat ≤ '9'.toNat then
      ({ f with width := (widthLoop (c.toNat - '0'.toNat) rest).1 },
        (widthLoop (c.toNat - '0'.toNat) rest).2)
    else (f, c :: rest)

def parseType : Formatter × List Char → Formatter × List Char := step (· = 's') fun _ f ↦ f

def atEnd (text : List Char) : Bool := text.head? == none || text.head? == some '}'

def parse (f : Formatter) (text : List Char) : Option (Formatter × List Char) :=
  (parseAlign f text).bind fun p ↦
    let p := parseType (parseWidth (parseZero (parseAlt (parseSign p))))
    if !atEnd p.2 && p.1.throwOnTrailing then none else some p

/-- The zeros of a zero-filled number go behind its sign and its prefix. -/
def format (f : Formatter) (strv : List Char) (prefixLength : ℕ) : Option (List Char) :=
  if f.parsedForNumeric && !f.isNumeric then none
  else if strv.length < f.width then
    let zero := f.defaultAlign && f.zeroFill
    let align := if zero then .right else f.align
    let fill := if zero then '0' else f.fill
    let n := f.width - strv.length
    some ((if zero then strv.take prefixLength else []) ++
      (if align ≠ .left then List.replicate (if align = .middle then n / 2 else n) fill else []) ++
      (if zero then strv.drop prefixLength else strv) ++
      if !zero && align ≠ .right then
        List.replicate (if align = .middle then n / 2 + n % 2 else n) fill
      else [])
  else some strv

/-- The formatter of integers; the presentation type `c` is left out. -/
structure IntFormatter where
  strfmt : Formatter
  upper : Bool := false
  base : ℕ := 10

def intStart : Formatter := { throwOnTrailing := false, isNumeric := true, align := .right }

def parseIntType (f : Formatter) : List Char → IntFormatter × List Char
  | 'B' :: rest => (⟨f, true, 2⟩, rest)
  | 'b' :: rest => (⟨f, false, 2⟩, rest)
  | 'd' :: rest => (⟨f, false, 10⟩, rest)
  | 'o' :: rest => (⟨f, false, 8⟩, rest)
  | 'X' :: rest => (⟨f, true, 16⟩, rest)
  | 'x' :: rest => (⟨f, false, 16⟩, rest)
  | rest => (⟨f, false, 10⟩, rest)

def parseInt (text : List Char) : Option (IntFormatter × List Char) :=
  (parse intStart text).bind fun p ↦
    let q := parseIntType p.1 p.2
    if atEnd q.2 then some q else none

def upcase (c : Char) : Char :=
  if 'a'.toNat ≤ c.toNat ∧ c.toNat ≤ 'z'.toNat then Char.ofNat (c.toNat + 'A'.toNat - 'a'.toNat)
  else c

def basePrefix : ℕ → List Char
  | 2 => ['0', 'b']
  | 8 => ['0']
  | 16 => ['0', 'x']
  | _ => []

/-- The value is negated in its own type, and there is a buffer of 129 characters. -/
def formatInt (T : IntType) (f : IntFormatter) (val : ℤ) : Option (List Char) :=
  let sign := if val < 0 then ['-'] else if f.strfmt.sign ≠ '-' then [f.strfmt.sign] else []
  let val := if val < 0 then T.wrap (-val) else val
  let head := sign ++ if f.strfmt.altRepr then basePrefix f.base else []
  (toChars T (129 - head.length) val f.base).bind fun result ↦
    if result.ec ≠ none then none
    else
      let text := head ++ result.written
      Format.format f.strfmt (if f.upper then text.map upcase else text) head.length

inductive SignOption
  | plus
  | minus
  | space

inductive Presentation
  | d
  | b
  | B
  | o
  | x
  | X

namespace Presentation

def char : Presentation → Char
  | d => 'd'
  | b => 'b'
  | B => 'B'
  | o => 'o'
  | x => 'x'
  | X => 'X'

def base : Presentation → ℕ
  | d => 10
  | b => 2
  | B => 2
  | o => 8
  | x => 16
  | X => 16

def upper : Presentation → Bool
  | B => true
  | X => true
  | _ => false

def altPrefix (value : ℤ) : Presentation → List Char
  | d => []
  | b => ['0', 'b']
  | B => ['0', 'B']
  | o => if value = 0 then [] else ['0']
  | x => ['0', 'x']
  | X => ['0', 'X']

end Presentation

structure IntField where
  sign : Option SignOption
  alt : Bool
  type : Option Presentation

namespace IntField

def signChar : SignOption → Char
  | .plus => '+'
  | .minus => '-'
  | .space => ' '

def text (s : IntField) : List Char :=
  (s.sign.map signChar).toList ++ (if s.alt then ['#'] else []) ++
    (s.type.map Presentation.char).toList

def presentation (s : IntField) : Presentation := s.type.getD .d

def signText (s : IntField) (value : ℤ) : List Char :=
  if value < 0 then ['-']
  else
    match s.sign with
    | some .plus => ['+']
    | some .space => [' ']
    | _ => []

def output (s : IntField) (value : ℤ) : List Char :=
  s.signText value ++ (if s.alt then s.presentation.altPrefix value else []) ++
    if s.presentation.upper then (numeral s.presentation.base value.natAbs).map upcase
    else numeral s.presentation.base value.natAbs

def formatter (s : IntField) : IntFormatter where
  strfmt := { intStart with
    sign := (s.sign.map signChar).getD '-'
    altRepr := s.alt
    parsedForNumeric := s.sign.isSome || s.alt }
  upper := s.presentation.upper
  base := s.presentation.base

theorem parseInt_text (s : IntField) (t : List Char) :
  parseInt (s.text ++ '}' :: t) = some (s.formatter, '}' :: t) := by
  obtain ⟨si, a, ty⟩ := s
  rcases si with _ | _ | _ | _ <;> cases a <;>
    rcases ty with _ | _ | _ | _ | _ | _ | _ <;> rfl

end IntField

variable {T : IntType} {value : ℤ}

theorem format_without_width {f : Formatter} {text : List Char} {n : ℕ} (hw : f.width = 0)
  (hn : f.isNumeric = true) : format f text n = some text := by
  simp [format, hw, hn]

theorem holds_natAbs (h : T.Holds value) (hm : value ≠ T.min ∨ T.isSigned = false) :
  T.Holds value.natAbs ∧ ((value.natAbs : ℤ) ≠ T.min ∨ T.isSigned = false) := by
  obtain ⟨hl, hh⟩ := h
  obtain ⟨hmod, hha, -⟩ := modulus_bounds T
  rcases bounds_cases T with ⟨hs, heq⟩ | ⟨hs, heq⟩
  · have hne := hm.resolve_right (by simp [hs])
    exact ⟨⟨by omega, by omega⟩, .inl (by omega)⟩
  · exact ⟨⟨by omega, by omega⟩, .inr hs⟩

def head (s : IntField) (value : ℤ) : List Char :=
  s.signText value ++ if s.alt then basePrefix s.presentation.base else []

theorem signText_eq (s : IntField) (value : ℤ) :
  (if value < 0 then ['-'] else if s.formatter.strfmt.sign ≠ '-' then [s.formatter.strfmt.sign]
  else []) = s.signText value := by
  obtain ⟨si, a, ty⟩ := s
  rcases si with _ | _ | _ | _ <;> rfl

theorem length_head_le (s : IntField) (v : ℤ) : (head s v).length ≤ 3 := by
  have hs : (s.signText v).length ≤ 1 := by
    rw [IntField.signText]
    split_ifs
    · simp
    · split <;> simp
  have hp : (if s.alt then basePrefix s.presentation.base else []).length ≤ 2 := by
    cases s.alt <;> cases s.presentation <;> decide
  rw [head, length_append]
  omega

theorem formatInt_eq (s : IntField) (h : T.Holds value)
  (hm : value ≠ T.min ∨ T.isSigned = false) : formatInt T s.formatter value =
  if (head s value).length + (numeral s.presentation.base value.natAbs).length ≤ 129 then
  some (if s.presentation.upper then
  (head s value ++ numeral s.presentation.base value.natAbs).map upcase
  else head s value ++ numeral s.presentation.base value.natAbs)
  else none := by
  have hb : 2 ≤ s.presentation.base ∧ s.presentation.base ≤ 36 := by
    cases s.presentation <;> decide
  have hl := length_head_le s value
  obtain ⟨hh, hn⟩ := holds_natAbs h hm
  have hr : representation s.presentation.base value.natAbs =
    numeral s.presentation.base value.natAbs := by
    rw [representation, if_neg (by omega), nil_append, Int.natAbs_natCast]
  simp only [formatInt, signText_eq, negated h hm]
  rw [show s.formatter.strfmt.altRepr = s.alt from rfl,
    show s.formatter.base = s.presentation.base from rfl, ← head,
    toChars_eq hb.1 hb.2 (by omega) hh hn, hr, Option.bind_some]
  by_cases hf : (head s value).length + (numeral s.presentation.base value.natAbs).length ≤ 129
  · rw [if_pos hf, if_pos (show _ ≤ 129 - (head s value).length by omega)]
    exact format_without_width rfl rfl
  · rw [if_neg hf, if_neg (show ¬ _ ≤ 129 - (head s value).length by omega)]
    rfl

theorem upcase_head (s : IntField) (value : ℤ) (hu : s.presentation.upper = true) :
  (head s value).map upcase =
  s.signText value ++ if s.alt then s.presentation.altPrefix value else [] := by
  have hs : (s.signText value).map upcase = s.signText value := by
    rw [IntField.signText]
    split_ifs
    · rfl
    · split <;> rfl
  rw [head, map_append, hs]
  congr 1
  cases s.alt
  · rfl
  · cases hp : s.presentation <;> rw [hp] at hu <;> first | rfl | cases hu

theorem output_eq (s : IntField) (value : ℤ)
  (ho : ¬ (s.alt = true ∧ s.type = some .o ∧ value = 0)) : (if s.presentation.upper then
  (head s value ++ numeral s.presentation.base value.natAbs).map upcase
  else head s value ++ numeral s.presentation.base value.natAbs) = s.output value := by
  rw [IntField.output]
  by_cases hu : s.presentation.upper = true
  · rw [if_pos hu, if_pos hu, map_append, upcase_head s value hu]
  · rw [if_neg hu, if_neg hu, head]
    congr 2
    obtain ⟨si, a, ty⟩ := s
    cases a
    · rfl
    · rcases ty with _ | _ | _ | _ | _ | _ | _ <;>
        first
        | rfl
        | exact absurd rfl hu
        | exact (if_neg fun hz ↦ ho ⟨rfl, rfl, hz⟩).symm

theorem formatInt_min (s : IntField) (hs : T.isSigned = true) :
  formatInt T s.formatter T.min = none := by
  have hb : 2 ≤ s.presentation.base := by cases s.presentation <;> decide
  have hl := length_head_le s T.min
  obtain ⟨-, hh, -⟩ := modulus_bounds T
  have hc := (bounds_cases T).resolve_right (by simp [hs])
  simp only [formatInt, signText_eq]
  rw [show s.formatter.strfmt.altRepr = s.alt from rfl,
    show s.formatter.base = s.presentation.base from rfl, ← head,
    if_pos (show T.min < 0 by omega), show -T.min = T.max + 1 by omega, wrap_max_succ,
    toChars_min hb (by omega) hs]
  rfl

theorem formatInt_exact_iff (T : IntType) (value : ℤ) (s : IntField) (tail : List Char)
    (h : T.Holds value) : (parseInt (s.text ++ '}' :: tail)).bind (fun p ↦ formatInt T p.1 value) =
        some (s.output value) ↔
      (value ≠ T.min ∨ T.isSigned = false) ∧ (s.output value).length ≤ 129 ∧
        ¬ (s.alt = true ∧ s.type = some .o ∧ value = 0) := by
  rw [s.parseInt_text, Option.bind_some]
  by_cases hm : value ≠ T.min ∨ T.isSigned = false
  · rw [formatInt_eq s h hm]
    by_cases ho : s.alt = true ∧ s.type = some .o ∧ value = 0
    · obtain ⟨si, alt, type⟩ := s
      obtain ⟨rfl, rfl, rfl⟩ := ho
      rcases si with _ | _ | _ | _ <;> simp +decide
    · have hou := output_eq s value ho
      have hl : (s.output value).length =
        (head s value).length + (numeral s.presentation.base value.natAbs).length := by
        rw [← hou]
        split <;> simp
      rw [hou]
      simp [hl, hm, ho]
  · obtain ⟨rfl, hs⟩ : value = T.min ∧ T.isSigned = true := by simpa using hm
    simp [formatInt_min s hs, hs]

theorem formatInt_exact_hex : (parseInt (IntField.text ⟨some .plus, true, some .X⟩ ++ ['}'])).bind
  (fun p ↦ formatInt ⟨.w32, true⟩ p.1 0) = some ['+', '0', 'X', '0'] :=
  (formatInt_exact_iff ⟨.w32, true⟩ 0 ⟨some .plus, true, some .X⟩ [] ⟨by decide, by decide⟩).mpr
  ⟨.inl (by decide), by decide, by simp⟩
  
/-- Zero has two digits in `#o`, and the most negative value has no result. -/
theorem formatInt_not_exact :
    (parseInt ['#', 'o', '}']).bind (fun p ↦ formatInt ⟨.w32, true⟩ p.1 0) = some ['0', '0'] ∧
      IntField.output ⟨none, true, some .o⟩ 0 = ['0'] ∧
      (parseInt ['}']).bind (fun p ↦ formatInt ⟨.w32, true⟩ p.1 (-2147483648)) = none := by
  decide

end

open Option

def isDigit (c : Char) : Bool := '0'.toNat ≤ c.toNat ∧ c.toNat ≤ '9'.toNat

/-- A replacement field of an alignment, which a fill character can precede, the flag `0` and the
digits of a width. -/
structure PaddedField where
  align : Option (Option Char × Align)
  zeroFill : Bool
  width : List Char
  fill_ne : ∀ a, align ≠ some (some '}', a)
  width_digit : ∀ c ∈ width, isDigit c = true
  width_head : width.head? ≠ some '0'

def alignChar : Align → Char
  | .left => '<'
  | .right => '>'
  | .middle => '^'

def alignText : Option (Option Char × Align) → List Char
  | none => []
  | some a => a.1.toList ++ [alignChar a.2]

def decimal (n : ℕ) (digits : List Char) : ℕ :=
  digits.foldl (fun n c ↦ n * 10 + (c.toNat - '0'.toNat)) n

def initial (numeric : Bool) : Formatter := if numeric then intStart else {}

def padding (text : List Char) (fill : Char) (n : ℕ) : Align → List Char
  | .left => text ++ List.replicate n fill
  | .right => List.replicate n fill ++ text
  | .middle => List.replicate (n / 2) fill ++ text ++ List.replicate (n - n / 2) fill

namespace PaddedField

def text (s : PaddedField) : List Char :=
  alignText s.align ++ ((if s.zeroFill then ['0'] else []) ++ s.width)

/-- What the field asks for. The flag `0` is for numbers without an alignment. -/
def padded (s : PaddedField) (numeric : Bool) (text : List Char) (prefixLength width : ℕ) :
  List Char :=
  match s.align with
  | some a => padding text (a.1.getD ' ') (width - text.length) a.2
  | none =>
    if s.zeroFill then
      text.take prefixLength ++
        padding (text.drop prefixLength) '0' (width - text.length) .right
    else padding text ' ' (width - text.length) (if numeric then .right else .left)

def aligned (s : PaddedField) (numeric : Bool) : Formatter :=
  match s.align with
  | none => initial numeric
  | some a =>
    { initial numeric with fill := a.1.getD ' ', align := a.2, defaultAlign := false }

end PaddedField

variable {s : PaddedField} {numeric : Bool} {text tail digits : List Char} {c : Char}

theorem ne_of_isDigit {d : Char} (h : isDigit c = true) (hd : isDigit d = false) : c ≠ d :=
  fun he ↦ by simp [he, hd] at h

theorem alignOf_isDigit (h : isDigit c = true) : alignOf c = none := by
  rw [alignOf, if_neg (ne_of_isDigit h rfl), if_neg (ne_of_isDigit h rfl),
    if_neg (ne_of_isDigit h rfl)]

theorem alignOf_alignChar (a : Align) : alignOf (alignChar a) = some a := by
  cases a <;> rfl

theorem alignOf_head (h : ∀ c ∈ digits, isDigit c = true) :
  ∃ c xs, digits ++ '}' :: tail = c :: xs ∧ alignOf c = none := by
  cases digits with
  | nil => exact ⟨'}', tail, rfl, rfl⟩
  | cons c digits => exact ⟨c, _, rfl, alignOf_isDigit (h c mem_cons_self)⟩

theorem parseAlign_text (s : PaddedField) (h : ∀ c ∈ digits, isDigit c = true) :
  parseAlign (initial numeric) (alignText s.align ++ (digits ++ '}' :: tail)) =
  some (s.aligned numeric, digits ++ '}' :: tail) := by
  rw [PaddedField.aligned]
  cases ha : s.align with
  | none =>
    cases digits with
    | nil => rfl
    | cons c digits =>
      have hc := h c mem_cons_self
      have hne : c ≠ '}' := ne_of_isDigit hc rfl
      obtain ⟨d, xs, he, hd⟩ := @alignOf_head tail digits fun d hd ↦ h d (mem_cons_of_mem _ hd)
      simp [alignText, parseAlign, he, hd, hne, alignOf_isDigit hc]
  | some a =>
    obtain ⟨f, a⟩ := a
    cases f with
    | none =>
      obtain ⟨d, xs, he, hd⟩ := @alignOf_head tail digits h
      have hne : alignChar a ≠ '}' := by cases a <;> decide
      simp only [alignText, parseAlign, he, hd, hne, alignOf_alignChar, toList_none,
        nil_append, cons_append, if_false, getD_none]
      cases numeric <;> rfl
    | some f =>
      have hne : f ≠ '}' := fun he ↦ s.fill_ne a (he ▸ ha)
      simp [alignText, parseAlign, hne, alignOf_alignChar]

theorem eq_nine_or_lt (h : isDigit c = true) :
  c = '9' ∨ '0'.toNat ≤ c.toNat ∧ c.toNat < '9'.toNat := by
  obtain ⟨hl, hh⟩ := of_decide_eq_true h
  rcases hh.eq_or_lt with heq | hlt
  · exact .inl (by rw [← Char.ofNat_toNat c, heq]; rfl)
  · exact .inr ⟨hl, hlt⟩

theorem widthLoop_of_clean : ∀ (ds : List Char) (w : ℕ), (∀ c ∈ ds, isDigit c = true) → '9' ∉ ds →
      widthLoop (w % 256) (ds ++ '}' :: tail) = (decimal w ds % 256, '}' :: tail)
  | [], w, _, _ => rfl
  | c :: ds, w, hdig, hcle => by
    rw [mem_cons, not_or] at hcle
    have hc := (eq_nine_or_lt (hdig c mem_cons_self)).resolve_left (Ne.symm hcle.1)
    have ih := widthLoop_of_clean ds (w * 10 + (c.toNat - '0'.toNat))
      (fun d hd ↦ hdig d (mem_cons_of_mem _ hd)) hcle.2
    rw [cons_append, widthLoop, if_pos hc, Nat.add_mod, Nat.mod_mul_mod, ← Nat.add_mod]
    exact ih

theorem widthLoop_of_nine : ∀ (ds : List Char) (w : ℕ), (∀ c ∈ ds, isDigit c = true) → '9' ∈ ds →
      ∃ xs, (widthLoop w (ds ++ '}' :: tail)).2 = '9' :: xs
  | c :: ds, w, hdig, hn => by
    rw [cons_append, widthLoop]
    rcases eq_nine_or_lt (hdig c mem_cons_self) with rfl | hc
    · exact ⟨_, rfl⟩
    · rw [if_pos hc]
      refine widthLoop_of_nine ds _ (fun d hd ↦ hdig d (mem_cons_of_mem _ hd)) ?_
      refine (mem_cons.mp hn).resolve_left fun h ↦ ?_
      exact absurd hc.2 (by rw [← h]; exact lt_irrefl _)

def PaddedField.unsized (s : PaddedField) (numeric : Bool) : Formatter :=
  { s.aligned numeric with
    zeroFill := s.zeroFill
    parsedForNumeric := s.zeroFill }

theorem step_of_ne {p : Char → Bool} {se : Char → Formatter → Formatter} {f : Formatter}
  (h : p c = false) : step p se (f, c :: tail) = (f, c :: tail) := by
  rw [step, h, if_neg (by simp)]

theorem parse_flags (s : PaddedField) (n : Bool) (t : List Char) :
  parseZero (parseAlt (parseSign (s.aligned n,
  (if s.zeroFill then ['0'] else []) ++ (s.width ++ '}' :: t)))) =
  (s.unsized n, s.width ++ '}' :: t) := by
  rw [PaddedField.unsized]
  cases s.zeroFill with
  | true => rfl
  | false =>
    have hu : s.aligned n = { s.aligned n with zeroFill := false, parsedForNumeric := false } := by
      rw [PaddedField.aligned]
      cases s.align <;> cases n <;> rfl
    rw [← hu]
    cases hw : s.width with
    | nil => rfl
    | cons c digits =>
      have hc := s.width_digit c (hw ▸ mem_cons_self)
      have hne : c ≠ '0' := fun h ↦ s.width_head (by rw [hw, h]; rfl)
      rw [if_neg (by simp), nil_append, cons_append, parseSign, step_of_ne, parseAlt,
        step_of_ne, parseZero, step_of_ne]
      · simpa using hne
      · simpa using ne_of_isDigit hc rfl
      · simp [ne_of_isDigit hc (d := '+') rfl, ne_of_isDigit hc (d := '-') rfl,
          ne_of_isDigit hc (d := ' ') rfl]

theorem parse_eq (s : PaddedField) (n : Bool) (t : List Char) :
  parse (initial n) (s.text ++ '}' :: t) =
  let p := parseType (parseWidth (s.unsized n, s.width ++ '}' :: t))
      if !atEnd p.2 && p.1.throwOnTrailing then none else some p := by
  have hd : ∀ c ∈ (if s.zeroFill then ['0'] else []) ++ s.width, isDigit c = true := by
    intro c hc
    rcases mem_append.mp hc with hc | hc
    · split at hc
      · rw [mem_singleton.mp hc]
        rfl
      · cases hc
    · exact s.width_digit c hc
  rw [parse, PaddedField.text, append_assoc, parseAlign_text s hd, bind_some,
    append_assoc, parse_flags]

theorem parseWidth_cons (s : PaddedField) (f : Formatter) (hw : s.width = c :: digits) :
  parseWidth (f, s.width ++ '}' :: tail) =
  ({ f with width := (widthLoop ((c.toNat - '0'.toNat) % 256) (digits ++ '}' :: tail)).1 },
        (widthLoop ((c.toNat - '0'.toNat) % 256) (digits ++ '}' :: tail)).2) := by
  have hc := of_decide_eq_true (s.width_digit c (hw ▸ mem_cons_self))
  have hne : c.toNat ≠ '0'.toNat := fun h ↦ s.width_head (by rw [hw, ← Char.ofNat_toNat c, h]; rfl)
  have hn : '9'.toNat = 57 := rfl
  have hz : '0'.toNat = 48 := rfl
  have ho : '1'.toNat = 49 := rfl
  rw [hw, cons_append, parseWidth, if_pos (by omega), Nat.mod_eq_of_lt (by omega)]

theorem parse_text (s : PaddedField) (n : Bool) (t : List Char)
  (hc : '9' ∉ s.width.tail) : parse (initial n) (s.text ++ '}' :: t) =
  some ({ s.unsized n with width := decimal 0 s.width % 256 }, '}' :: t) := by
  rw [parse_eq]
  cases hw : s.width with
  | nil =>
    have hu : s.unsized n = { s.unsized n with width := 0 } := by
      rw [PaddedField.unsized, PaddedField.aligned]
      cases s.align <;> cases n <;> rfl
    rw [hu]
    rfl
  | cons c digits =>
    have hdec : decimal 0 (c :: digits) = decimal (c.toNat - '0'.toNat) digits := by
      rw [decimal, foldl_cons, zero_mul, zero_add, decimal]
    rw [← hw, parseWidth_cons s _ hw, widthLoop_of_clean, hw, hdec]
    · rfl
    · exact fun d hd ↦ s.width_digit d (hw ▸ mem_cons_of_mem _ hd)
    · rwa [hw] at hc

theorem parse_nine (s : PaddedField) (n : Bool) (t : List Char)
  (hn : '9' ∈ s.width.tail) (f : Formatter) :
  parse (initial n) (s.text ++ '}' :: t) ≠ some (f, '}' :: t) := by
  rw [parse_eq]
  cases hw : s.width with
  | nil => simp [hw] at hn
  | cons c digits =>
    rw [← hw, parseWidth_cons s _ hw]
    rw [hw] at hn
    obtain ⟨xs, hr⟩ := widthLoop_of_nine digits ((c.toNat - '0'.toNat) % 256)
      (fun d hd ↦ s.width_digit d (hw ▸ mem_cons_of_mem _ hd)) hn
    rw [hr, parseType, step_of_ne rfl]
    dsimp only
    split
    · simp
    · simp

theorem format_eq (s : PaddedField) (nu : Bool) (h : s.zeroFill = true → nu = true)
  (t : List Char) (n width : ℕ) : format { s.unsized nu with width := width } t n =
  some (s.padded nu t n width) := by
  have hn : (s.zeroFill && !(s.aligned nu).isNumeric) = false := by
    rw [PaddedField.aligned]
    cases s.align <;> cases hz : s.zeroFill <;> cases nu <;> simp_all [initial, intStart]
  rw [format, PaddedField.unsized, hn, PaddedField.padded, PaddedField.aligned]
  by_cases hlt : t.length < width
  · rcases s.align with _ | ⟨fill, _ | _ | _⟩ <;> cases s.zeroFill <;> cases nu <;>
      simp [initial, intStart, padding, hlt] <;> omega
  · rcases s.align with _ | ⟨fill, _ | _ | _⟩ <;> cases s.zeroFill <;> cases nu <;>
      simp [padding, hlt, Nat.sub_eq_zero_of_le (not_lt.mp hlt)]

theorem length_padding (t : List Char) (f : Char) (n : ℕ) (a : Align) :
  (padding t f n a).length = n + t.length := by
  cases a <;> simp [padding] <;> omega

theorem length_padded (s : PaddedField) (nu : Bool) {t : List Char} {n w : ℕ} :
  (s.padded nu t n w).length = max w t.length := by
  rw [PaddedField.padded]
  cases s.align with
  | some a => rw [length_padding]; omega
  | none =>
    dsimp only
    split
    · rw [length_append, length_padding, length_take, length_drop]
      omega
    · rw [length_padding]
      omega

theorem padded_of_le (s : PaddedField) (nu : Bool) {t : List Char} {n wd w : ℕ}
  (h : wd ≤ t.length) (h' : w ≤ t.length) : s.padded nu t n wd = s.padded nu t n w := by
  rw [PaddedField.padded, PaddedField.padded, Nat.sub_eq_zero_of_le h, Nat.sub_eq_zero_of_le h']

theorem padding_exact_iff (s : PaddedField) (numeric : Bool) (text tail : List Char) (n : ℕ)
    (hzero : s.zeroFill = true → numeric = true) :
    (∃ f, parse (initial numeric) (s.text ++ '}' :: tail) = some (f, '}' :: tail) ∧
        format f text n = some (s.padded numeric text n (decimal 0 s.width))) ↔
      '9' ∉ s.width.tail ∧ (decimal 0 s.width < 256 ∨ decimal 0 s.width ≤ text.length) := by
  by_cases hc : '9' ∈ s.width.tail
  · exact iff_of_false (fun h ↦ parse_nine s numeric tail hc _ h.choose_spec.1) fun h ↦ h.1 hc
  · rw [parse_text s numeric tail hc]
    simp only [hc, not_false_eq_true, true_and]
    constructor
    · rintro ⟨f, hf, h⟩
      obtain ⟨rfl, -⟩ := Prod.mk.inj (some.inj hf)
      rw [format_eq s numeric hzero, some.injEq] at h
      have hl := congrArg List.length h
      rw [length_padded, length_padded] at hl
      omega
    · intro h
      refine ⟨_, rfl, ?_⟩
      rw [format_eq s numeric hzero]
      rcases h with h | h
      · rw [Nat.mod_eq_of_lt h]
      · rw [padded_of_le s numeric ((Nat.mod_le _ _).trans h) h]

theorem six_fill : ∀ a, (none : Option (Option Char × Align)) ≠ some (some '}', a) := by
  simp

theorem six_digit : ∀ c ∈ ['6'], isDigit c = true :=
  forall_mem_singleton.mpr rfl

theorem six_head : ['6'].head? ≠ some '0' := by
  decide

def six : PaddedField := ⟨none, false, ['6'], six_fill, six_digit, six_head⟩

theorem padding_exact_six : ∃ f, parse (initial false) (six.text ++ ['}']) = some (f, ['}']) ∧
  format f ['a'] 0 = some (six.padded false ['a'] 0 6) :=
  (padding_exact_iff six false ['a'] [] 0 (fun h ↦ by cases h)).mpr ⟨by decide, .inl (by decide)⟩

/-- The width 19 is an error, and 256 is no width. -/
theorem padding_not_exact : parse (initial false) ['1', '9', '}'] = none ∧
    (parse (initial false) ['2', '5', '6', '}']).bind (fun p ↦ format p.1 ['a'] 0) =
      some ['a'] := by
  decide

end ReaverOS.Rosestd.Format
