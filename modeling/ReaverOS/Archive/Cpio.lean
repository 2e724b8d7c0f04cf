import Mathlib.Tactic.Ring
import ReaverOS.Foundation.Block

namespace ReaverOS.Archive

open Foundation Option

section

structure View where
  data : ℕ
  size : ℕ
deriving DecidableEq

namespace View

def traitsCompare (m : Block) : (a : ℕ) → List UInt8 → (n : ℕ) → Option ℤ
  | _, _, 0 => some 0
  | _, [], _ + 1 => some 0
  | a, d :: s, n + 1 =>
    (m.read a).bind fun c ↦
      if c = d then traitsCompare m (a + 1) s n
      else some (if c.toInt8 < d.toInt8 then -1 else 1)

def compare (m : Block) (v : View) (s : List UInt8) : Option ℤ :=
  let rlen := if v.size < s.length then v.size else s.length
  (traitsCompare m v.data s rlen).map fun traitsResult ↦
    if traitsResult = 0 then (if v.size = 0 then 0 else 1) - (if s.length = 0 then 0 else 1)
    else traitsResult

def equal (m : Block) (v : View) (s : List UInt8) : Option Bool :=
  (compare m v s).map fun result ↦ result = 0

end View

inductive Errc
  | invalidArgument
  | resultOutOfRange
deriving DecidableEq

structure FromCharsResult where
  ptr : ℕ
  ec : Option Errc
  value : Option ℕ

def toValue (c : UInt8) : ℤ :=
  if 48 ≤ c ∧ c ≤ 57 then c.toNat - 48
  else if 97 ≤ c ∧ c ≤ 122 then c.toNat - 97 + 10
  else if 65 ≤ c ∧ c ≤ 90 then c.toNat - 65 + 10
  else -1

/-- The loop of `from_chars` for a 64-bit value. `__valid` is never set there, so a character that
is no digit is always an error. -/
def fromCharsLoop (m : Block) (base : ℕ) : (left first temp : ℕ) → Option FromCharsResult
  | 0, first, temp => some ⟨first, none, some temp⟩
  | left + 1, first, temp =>
    (m.read first).bind fun char ↦
      let c := toValue char
      if c = -1 ∨ c ≥ base then some ⟨first, some .invalidArgument, none⟩
      else if temp > (2 ^ 64 - 1) / 10 + (if c ≠ 0 then 1 else 0) then
        some ⟨first, some .resultOutOfRange, none⟩
      else fromCharsLoop m base left (first + 1) ((temp * base + c.toNat) % 2 ^ 64)

def fromChars (m : Block) (first last base : ℕ) : Option FromCharsResult :=
  if first = last then some ⟨first, some .invalidArgument, none⟩
  else fromCharsLoop m base (last - first) first 0

def headerSize : ℕ := 110

def magic : List UInt8 := [48, 55, 48, 55, 48, 49]

def trailerName : List UInt8 := [84, 82, 65, 73, 76, 69, 82, 33, 33, 33]

structure Header where
  hdr : ℕ
  namesize : ℕ
  namePadding : ℕ
  filesize : ℕ
  filePadding : ℕ
  mode : ℕ

namespace Header

def isFile (h : Header) : Bool := h.mode &&& 0o100000 = 0o100000

def filename (h : Header) : View := ⟨wrap (h.hdr + headerSize), h.namesize⟩

def contents (h : Header) : View :=
  ⟨wrap (h.hdr + headerSize + h.namesize + h.namePadding), h.filesize⟩

def stop (h : Header) : ℕ :=
  h.hdr + headerSize + h.namesize + h.namePadding + h.filesize + h.filePadding

end Header

structure GetEntryResult where
  entry : Option Header
  errorMessage : String
  headerBase : ℕ

def parseField (m : Block) (first : ℕ) : Option (Option ℕ) :=
  (fromChars m first (first + 8) 16).map fun result ↦
    if result.ec ≠ none ∨ result.ptr ≠ first + 8 then none else result.value

def getEntry (m : Block) (base limit : ℕ) : Option GetEntryResult := do
  if wrap (base + headerSize) ≥ limit then
    return ⟨none, "end of entry would be past the limit of the archive", base⟩
  if !(← View.equal m ⟨base, 6⟩ magic) then
    return ⟨none, "magic did not match", base⟩
  let some mode ← parseField m (wrap (base + 14))
    | return ⟨none, "failed to parse file mode", base⟩
  let some namesize ← parseField m (wrap (base + 94))
    | return ⟨none, "failed to parse namesize", base⟩
  let some filesize ← parseField m (wrap (base + 54))
    | return ⟨none, "failed to parse filesize", base⟩
  let header : Header := {
    hdr := base
    namesize
    namePadding := (4 - (headerSize + namesize) % 4) % 4
    filesize
    filePadding := (4 - filesize % 4) % 4
    mode
  }
  if wrap header.stop ≥ limit then
    return ⟨none, "end of file would be past the limit of the archive", base⟩
  return ⟨some header, "", 0⟩

def Header.next (m : Block) (h : Header) (limit : ℕ) : Option GetEntryResult :=
  getEntry m (wrap h.stop) limit

structure Cpio where
  size : ℕ
  base : ℕ
  limit : ℕ

structure TryCpioResult where
  archive : Option Cpio
  errorMessage : String
  headerOffset : ℤ

def tryCpioLoop (m : Block) (base limit : ℕ) :
  (steps : ℕ) → GetEntryResult → (size : ℕ) → Option TryCpioResult
  | 0, _, _ => none
  | steps + 1, result, size =>
    match result.entry with
    | none => some ⟨none, result.errorMessage, result.headerBase - base⟩
    | some entry =>
      let size := if entry.isFile then size + 1 else size
      (entry.filename.equal m trailerName).bind fun last ↦
        if last then some ⟨some ⟨size, base, limit⟩, "", 0⟩
        else (entry.next m limit).bind fun result ↦ tryCpioLoop m base limit steps result size

def tryCpio (m : Block) (steps : ℕ) : Option TryCpioResult :=
  (getEntry m m.base m.limit).bind fun result ↦ tryCpioLoop m m.base m.limit steps result 0

namespace Cpio

def lookupLoop (m : Block) (limit : ℕ) (filename : List UInt8) :
  (steps : ℕ) → GetEntryResult → Option (Option View)
  | 0, _ => none
  | steps + 1, result =>
    match result.entry with
    | none => some none
    | some entry =>
      (if entry.isFile then entry.filename.equal m filename else some false).bind fun found ↦
        if found then some (some entry.contents)
        else (entry.filename.equal m trailerName).bind fun last ↦
          if last then some none
          else (entry.next m limit).bind fun result ↦ lookupLoop m limit filename steps result

def lookup (m : Block) (archive : Cpio) (steps : ℕ) (filename : List UInt8) :
  Option (Option View) :=
  (getEntry m archive.base archive.limit).bind fun result ↦
    lookupLoop m archive.limit filename steps result

end Cpio

open Foundation.Block

variable {m : Block} {a : ℕ}

theorem fromCharsLoop_returns {l x t : ℕ} (h : m.Inside x l) {k : ℕ}
  (ht : t < 16 ^ k) (hk : k + l ≤ 8) :
  ∃ r, fromCharsLoop m 16 l x t = some r ∧ ∀ n, r.value = some n → n < 2 ^ 32 := by
  induction l generalizing x t k with
  | zero =>
    refine ⟨_, rfl, fun n hn ↦ ?_⟩
    cases hn
    calc t < 16 ^ k := ht
      _ ≤ 16 ^ 8 := Nat.pow_le_pow_right (by decide) hk
  | succ l ih =>
    obtain ⟨c, hc⟩ := h.exists_read
    rw [fromCharsLoop, hc, bind_some]
    by_cases hd : toValue c = -1 ∨ toValue c ≥ (16 : ℕ)
    · exact ⟨_, if_pos hd, fun n hn ↦ by cases hn⟩
    · simp only [if_neg hd]
      by_cases hb : t > (2 ^ 64 - 1) / 10 + (if toValue c ≠ 0 then 1 else 0)
      · exact ⟨_, if_pos hb, fun n hn ↦ by cases hn⟩
      · have hlt : (toValue c).toNat < 16 := by omega
        have hne : (t * 16 + (toValue c).toNat) % 2 ^ 64 < 16 ^ (k + 1) := by
          refine lt_of_le_of_lt (Nat.mod_le _ _) ?_
          rw [pow_succ]
          omega
        rw [if_neg hb]
        exact ih h.tail hne (by omega)

theorem parseField_returns (h : m.Inside a 8) :
  ∃ v, parseField m a = some v ∧ ∀ n, v = some n → n < 2 ^ 32 := by
  have hl : a + 8 - a = 8 := Nat.add_sub_cancel_left ..
  have ht : 0 < 16 ^ 0 := by decide
  obtain ⟨r, hr, hv⟩ := fromCharsLoop_returns h ht (by omega)
  rw [parseField, fromChars, if_neg (by omega), hl, hr, map_some]
  refine ⟨_, rfl, fun n hn ↦ ?_⟩
  split at hn
  · cases hn
  · exact hv n hn

theorem traitsCompare_returns {s : List UInt8} {n : ℕ} (h : m.Inside a n) :
  ∃ r, View.traitsCompare m a s n = some r := by
  induction n generalizing a s with
  | zero => exact ⟨0, by cases s <;> rfl⟩
  | succ n ih =>
    cases s with
    | nil => exact ⟨0, rfl⟩
    | cons d s =>
      obtain ⟨c, hc⟩ := h.exists_read
      rw [View.traitsCompare, hc, bind_some]
      split
      · exact ih h.tail
      · exact ⟨_, rfl⟩

theorem equal_returns {v : View} (h : m.Inside v.data v.size) (s : List UInt8) :
  ∃ b, v.equal m s = some b := by
  have hrl : m.Inside v.data (if v.size < s.length then v.size else s.length) := by
    obtain ⟨hb, hl⟩ := h
    refine ⟨hb, ?_⟩
    split <;> omega
  obtain ⟨r, hr⟩ := traitsCompare_returns (s := s) hrl
  rw [View.equal, View.compare]
  simp only [hr, map_some]
  exact ⟨_, rfl⟩

def Roomy (m : Block) : Prop := m.limit + 2 ^ 34 ≤ 2 ^ 64

def headerOf (base mode namesize filesize : ℕ) : Header where
  hdr := base
  namesize := namesize
  namePadding := (4 - (headerSize + namesize) % 4) % 4
  filesize := filesize
  filePadding := (4 - filesize % 4) % 4
  mode := mode

theorem getEntry_of_fields {limit mode namesize filesize : ℕ}
  (he : wrap (a + headerSize) < limit) (hm : View.equal m ⟨a, 6⟩ magic = some true)
  (hmo : parseField m (wrap (a + 14)) = some (some mode))
  (hn : parseField m (wrap (a + 94)) = some (some namesize))
  (hf : parseField m (wrap (a + 54)) = some (some filesize)) :
  getEntry m a limit = if wrap (headerOf a mode namesize filesize).stop ≥ limit
  then some ⟨none, "end of file would be past the limit of the archive", a⟩
  else some ⟨some (headerOf a mode namesize filesize), "", 0⟩ := by
  rw [getEntry, if_neg (Nat.not_le_of_lt he), hm, hmo, hn, hf]
  rfl

structure Header.Lies (m : Block) (h : Header) : Prop where
  base : m.base ≤ h.hdr
  stop : h.stop < m.limit

namespace Header.Lies

variable {h : Header}

theorem wrap_stop (hh : h.Lies m) : wrap h.stop = h.stop :=
  wrap_of_lt (lt_trans hh.stop m.fits)

theorem progress (h : Header) : h.hdr + headerSize ≤ h.stop := by
  simp only [Header.stop]
  omega

theorem filename (hh : h.Lies m) : m.Inside h.filename.data h.filename.size := by
  obtain ⟨hb, hs⟩ := hh
  have hf : m.limit < 2 ^ 64 := m.fits
  simp only [Header.stop] at hs
  simp only [Header.filename, wrap_of_lt (show h.hdr + headerSize < 2 ^ 64 by omega)]
  exact ⟨by omega, by omega⟩

theorem contents (hh : h.Lies m) : m.Inside h.contents.data h.contents.size := by
  obtain ⟨hb, hs⟩ := hh
  have hf : m.limit < 2 ^ 64 := m.fits
  simp only [Header.stop] at hs
  simp only [Header.contents,
    wrap_of_lt (show h.hdr + headerSize + h.namesize + h.namePadding < 2 ^ 64 by omega)]
  exact ⟨by omega, by omega⟩

end Header.Lies

theorem getEntry_returns (hm : Roomy m) (hb : m.base ≤ a) (ha : a ≤ m.limit) :
  ∃ r, getEntry m a m.limit = some r ∧ ∀ h, r.entry = some h → h.hdr = a ∧ h.Lies m := by
  have hr : a + 2 ^ 34 ≤ 2 ^ 64 := le_trans (Nat.add_le_add_right ha _) hm
  have hw (n : ℕ) (hn : n < 2 ^ 34) : wrap (a + n) = a + n := wrap_of_lt (by omega)
  by_cases he : wrap (a + headerSize) ≥ m.limit
  · rw [getEntry, if_pos he]
    exact ⟨_, rfl, fun h hq ↦ by cases hq⟩
  have hi (k n : ℕ) (hk : k + n ≤ headerSize) : m.Inside (a + k) n := by
    rw [hw headerSize (by decide)] at he
    exact ⟨by omega, by omega⟩
  have hfi (k : ℕ) (hk : k + 8 ≤ headerSize) :
    ∃ v, parseField m (wrap (a + k)) = some v ∧ ∀ n, v = some n → n < 2 ^ 32 := by
    rw [hw k (by rw [headerSize] at hk; omega)]
    exact parseField_returns (hi k 8 hk)
  have hma : m.Inside (View.mk a 6).data 6 := hi 0 6 (by decide)
  obtain ⟨s, hs⟩ := equal_returns hma magic
  obtain ⟨mode, hmo, -⟩ := hfi 14 (by decide)
  obtain ⟨na, hnm, hna⟩ := hfi 94 (by decide)
  obtain ⟨f, hf, hfl⟩ := hfi 54 (by decide)
  cases s with
  | false =>
    rw [getEntry, if_neg he, hs]
    exact ⟨_, rfl, fun h hq ↦ by cases hq⟩
  | true =>
    cases mode with
    | none =>
      rw [getEntry, if_neg he, hs, hmo]
      exact ⟨_, rfl, fun h hq ↦ by cases hq⟩
    | some mode =>
      cases na with
      | none =>
        rw [getEntry, if_neg he, hs, hmo, hnm]
        exact ⟨_, rfl, fun h hq ↦ by cases hq⟩
      | some na =>
        cases f with
        | none =>
          rw [getEntry, if_neg he, hs, hmo, hnm, hf]
          exact ⟨_, rfl, fun h hq ↦ by cases hq⟩
        | some f =>
          have hna := hna na rfl
          have hfl := hfl f rfl
          rw [getEntry_of_fields (Nat.lt_of_not_le he) hs hmo hnm hf]
          by_cases hst : wrap (headerOf a mode na f).stop ≥ m.limit
          · rw [if_pos hst]
            exact ⟨_, rfl, fun h hq ↦ by cases hq⟩
          · rw [if_neg hst]
            refine ⟨_, rfl, fun h hq ↦ ?_⟩
            cases hq
            refine ⟨rfl, hb, ?_⟩
            have hlt : (headerOf a mode na f).stop < 2 ^ 64 := by
              simp only [Header.stop, headerOf, headerSize]
              omega
            rw [wrap_of_lt hlt] at hst
            exact Nat.lt_of_not_le hst

theorem tryCpioLoop_returns (hm : Roomy m) {ss z : ℕ} (hb : m.base ≤ a)
  (ha : a ≤ m.limit) (hs : m.limit < a + headerSize * ss) :
  ∃ r, ((getEntry m a m.limit).bind fun re ↦ tryCpioLoop m m.base m.limit ss re z) = some r ∧
  ∀ ar, r.archive = some ar → ar.base = m.base ∧ ar.limit = m.limit := by
  induction ss generalizing a z with
  | zero => omega
  | succ ss ih =>
    obtain ⟨re, hr, hn⟩ := getEntry_returns hm hb ha
    rw [hr, bind_some, tryCpioLoop]
    cases he : re.entry with
    | none => exact ⟨_, rfl, fun ar hq ↦ by cases hq⟩
    | some h =>
      obtain ⟨rfl, hl⟩ := hn h he
      obtain ⟨y, hla⟩ := equal_returns hl.filename trailerName
      simp only [hla, bind_some]
      cases y with
      | true =>
        refine ⟨_, rfl, fun ar hq ↦ ?_⟩
        cases hq
        exact ⟨rfl, rfl⟩
      | false =>
        have hp := Header.Lies.progress h
        rw [Header.next, hl.wrap_stop]
        refine ih (le_trans hb (by omega)) (le_of_lt hl.stop) ?_
        rw [Nat.mul_succ] at hs
        omega

theorem lookupLoop_returns (hm : Roomy m) (n : List UInt8) {ss : ℕ} (hb : m.base ≤ a)
  (ha : a ≤ m.limit) (hs : m.limit < a + headerSize * ss) :
  ∃ found, ((getEntry m a m.limit).bind fun r ↦ Cpio.lookupLoop m m.limit n ss r) = some found ∧
  ∀ v, found = some v → m.Inside v.data v.size := by
  induction ss generalizing a with
  | zero => omega
  | succ ss ih =>
    obtain ⟨r, hr, hn⟩ := getEntry_returns hm hb ha
    rw [hr, bind_some, Cpio.lookupLoop]
    cases he : r.entry with
    | none => exact ⟨none, rfl, fun v hq ↦ by cases hq⟩
    | some h =>
      obtain ⟨rfl, hl⟩ := hn h he
      obtain ⟨found, hf⟩ : ∃ found,
        (if h.isFile then h.filename.equal m n else some false) = some found := by
        split
        · exact equal_returns hl.filename n
        · exact ⟨false, rfl⟩
      obtain ⟨y, hla⟩ := equal_returns hl.filename trailerName
      simp only [hf, hla, bind_some]
      cases found with
      | true =>
        refine ⟨_, rfl, fun v hq ↦ ?_⟩
        cases hq
        exact hl.contents
      | false =>
        cases y with
        | true => exact ⟨none, rfl, fun v hq ↦ by cases hq⟩
        | false =>
          have hp := Header.Lies.progress h
          simp only [Header.next, hl.wrap_stop]
          refine ih (le_trans hb (by omega)) (le_of_lt hl.stop) ?_
          rw [Nat.mul_succ] at hs
          omega

theorem tryCpio_safe (m : Block) (hm : m.base + m.bytes.length + 2 ^ 34 ≤ 2 ^ 64) :
    ∃ r, tryCpio m (m.bytes.length / 110 + 1) = some r ∧
      ∀ archive, r.archive = some archive → ∀ name, ∃ found,
        archive.lookup m (m.bytes.length / 110 + 1) name = some found ∧ ∀ view, found = some view →
          m.base ≤ view.data ∧ view.data + view.size ≤ m.base + m.bytes.length := by
  have hs : m.limit < m.base + headerSize * (m.bytes.length / 110 + 1) := by
    rw [limit, headerSize]
    omega
  have hl : m.base ≤ m.limit := Nat.le_add_right ..
  obtain ⟨r, hr, ha⟩ := tryCpioLoop_returns hm (le_refl _) hl hs
  refine ⟨r, hr, fun archive hq name ↦ ?_⟩
  obtain ⟨hb, he⟩ := ha archive hq
  obtain ⟨found, hf, hv⟩ := lookupLoop_returns hm name (le_refl _) hl hs
  refine ⟨found, ?_, hv⟩
  rw [Cpio.lookup, hb, he]
  exact hf

end

open Foundation.Block List

section

inductive Letters
  | lower
  | upper
deriving DecidableEq

def Letters.digit (letters : Letters) (d : ℕ) : UInt8 :=
  if d < 10 then UInt8.ofNat (48 + d)
  else match letters with
    | .lower => UInt8.ofNat (87 + d)
    | .upper => UInt8.ofNat (55 + d)

def digits (letters : Letters) : (k : ℕ) → (n : ℕ) → List UInt8
  | 0, _ => []
  | k + 1, n => letters.digit (n / 16 ^ k % 16) :: digits letters k n

structure Attributes where
  inode : ℕ
  uid : ℕ
  gid : ℕ
  nlink : ℕ
  mtime : ℕ
  devmajor : ℕ
  devminor : ℕ
  rdevmajor : ℕ
  rdevminor : ℕ
  check : ℕ

def numbers (attributes : Attributes) (mode filesize namesize : ℕ) : List ℕ :=
  [attributes.inode, mode, attributes.uid, attributes.gid, attributes.nlink, attributes.mtime,
    filesize, attributes.devmajor, attributes.devminor, attributes.rdevmajor,
    attributes.rdevminor, namesize, attributes.check]

def padding (n : ℕ) : List UInt8 := List.replicate ((4 - n % 4) % 4) 0

def record (letters : Letters) (attributes : Attributes) (name : List UInt8) (mode : ℕ)
  (contents : List UInt8) : List UInt8 :=
  magic ++ (((numbers attributes mode contents.length (name.length + 1)).map
    (digits letters 8)).flatten ++ ((name ++ [0]) ++ (padding (headerSize + (name.length + 1)) ++
      (contents ++ padding contents.length))))

structure Writable (name : List UInt8) (mode : ℕ) (contents : List UInt8) : Prop where
  noNul : 0 ∉ name
  namesize : name.length + 1 < 2 ^ 32
  mode : mode < 2 ^ 32
  filesize : contents.length < 2 ^ 32

structure Entry where
  name : List UInt8
  mode : ℕ
  contents : List UInt8
  attributes : Attributes
  writable : Writable name mode contents
  notTrailer : name ≠ trailerName

namespace Entry

def record (letters : Letters) (e : Entry) : List UInt8 :=
  Archive.record letters e.attributes e.name e.mode e.contents

def regular (e : Entry) : Bool := e.mode &&& 0o170000 = 0o100000

end Entry

def archive (letters : Letters) (attributes : Attributes) : List Entry → List UInt8
  | [] => record letters attributes trailerName 0 []
  | e :: entries => e.record letters ++ archive letters attributes entries

variable {m : Block} {a : ℕ} {letters : Letters}

theorem toValue_digit {d : ℕ} (h : d < 16) : toValue (letters.digit d) = d := by
  have ha : ∀ letters : Letters, ∀ d < 16, toValue (Letters.digit letters d) = d := by
    intro letters
    cases letters <;> decide
  exact ha letters d h

theorem length_digits (k n : ℕ) : (digits letters k n).length = k := by
  induction k with
  | zero => rfl
  | succ k ih => rw [digits, length_cons, ih]

theorem fromCharsLoop_digits {k n x t j : ℕ} (h : m.Holds x (digits letters k n))
  (hte : t < 16 ^ j) (hj : j + k ≤ 8) : fromCharsLoop m 16 k x t =
  some ⟨x + k, none, some (t * 16 ^ k + n % 16 ^ k)⟩ := by
  induction k generalizing x t j with
  | zero => simp [fromCharsLoop, Nat.mod_one]
  | succ k ih =>
    obtain ⟨hr, ht⟩ := h
    have hd : n / 16 ^ k % 16 < 16 := Nat.mod_lt _ (by decide)
    have hp : 16 ^ (j + 1) ≤ 16 ^ 8 := Nat.pow_le_pow_right (by decide) (by omega)
    rw [pow_succ] at hp
    rw [fromCharsLoop, hr, bind_some, toValue_digit hd]
    generalize hdi : n / 16 ^ k % 16 = d at hd
    have hn : (t * 16 + d) % 2 ^ 64 = t * 16 + d := Nat.mod_eq_of_lt (by omega)
    have hb : ¬ t > (2 ^ 64 - 1) / 10 + (if (d : ℤ) ≠ 0 then 1 else 0) := by
      split <;> omega
    have hlt : t * 16 + d < 16 ^ (j + 1) := by
      rw [pow_succ]
      omega
    have hv : (t * 16 + d) * 16 ^ k + n % 16 ^ k = t * 16 ^ (k + 1) + n % 16 ^ (k + 1) := by
      rw [Nat.mod_pow_succ, hdi]
      ring
    simp only
    rw [if_neg (by omega), if_neg hb, Int.toNat_natCast, hn, ih ht hlt (by omega), hv,
      add_right_comm, add_assoc]

theorem parseField_digits {n : ℕ} (h : m.Holds a (digits letters 8 n)) (hn : n < 2 ^ 32) :
  parseField m a = some (some n) := by
  have hl : a + 8 - a = 8 := Nat.add_sub_cancel_left ..
  have ht : 0 < 16 ^ 0 := by decide
  have hn : n < 16 ^ 8 := by omega
  rw [parseField, fromChars, if_neg (by omega), hl,
    fromCharsLoop_digits h ht (le_refl _), map_some, if_neg (by simp), zero_mul,
    zero_add, Nat.mod_eq_of_lt hn]

def Alike (s t : List UInt8) : Prop := (s = [] ↔ t = []) ∧ (s <+: t ∨ t <+: s)

instance decidableAlike (s t : List UInt8) : Decidable (Alike s t) :=
  inferInstanceAs (Decidable ((s = [] ↔ t = []) ∧ (s <+: t ∨ t <+: s)))

theorem traitsCompare_holds {s t : List UInt8} (h : m.Holds a s) :
  ∃ r, View.traitsCompare m a t (if s.length < t.length then s.length else t.length) = some r ∧
  (r = 0 ↔ s <+: t ∨ t <+: s) := by
  induction s generalizing a t with
  | nil => exact ⟨0, by cases t <;> rfl, by simp⟩
  | cons c s ih =>
    cases t with
    | nil => exact ⟨0, rfl, by simp⟩
    | cons d t =>
      obtain ⟨hr, ht⟩ := h
      have hl : (if (c :: s).length < (d :: t).length then (c :: s).length
          else (d :: t).length) = (if s.length < t.length then s.length else t.length) + 1 := by
        simp only [length_cons]
        split_ifs <;> omega
      rw [hl, View.traitsCompare, hr, bind_some]
      by_cases hcd : c = d
      · subst hcd
        rw [if_pos rfl]
        simp only [cons_prefix_cons, true_and]
        exact ih ht
      · rw [if_neg hcd]
        refine ⟨_, rfl, iff_of_false ?_ ?_⟩
        · split <;> decide
        · simp [cons_prefix_cons, hcd, Ne.symm hcd]

theorem equal_holds {v : View} {s : List UInt8} (h : m.Holds v.data s) (hs : v.size = s.length)
  (t : List UInt8) : v.equal m t = some (decide (Alike s t)) := by
  obtain ⟨r, hr, hi⟩ := traitsCompare_holds (t := t) h
  rw [View.equal, View.compare, hs]
  simp only [hr, map_some]
  congr 1
  rw [decide_eq_decide, Alike, ← hi]
  simp only [length_eq_zero_iff]
  split_ifs <;> simp_all

theorem holds_flatten {ts : List (List UInt8)} {w k : ℕ} {t : List UInt8}
  (hw : ∀ t ∈ ts, t.length = w) (h : m.Holds a ts.flatten) (hk : ts[k]? = some t) :
  m.Holds (a + w * k) t := by
  induction ts generalizing a k with
  | nil => cases hk
  | cons u ts ih =>
    rw [flatten_cons, holds_append, hw u mem_cons_self] at h
    cases k with
    | zero =>
      cases hk
      exact h.1
    | succ k =>
      have hta := ih (fun t ht ↦ hw t (mem_cons_of_mem _ ht)) h.2 hk
      rwa [Nat.mul_succ, add_comm (w * k), ← add_assoc]

section Record

variable {attributes : Attributes} {name contents : List UInt8} {mode : ℕ}

theorem length_numbers (f n : ℕ) :
  ((numbers attributes mode f n).map (digits letters 8)).flatten.length = 104 := by
  simp [numbers, length_digits]

theorem length_padding (n : ℕ) : (padding n).length = (4 - n % 4) % 4 := length_replicate

theorem length_record : a + (record letters attributes name mode contents).length =
  (headerOf a mode (name.length + 1) contents.length).stop := by
  rw [record, Header.stop, headerOf]
  simp only [length_append, length_numbers, length_padding, magic, length_cons,
    length_nil, headerSize]
  omega

structure RecordAt (m : Block) (a : ℕ) (letters : Letters) (attributes : Attributes)
  (name : List UInt8) (mode : ℕ) (contents : List UInt8) : Prop where
  atMagic : m.Holds a magic
  atNumber : ∀ k n, (numbers attributes mode contents.length (name.length + 1))[k]? = some n →
    m.Holds (a + (6 + 8 * k)) (digits letters 8 n)
  atName : m.Holds (a + headerSize) (name ++ [0])
  atContents : m.Holds (a + headerSize + (name.length + 1) +
    (4 - (headerSize + (name.length + 1)) % 4) % 4) contents

theorem recordAt_of_holds (h : m.Holds a (record letters attributes name mode contents)) :
  RecordAt m a letters attributes name mode contents := by
  rw [record] at h
  obtain ⟨hm, h⟩ := holds_append.mp h
  obtain ⟨hn, h⟩ := holds_append.mp h
  obtain ⟨hna, h⟩ := holds_append.mp h
  obtain ⟨-, h⟩ := holds_append.mp h
  have hc := (holds_append.mp h).1
  rw [length_numbers] at hna hc
  rw [length_padding, length_append] at hc
  refine ⟨hm, fun k n hk ↦ ?_, hna, hc⟩
  rw [← add_assoc]
  refine holds_flatten (fun t ht ↦ ?_) hn ?_
  · obtain ⟨n, -, rfl⟩ := mem_map.mp ht
    exact length_digits 8 n
  · rw [getElem?_map, hk, map_some]

theorem getEntry_record (h : RecordAt m a letters attributes name mode contents)
  (hw : Writable name mode contents)
  (he : (headerOf a mode (name.length + 1) contents.length).stop < m.limit) : getEntry m a m.limit =
  some ⟨some (headerOf a mode (name.length + 1) contents.length), "", 0⟩ := by
  have hfi : m.limit < 2 ^ 64 := m.fits
  have hp : a + headerSize ≤ _ :=
    Header.Lies.progress (headerOf a mode (name.length + 1) contents.length)
  have hwr (k : ℕ) (hk : k ≤ headerSize) : wrap (a + k) = a + k := wrap_of_lt (by omega)
  have hm : View.equal m ⟨a, 6⟩ magic = some true := by
    rw [equal_holds h.atMagic rfl]
    decide
  have hf (k n : ℕ) (hk : 6 + 8 * k ≤ headerSize) (hn : n < 2 ^ 32)
    (hg : (numbers attributes mode contents.length (name.length + 1))[k]? = some n) :
    parseField m (wrap (a + (6 + 8 * k))) = some (some n) := by
    rw [hwr _ hk]
    exact parseField_digits (h.atNumber k n hg) hn
  rw [getEntry_of_fields (by rw [hwr _ (le_refl _)]; omega) hm
    (hf 1 mode (by decide) hw.mode rfl) (hf 11 _ (by decide) hw.namesize rfl)
    (hf 6 _ (by decide) hw.filesize rfl), if_neg]
  rw [wrap_of_lt (lt_trans he hfi)]
  omega

end Record

end

variable {m : Block} {a : ℕ} {letters : Letters} {attributes : Attributes}

variable {name : List UInt8}

theorem filename_equal {cs : List UInt8} {mo : ℕ} (h : RecordAt m a letters attributes name mo cs)
  (he : (headerOf a mo (name.length + 1) cs.length).stop < m.limit) (t : List UInt8) :
  (headerOf a mo (name.length + 1) cs.length).filename.equal m t =
  some (decide (Alike (name ++ [0]) t)) := by
  have hp : a + headerSize ≤ _ := Header.Lies.progress (headerOf a mo (name.length + 1) cs.length)
  have hw : wrap (a + headerSize) = a + headerSize :=
    wrap_of_lt (lt_of_le_of_lt hp (lt_trans he m.fits))
  refine equal_holds ?_ ?_ t
  · simp only [Header.filename, headerOf, hw]
    exact h.atName
  · simp [Header.filename, headerOf]

theorem holds_contents {contents : List UInt8} {mo : ℕ}
  (h : RecordAt m a letters attributes name mo contents)
  (he : (headerOf a mo (name.length + 1) contents.length).stop < m.limit) :
  m.Holds (headerOf a mo (name.length + 1) contents.length).contents.data contents := by
  have hf : m.limit < 2 ^ 64 := m.fits
  simp only [Header.stop, headerOf] at he
  simp only [Header.contents, headerOf]
  rw [wrap_of_lt (by omega)]
  exact h.atContents

def seen : List Entry → List Entry
  | [] => []
  | e :: entries => e :: if trailerName <+: e.name then [] else seen entries

def Entry.isFile (e : Entry) : Bool := e.mode &&& 0o100000 = 0o100000

def Entry.answers (name : List UInt8) (e : Entry) : Bool :=
  e.isFile && decide (Alike (e.name ++ [0]) name)

theorem alike_trailer : Alike (name ++ [0]) trailerName ↔ trailerName <+: name := by
  have hn : 0 ∉ trailerName := by decide
  constructor
  · rintro ⟨-, hle | hle⟩
    · exact absurd (hle.subset (by simp)) hn
    · obtain he | hle := prefix_concat_iff.mp hle
      · exact absurd (he ▸ mem_append_right _ (mem_singleton_self _)) hn
      · exact hle
  · intro hle
    exact ⟨by simp [trailerName], .inr (hle.trans (prefix_append ..))⟩

theorem writable_trailer : Writable trailerName 0 [] where
  noNul := by decide
  namesize := by decide
  mode := by decide
  filesize := by decide

theorem alike_trailer_self : Alike (trailerName ++ [0]) trailerName := by decide

theorem isFile_trailer (n f : ℕ) : (headerOf a 0 n f).isFile = false := by
  simp [Header.isFile, headerOf]

variable {entries : List Entry}

theorem archive_cons {e : Entry} (h : m.Holds a (archive letters attributes (e :: entries)))
  (he : a + (archive letters attributes (e :: entries)).length < m.limit) :
  RecordAt m a letters e.attributes e.name e.mode e.contents ∧
  (headerOf a e.mode (e.name.length + 1) e.contents.length).stop < m.limit ∧
  m.Holds (headerOf a e.mode (e.name.length + 1) e.contents.length).stop
  (archive letters attributes entries) ∧
  (headerOf a e.mode (e.name.length + 1) e.contents.length).stop +
  (archive letters attributes entries).length < m.limit := by
  rw [archive, holds_append] at h
  rw [archive, length_append, ← add_assoc] at he
  have hat := recordAt_of_holds h.1
  rw [Entry.record, length_record] at h he
  exact ⟨hat, lt_of_le_of_lt (Nat.le_add_right _ _) he, h.2, he⟩

theorem tryCpioLoop_archive (es : List Entry) (z : ℕ) {ss : ℕ}
  (h : m.Holds a (archive letters attributes es))
  (hn : a + (archive letters attributes es).length < m.limit) (hs : es.length < ss) :
  ((getEntry m a m.limit).bind fun r ↦ tryCpioLoop m m.base m.limit ss r z) =
  some ⟨some ⟨z + ((seen es).filter Entry.isFile).length, m.base, m.limit⟩, "", 0⟩ := by
  induction es generalizing a ss z with
  | nil =>
    obtain ⟨ss, rfl⟩ := Nat.exists_eq_succ_of_ne_zero (ne_of_gt hs)
    rw [archive] at h hn
    have ha := recordAt_of_holds h
    rw [length_record] at hn
    rw [getEntry_record ha writable_trailer hn, bind_some, tryCpioLoop]
    simp only [filename_equal ha hn, bind_some, decide_eq_true alike_trailer_self, isFile_trailer]
    rfl
  | cons e es ih =>
    obtain ⟨ss, rfl⟩ := Nat.exists_eq_succ_of_ne_zero (ne_of_gt (Nat.zero_lt_of_lt hs))
    obtain ⟨ha, hst, h, hn⟩ := archive_cons h hn
    rw [getEntry_record ha e.writable hst, bind_some, tryCpioLoop]
    have hf : (headerOf a e.mode (e.name.length + 1) e.contents.length).isFile = e.isFile := rfl
    simp only [filename_equal ha hst, bind_some, alike_trailer, hf, seen, decide_eq_true_eq]
    by_cases hl : trailerName <+: e.name
    · simp only [if_pos hl]
      cases he : e.isFile <;> simp [he]
    · simp only [if_neg hl]
      rw [Header.next, wrap_of_lt (lt_trans hst m.fits), ih _ h hn (Nat.lt_of_succ_lt_succ hs)]
      cases he : e.isFile <;> simp [he, add_assoc, add_comm 1]

/-- What `operator[]` returns is a view of the given contents, or nothing if nothing is given. -/
def Delivers (m : Block) : Option View → Option (List UInt8) → Prop
  | none, none => True
  | some view, some contents => view.size = contents.length ∧ m.Holds view.data contents
  | none, some _ => False
  | some _, none => False

theorem lookupLoop_archive (n : List UInt8) (es : List Entry) {ss : ℕ}
  (h : m.Holds a (archive letters attributes es))
  (he : a + (archive letters attributes es).length < m.limit)
  (hst : es.length < ss) : ∃ f, ((getEntry m a m.limit).bind fun r ↦
  Cpio.lookupLoop m m.limit n ss r) = some f ∧
  Delivers m f (((seen es).find? (Entry.answers n)).map Entry.contents) := by
  induction es generalizing a ss with
  | nil =>
    obtain ⟨ss, rfl⟩ := Nat.exists_eq_succ_of_ne_zero (ne_of_gt hst)
    rw [archive] at h he
    have ht := recordAt_of_holds h
    rw [length_record] at he
    rw [getEntry_record ht writable_trailer he, bind_some, Cpio.lookupLoop]
    simp only [filename_equal ht he, bind_some, decide_eq_true alike_trailer_self, isFile_trailer]
    exact ⟨none, rfl, trivial⟩
  | cons e es ih =>
    obtain ⟨ss, rfl⟩ := Nat.exists_eq_succ_of_ne_zero (ne_of_gt (Nat.zero_lt_of_lt hst))
    obtain ⟨ht, hs, h, he⟩ := archive_cons h he
    rw [getEntry_record ht e.writable hs, bind_some, Cpio.lookupLoop]
    have hfi : (headerOf a e.mode (e.name.length + 1) e.contents.length).isFile = e.isFile := rfl
    have hf : (if e.isFile then some (decide (Alike (e.name ++ [0]) n)) else some false) =
      some (e.answers n) := by
      rw [Entry.answers]
      cases e.isFile <;> rfl
    simp only [filename_equal ht hs, hfi, hf, bind_some, alike_trailer, seen, decide_eq_true_eq]
    cases ha : e.answers n with
    | true =>
      refine ⟨_, rfl, ?_⟩
      rw [find?_cons_of_pos ha]
      exact ⟨rfl, holds_contents ht hs⟩
    | false =>
      rw [find?_cons_of_neg (by simp [ha])]
      by_cases hl : trailerName <+: e.name
      · simp only [if_pos hl]
        exact ⟨none, rfl, trivial⟩
      · simp only [if_neg hl]
        rw [Header.next, wrap_of_lt (lt_trans hs m.fits)]
        exact ih h he (Nat.lt_of_succ_lt_succ hst)

theorem holds_unique {s t : List UInt8} (hs : m.Holds a s) (ht : m.Holds a t)
  (hl : s.length = t.length) : s = t := by
  induction s generalizing a t with
  | nil => exact (length_eq_zero_iff.mp hl.symm).symm
  | cons c s ih =>
    cases t with
    | nil => cases hl
    | cons d t =>
      obtain rfl : c = d := some.inj (hs.1.symm.trans ht.1)
      rw [ih hs.2 ht.2 (Nat.succ.inj hl)]

theorem Delivers.unique {f : Option View} {x y : Option (List UInt8)} (hx : Delivers m f x)
  (hy : Delivers m f y) : x = y := by
  cases f with
  | none =>
    cases x with
    | some _ => exact hx.elim
    | none =>
      cases y with
      | none => rfl
      | some _ => exact hy.elim
  | some v =>
    cases x with
    | none => exact hx.elim
    | some s =>
      cases y with
      | none => exact hy.elim
      | some t => rw [holds_unique hx.2 hy.2 (hx.1.symm.trans hy.1)]

def fileContents (entries : List Entry) (name : List UInt8) : Option (List UInt8) :=
  (entries.find? fun e ↦ e.regular && e.name == name).map Entry.contents

def LooksUp (m : Block) (entries : List Entry) (name : List UInt8) : Prop :=
  ∃ r archive found, tryCpio m (entries.length + 1) = some r ∧ r.archive = some archive ∧
    archive.size = (entries.filter Entry.regular).length ∧
    archive.lookup m (entries.length + 1) name = some found ∧
    Delivers m found (fileContents entries name)

def Exact (entries : List Entry) (name : List UInt8) : Prop :=
  ((seen entries).filter Entry.isFile).length = (entries.filter Entry.regular).length ∧
    ((seen entries).find? (Entry.answers name)).map Entry.contents = fileContents entries name

instance decidableExact (entries : List Entry) (name : List UInt8) :
  Decidable (Exact entries name) :=
  inferInstanceAs (Decidable (_ ∧ _))

theorem archive_outcome {xs : List UInt8}
  (hm : m.bytes = archive letters attributes entries ++ xs) (hr : xs ≠ []) (n : List UInt8) : ∃ f,
  tryCpio m (entries.length + 1) = some ⟨some ⟨((seen entries).filter Entry.isFile).length,
  m.base, m.limit⟩, "", 0⟩ ∧
  Cpio.lookup m ⟨((seen entries).filter Entry.isFile).length, m.base, m.limit⟩
  (entries.length + 1) n = some f ∧
  Delivers m f (((seen entries).find? (Entry.answers n)).map Entry.contents) := by
  have hh : m.Holds m.base (archive letters attributes entries) := @holds_of_eq m _ xs [] hm
  have he : m.base + (archive letters attributes entries).length < m.limit := by
    have hp := length_pos_iff.mpr hr
    rw [limit, hm, length_append]
    omega
  obtain ⟨f, hf, hd⟩ := lookupLoop_archive n entries hh he (Nat.lt_succ_self _)
  refine ⟨f, ?_, hf, hd⟩
  have ht := tryCpioLoop_archive entries 0 hh he (Nat.lt_succ_self _)
  rwa [zero_add] at ht

theorem LooksUp.exact {rest : List UInt8} (h : LooksUp m entries name)
  (hm : m.bytes = archive letters attributes entries ++ rest) (hre : rest ≠ []) :
  Exact entries name := by
  obtain ⟨r, archive, found, hr, ha, hs, hf, hd⟩ := h
  obtain ⟨found', ht, hl, hd'⟩ := archive_outcome hm hre name
  cases hr.symm.trans ht
  cases ha
  cases hf.symm.trans hl
  exact ⟨hs, hd'.unique hd⟩

theorem looksUp_iff (m : Block) (letters : Letters) (attributes : Attributes) (entries : List Entry)
    (rest : List UInt8) (hm : m.bytes = archive letters attributes entries ++ rest)
    (hrest : rest ≠ []) (name : List UInt8) : LooksUp m entries name ↔ Exact entries name := by
  refine ⟨fun h ↦ h.exact hm hrest, ?_⟩
  rintro ⟨hs, hc⟩
  obtain ⟨found, ht, hl, hd⟩ := archive_outcome hm hrest name
  exact ⟨_, _, found, ht, rfl, hs, hl, hc ▸ hd⟩

def noAttributes : Attributes := ⟨0, 0, 0, 1, 0, 0, 0, 0, 0, 0⟩

theorem writable_ab : Writable [97, 98] 0o100644 [120] where
  noNul := by decide
  namesize := by decide
  mode := by decide
  filesize := by decide

theorem ab_ne_trailerName : [97, 98] ≠ trailerName := by decide

def abFile : Entry := ⟨[97, 98], 0o100644, [120], noAttributes, writable_ab, ab_ne_trailerName⟩

theorem abArchive_fits : 4096 + (archive .lower noAttributes [abFile] ++ [0]).length < 2 ^ 64 := by
  simp only [archive, Entry.record, record, length_append, length_numbers, length_padding]
  decide

def abArchive : Block := ⟨4096, archive .lower noAttributes [abFile] ++ [0], abArchive_fits⟩

theorem tryCpio_safe_abArchive : ∃ r, tryCpio abArchive 3 = some r ∧ r.archive.isSome = true ∧
  ∀ archive, r.archive = some archive → ∀ name, ∃ found,
  archive.lookup abArchive 3 name = some found ∧
  ∀ view, found = some view → 4096 ≤ view.data ∧ view.data + view.size ≤ abArchive.limit := by
  have hl : abArchive.bytes.length / 110 + 1 = 3 := by decide +kernel
  have hs : (tryCpio abArchive 3).any (·.archive.isSome) = true := by decide +kernel
  obtain ⟨r, hr, ha⟩ := tryCpio_safe abArchive (by decide +kernel)
  rw [hl] at hr ha
  rw [hr] at hs
  exact ⟨r, hr, hs, ha⟩

theorem looksUp_ab : LooksUp abArchive [abFile] [97, 98] :=
  (looksUp_iff abArchive .lower noAttributes [abFile] [0] rfl (by decide) [97, 98]).mpr (by decide)

theorem not_looksUp_a : ¬ LooksUp abArchive [abFile] [97] ∧
    ∃ archive view, tryCpio abArchive 2 = some ⟨some archive, "", 0⟩ ∧
      archive.lookup abArchive 2 [97] = some (some view) ∧ abArchive.Holds view.data [120] := by
  have hm : abArchive.bytes = archive .lower noAttributes [abFile] ++ [0] := rfl
  constructor
  · intro h
    exact absurd (h.exact hm (by decide)) (by decide)
  · obtain ⟨found, ht, hl, hd⟩ := archive_outcome hm (by decide) [97]
    cases found with
    | none => exact absurd hd id
    | some view => exact ⟨_, view, ht, hl, hd.2⟩

end ReaverOS.Archive
