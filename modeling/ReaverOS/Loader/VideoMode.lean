import Mathlib.Data.Prod.Lex

namespace ReaverOS.Loader

open List Option

def parseLoop : (ret : ℕ) → List Char → Option ℕ
  | ret, [] => some ret
  | ret, c :: input =>
    if c.toNat < 48 ∨ c.toNat > 57 then none
    else
      let newRet := (ret * 10 + (c.toNat - 48)) % 0x100000000
      if newRet < ret then none else parseLoop newRet input

def parseInt (input : List Char) : Option ℕ :=
  parseLoop 0 input

def isDigit (c : Char) : Bool := 48 ≤ c.toNat && c.toNat ≤ 57

def decimal (value : ℕ) (input : List Char) : ℕ :=
  input.foldl (fun value c ↦ value * 10 + (c.toNat - 48)) value

def dips : (value : ℕ) → List Char → Bool
  | _, [] => false
  | value, c :: input =>
    (value * 10 + (c.toNat - 48)) % 0x100000000 < value % 0x100000000 ||
      dips (value * 10 + (c.toNat - 48)) input

theorem le_decimal (v : ℕ) (input : List Char) : v ≤ decimal v input := by
  induction input generalizing v with
  | nil => exact le_rfl
  | cons c input ih =>
    have hle : v * 10 + (c.toNat - 48) ≤ decimal v (c :: input) := ih _
    omega

theorem dips_eq_false {v : ℕ} {i : List Char} (h : decimal v i < 0x100000000) :
  dips v i = false := by
  induction i generalizing v with
  | nil => rfl
  | cons c i ih =>
    have h : decimal (v * 10 + (c.toNat - 48)) i < 0x100000000 := h
    have hle := le_decimal (v * 10 + (c.toNat - 48)) i
    rw [dips, ih h, Bool.or_false, decide_eq_false_iff_not]
    omega

theorem parseLoop_eq (v : ℕ) (i : List Char) : parseLoop (v % 0x100000000) i =
  if i.all isDigit ∧ dips v i = false then some (decimal v i % 0x100000000)
  else none := by
  induction i generalizing v with
  | nil => simp [parseLoop, decimal, dips]
  | cons c i ih =>
    have hs : (v % 0x100000000 * 10 + (c.toNat - 48)) % 0x100000000 =
      (v * 10 + (c.toNat - 48)) % 0x100000000 := by omega
    have hd : isDigit c = true ↔ ¬ (c.toNat < 48 ∨ c.toNat > 57) := by
      simp [isDigit]
    simp only [parseLoop, hs, ih, all_cons, Bool.and_eq_true, hd, dips, decimal, foldl_cons]
    split_ifs <;> simp_all

def ParsesExactly (input : List Char) : Prop :=
  parseInt input = if input ≠ [] ∧ input.all isDigit ∧ decimal 0 input < 0x100000000 then
    some (decimal 0 input) else none

theorem parseInt_exact_iff (input : List Char) : ParsesExactly input ↔
    input ≠ [] ∧ (input.all isDigit → decimal 0 input < 0x100000000 ∨ dips 0 input) := by
  have hp : parseInt input = _ := parseLoop_eq 0 input
  rw [ParsesExactly, hp]
  rcases eq_or_ne input [] with rfl | hne
  · simp [dips]
  by_cases hf : decimal 0 input < 0x100000000
  · simp [hne, hf, dips_eq_false hf, Nat.mod_eq_of_lt hf]
  · cases hd : input.all isDigit <;> cases dips 0 input <;> simp [hne, hf]

theorem parseInt_wraps : parseInt "10000000000".toList = some 1410065408 ∧
    parseInt [] = some 0 ∧ ¬ ParsesExactly "10000000000".toList ∧ ¬ ParsesExactly [] := by
  unfold ParsesExactly
  decide

inductive PixelFormat
  | redGreenBlue
  | blueGreenRed
  | bitMask
  | bltOnly
  deriving DecidableEq

structure Info where
  horizontalResolution : ℕ
  verticalResolution : ℕ
  pixelFormat : PixelFormat
  deriving DecidableEq

structure Buffers where
  info : Option ℕ := none
  allocated : ℕ := 0
  deleted : List ℕ := []
  deriving DecidableEq

def Buffers.query (b : Buffers) : Option Info → Buffers
  | none => b
  | some _ => { b with info := some b.allocated, allocated := b.allocated + 1 }

def Buffers.delete (b : Buffers) : Buffers :=
  { b with deleted := b.info.toList ++ b.deleted }

structure Choice where
  preferredHorizontal : ℕ := 0
  preferredVertical : ℕ := 0
  preferredIndex : ℕ := 0x100000000 - 1
  foundExactMatch : Bool := false
  deriving DecidableEq

section

variable (maxHorizontal maxVertical : ℕ)

def consider (i : ℕ) (c : Choice) : Option Info → Choice × Bool
  | none => (c, true)
  | some info =>
    if info.pixelFormat = .bltOnly then (c, true)
    else if maxHorizontal = info.horizontalResolution ∧
        maxVertical = info.verticalResolution then
      ({ c with preferredIndex := i, foundExactMatch := true }, true)
    else if maxHorizontal < info.horizontalResolution ∨
        maxVertical < info.verticalResolution then (c, false)
    else if c.preferredHorizontal < info.horizontalResolution ∨
        c.preferredHorizontal = info.horizontalResolution ∧
          c.preferredVertical < info.verticalResolution then
      (⟨info.horizontalResolution, info.verticalResolution, i, c.foundExactMatch⟩, true)
    else (c, true)

def chooseLoop : (i : ℕ) → List (Option Info) → Choice → Buffers → Choice × Buffers
  | _, [], c, b => (c, b)
  | i, mode :: modes, c, b =>
    if c.foundExactMatch then (c, b)
    else
      let result := consider maxHorizontal maxVertical i c mode
      chooseLoop (i + 1) modes result.1
        (if result.2 then (b.query mode).delete else b.query mode)

def chooseMode (modes : List (Option Info)) (again : Option Info) : Option ℕ × Buffers :=
  let result := chooseLoop maxHorizontal maxVertical 0 modes {} {}
  if result.1.preferredIndex = 0x100000000 - 1 then (none, result.2)
  else (some result.1.preferredIndex, (result.2.query again).delete)

def Fits (info : Info) : Prop :=
  info.pixelFormat ≠ .bltOnly ∧ info.horizontalResolution ≤ maxHorizontal ∧
    info.verticalResolution ≤ maxVertical

end

def Info.size (info : Info) : Lex (ℕ × ℕ) :=
  toLex (info.horizontalResolution, info.verticalResolution)

def Largest (maxHorizontal maxVertical : ℕ) (seen : List (Option Info)) (i : ℕ) (info : Info) :
  Prop :=
  seen[i]? = some (some info) ∧ Fits maxHorizontal maxVertical info ∧
    ∀ other, some other ∈ seen → Fits maxHorizontal maxVertical other → other.size ≤ info.size

def Choice.size (maxHorizontal maxVertical : ℕ) (c : Choice) : Lex (ℕ × ℕ) :=
  if c.foundExactMatch then toLex (maxHorizontal, maxVertical)
  else toLex (c.preferredHorizontal, c.preferredVertical)

structure Chosen (x y : ℕ) (seen : List (Option Info)) (c : Choice) :
  Prop where
  absent : c.preferredIndex = 0x100000000 - 1 →
    c.foundExactMatch = false ∧ c.preferredHorizontal = 0
  present : c.preferredIndex ≠ 0x100000000 - 1 → ∃ info,
    seen[c.preferredIndex]? = some (some info) ∧ Fits x y info ∧ info.size = c.size x y
  above : ∀ other, some other ∈ seen → Fits x y other →
    c.preferredIndex ≠ 0x100000000 - 1 ∧ other.size ≤ c.size x y

variable {x y : ℕ} {seen modes rest : List (Option Info)} {c c' : Choice}
  {info : Info} {mode : Option Info}

theorem Chosen.keep (h : Chosen x y seen c) (hr : ∀ o, some o ∈ rest → Fits x y o →
  c.preferredIndex ≠ 0x100000000 - 1 ∧ o.size ≤ c.size x y) : Chosen x y (seen ++ rest) c := by
  refine ⟨h.absent, fun hi ↦ ?_, fun o hm ↦ ?_⟩
  · obtain ⟨info, hg, hf⟩ := h.present hi
    refine ⟨info, ?_, hf⟩
    rw [getElem?_append_left (List.getElem?_eq_some_iff.mp hg).1, hg]
  · rcases mem_append.mp hm with hm | hm
    · exact h.above o hm
    · exact hr o hm

theorem Chosen.take (h : Chosen x y seen c)
  (hl : seen.length < 0x100000000 - 1) (hi : c'.preferredIndex = seen.length) (hf : Fits x y info)
  (hs : info.size = c'.size x y) (hle : ∀ o, Fits x y o →
  o.size ≤ c.size x y → o.size ≤ info.size) : Chosen x y (seen ++ [some info]) c' := by
  refine ⟨fun hn ↦ by omega, fun _ ↦ ⟨info, by simp [hi], hf, hs⟩,
    fun o hm ho ↦ ⟨by omega, hs ▸ ?_⟩⟩
  rcases mem_append.mp hm with hm | hm
  · exact hle o ho (h.above o hm ho).2
  · cases mem_singleton.mp hm
    exact le_rfl

theorem Chosen.consider (h : Chosen x y seen c)
  (he : c.foundExactMatch = false) (hl : seen.length < 0x100000000 - 1)
  (hp : ∀ info, mode = some info → 0 < info.horizontalResolution) : Chosen x y (seen ++ [mode])
  (consider x y seen.length c mode).1 := by
  cases mode with
  | none => exact h.keep (by simp)
  | some info =>
    have hp := hp info rfl
    rw [Loader.consider]
    split_ifs with hbl hma hla hb
    · exact h.keep fun o hm hf ↦ by simp_all [Fits]
    · refine h.take hl rfl ⟨hbl, hma.1.ge, hma.2.ge⟩ ?_ fun o ho _ ↦ ?_
      · simp [Info.size, Choice.size, hma]
      · obtain ⟨-, hh, hv⟩ := ho
        rw [Info.size, Info.size, Prod.Lex.toLex_le_toLex]
        simp only
        omega
    · refine h.keep fun o hm hf ↦ ?_
      cases mem_singleton.mp hm
      have := hf.2
      omega
    · refine h.take hl rfl ⟨hbl, by omega, by omega⟩ ?_ fun o _ hle ↦ hle.trans ?_
      · simp [Info.size, Choice.size, he]
      · simp only [Info.size, Choice.size, he, Bool.false_eq_true, if_false,
          Prod.Lex.toLex_le_toLex]
        omega
    · refine h.keep fun o hm _ ↦ ?_
      cases mem_singleton.mp hm
      refine ⟨fun hi ↦ ?_, ?_⟩
      · have := (h.absent hi).2
        omega
      · simp only [Info.size, Choice.size, he, Bool.false_eq_true, if_false,
          Prod.Lex.toLex_le_toLex]
        omega

theorem Chosen.loop {b : Buffers} (h : Chosen x y seen c)
  (hl : seen.length + modes.length < 0x100000000 - 1)
  (hp : ∀ info, some info ∈ modes → 0 < info.horizontalResolution) : Chosen x y (seen ++ modes)
  (chooseLoop x y seen.length modes c b).1 := by
  induction modes generalizing seen c b with
  | nil => simpa [chooseLoop] using h
  | cons mode modes ih =>
    rw [chooseLoop]
    rw [length_cons] at hl
    split
    next he =>
      -- Nothing that fits is larger than an exact match, behind which the loop is over.
      refine h.keep fun o _ ho ↦ ⟨fun hi ↦ by simp [(h.absent hi).1] at he, ?_⟩
      obtain ⟨-, hh, hv⟩ := ho
      simp only [Info.size, Choice.size, he, if_true, Prod.Lex.toLex_le_toLex]
      omega
    next he =>
      have hn := h.consider (by simpa using he) (by omega)
        fun info (hq : mode = some info) ↦ hp info (hq ▸ mem_cons_self)
      have hr := ih (b := if (Loader.consider x y seen.length c mode).2
        then (b.query mode).delete else b.query mode) hn (by simp; omega)
        fun info hm ↦ hp info (mem_cons_of_mem _ hm)
      simpa using hr

theorem chooseMode_optimal (x y : ℕ) (modes : List (Option Info))
    (again : Option Info) (hlength : modes.length < 0x100000000 - 1)
    (hpositive : ∀ info, some info ∈ modes → 0 < info.horizontalResolution) :
    (∀ i, (chooseMode x y modes again).1 = some i → ∃ info, Largest x y modes i info) ∧
    ((chooseMode x y modes again).1 = none ↔ ∀ info, some info ∈ modes → ¬ Fits x y info) := by
  have hs : Chosen x y [] {} := ⟨fun _ ↦ ⟨rfl, rfl⟩, fun h ↦ absurd rfl h, by simp⟩
  have hc : Chosen x y modes (chooseLoop x y 0 modes {} {}).1 :=
    hs.loop (by simpa using hlength) hpositive
  simp only [chooseMode]
  split
  next hn =>
    refine ⟨by simp, iff_of_true rfl fun info hm hf ↦ ?_⟩
    exact (hc.above info hm hf).1 hn
  next hso =>
    obtain ⟨info, hg, hf, hsi⟩ := hc.present hso
    refine ⟨?_, iff_of_false (by simp) fun h ↦ h info (mem_of_getElem? hg) hf⟩
    rintro _ ⟨⟩
    exact ⟨info, hg, hf, fun o hm ho ↦ hsi ▸ (hc.above o hm ho).2⟩

theorem chooseMode_optimal_three : ∃ info,
  Largest 800 600 [none, some ⟨640, 480, .bitMask⟩, some ⟨1024, 768, .bitMask⟩] 1 info :=
  (chooseMode_optimal 800 600 [none, some ⟨640, 480, .bitMask⟩, some ⟨1024, 768, .bitMask⟩] none
    (by decide) (by simp)).1 1 (by decide)

inductive Outcome
  | failed
  | released
  | kept
  deriving DecidableEq

def Buffers.act (b : Buffers) : Outcome → Buffers
  | .failed => b.delete
  | .released => ({ b with info := some b.allocated, allocated := b.allocated + 1 }).delete
  | .kept => { b with info := some b.allocated, allocated := b.allocated + 1 }

section

variable (x y : ℕ)

def tooLarge (info : Info) : Bool :=
  info.pixelFormat ≠ .bltOnly ∧ (x < info.horizontalResolution ∨ y < info.verticalResolution)

def exactMatch (info : Info) : Bool :=
  info.pixelFormat ≠ .bltOnly ∧ x = info.horizontalResolution ∧ y = info.verticalResolution

/-- The modes up to the first exact match. -/
def queried : List (Option Info) → List (Option Info)
  | [] => []
  | mode :: modes => mode :: if mode.any (exactMatch x y) then [] else queried modes

def outcome : Option Info → Outcome
  | none => .failed
  | some info => if tooLarge x y info then .kept else .released

/-- Apart from an exact match, a mode without pixels is not preferred to none at all. -/
def eligible (info : Info) : Bool :=
  exactMatch x y info || info.pixelFormat ≠ .bltOnly && info.horizontalResolution ≤ x &&
    info.verticalResolution ≤ y && (info.horizontalResolution ≠ 0 ∨ info.verticalResolution ≠ 0)

/-- The last query is for the mode that was chosen. -/
def rounds (modes : List (Option Info)) (again : Option Info) : List Outcome :=
  (queried x y modes).map (outcome x y) ++
    if (queried x y modes).any (·.any (eligible x y)) then
      [if again.isNone then .failed else .released]
    else []

end

/-- A buffer that is kept is deleted by a query that fails right after it, and no other query
fails. -/
def paired : List Outcome → Bool
  | [] => true
  | .released :: rest => paired rest
  | .kept :: .failed :: rest => paired rest
  | _ => false

def Buffers.Once (b : Buffers) : Prop :=
  ∀ n, b.deleted.count n = if n < b.allocated then 1 else 0

/-- No buffer that is allocated later makes up for one that was leaked or deleted twice. -/
def Buffers.Broken (b : Buffers) : Prop :=
  ∃ n < b.allocated, b.info ≠ some n ∧ b.deleted.count n ≠ 1 ∨ 2 ≤ b.deleted.count n

theorem Buffers.Broken.act {b : Buffers} (h : b.Broken) (o : Outcome) : (b.act o).Broken := by
  obtain ⟨n, hn, h⟩ := h
  refine ⟨n, ?_⟩
  cases o <;> simp only [Buffers.act, Buffers.delete] <;> cases hi : b.info <;>
    simp_all [count_cons] <;> grind

theorem Buffers.Broken.not_once {b : Buffers} (h : b.Broken) (os : List Outcome) :
  ¬ (os.foldl Buffers.act b).Once := by
  induction os generalizing b with
  | nil =>
    obtain ⟨n, hn, h⟩ := h
    intro ho
    have := ho n
    rw [foldl_nil, if_pos hn] at this
    grind
  | cons o os ih => exact ih (h.act o)

variable {b : Buffers}

structure Buffers.Spent (b : Buffers) : Prop where
  once : b.Once
  info : ∀ n, b.info = some n → n < b.allocated

theorem Buffers.Spent.released (h : b.Spent) :
  (b.act .released).Spent ∧ (b.act .released).info = some b.allocated := by
  refine ⟨⟨fun n ↦ ?_, fun n hn ↦ ?_⟩, rfl⟩
  · have := h.once n
    simp only [Buffers.act, Buffers.delete, toList_some, singleton_append, count_cons]
    grind
  · cases hn
    exact Nat.lt_succ_self _

theorem Buffers.Spent.count (h : b.Spent) : b.deleted.count b.allocated = 0 := by
  have := h.once b.allocated
  rwa [if_neg (lt_irrefl _)] at this

theorem paired_iff (os : List Outcome) (h : b.Spent)
  (hh : os.head? = some .failed → b.info ≠ none) :
  (os.foldl Buffers.act b).Once ↔ paired os = true := by
  induction os using paired.induct generalizing b with
  | case1 => exact iff_of_true h.once rfl
  | case2 rest ih => exact ih h.released.1 fun _ ↦ h.released.2.trans_ne (some_ne_none _)
  | case3 rest ih => exact ih h.released.1 fun _ ↦ h.released.2.trans_ne (some_ne_none _)
  | case4 os hni hr hk =>
    refine iff_of_false ?_ (by rw [paired.eq_4 os hni hr hk]; decide)
    cases os with
    | nil => exact absurd rfl hni
    | cons o rest =>
      cases o with
      | released => exact absurd rfl (hr rest)
      | failed =>
        obtain ⟨n, hn⟩ := ne_none_iff_exists'.mp (hh rfl)
        have hc := h.once n
        rw [if_pos (h.info n hn)] at hc
        refine Buffers.Broken.not_once (b := b.act .failed) ⟨n, h.info n hn, .inr ?_⟩ rest
        simp [Buffers.act, Buffers.delete, hn, hc]
      | kept =>
        have hl := h.count
        cases rest with
        | nil =>
          intro ho
          have hon := ho b.allocated
          simp [Buffers.act, hl] at hon
        | cons o' rest =>
          refine Buffers.Broken.not_once (b := (b.act .kept).act o') ⟨b.allocated, ?_⟩ rest
          cases o' with
          | failed => exact absurd rfl (hk rest)
          | released =>
            simp only [Buffers.act, Buffers.delete]
            exact ⟨by omega, .inl (by simp [hl])⟩
          | kept =>
            simp only [Buffers.act]
            exact ⟨by omega, .inl (by simp [hl])⟩

theorem consider_spec (i : ℕ) (he : c.foundExactMatch = false) (m : Option Info)
  (hz : c.preferredIndex = 0x100000000 - 1 → c.preferredHorizontal = 0 ∧ c.preferredVertical = 0)
  (hi : i < 0x100000000 - 1) : ∃ c', consider x y i c m = (c', decide (outcome x y m ≠ .kept)) ∧
  c'.foundExactMatch = m.any (exactMatch x y) ∧ (c'.preferredIndex = 0x100000000 - 1 ↔
  c.preferredIndex = 0x100000000 - 1 ∧ m.any (eligible x y) = false) ∧
  (c'.preferredIndex = 0x100000000 - 1 →
  c'.preferredHorizontal = 0 ∧ c'.preferredVertical = 0) := by
  cases m with
  | none => exact ⟨c, by simp [consider, outcome], by simp [he], by simp, hz⟩
  | some info =>
    refine ⟨(consider x y i c (some info)).1, Prod.ext rfl ?_, ?_, ?_, ?_⟩ <;>
      simp only [consider, outcome, tooLarge, Option.any_some, exactMatch, eligible] <;> grind

theorem chooseLoop_queried (ms : List (Option Info)) (i : ℕ) (b : Buffers)
  (he : c.foundExactMatch = false) (hi : i + ms.length < 0x100000000)
  (hz : c.preferredIndex = 0x100000000 - 1 → c.preferredHorizontal = 0 ∧ c.preferredVertical = 0) :
  (chooseLoop x y i ms c b).2 = ((queried x y ms).map (outcome x y)).foldl Buffers.act b ∧
  ((chooseLoop x y i ms c b).1.preferredIndex = 0x100000000 - 1 ↔
  c.preferredIndex = 0x100000000 - 1 ∧ (queried x y ms).any (·.any (eligible x y)) = false) := by
  induction ms generalizing i c b with
  | nil => simp [chooseLoop, queried]
  | cons mode ms ih =>
    rw [length_cons] at hi
    obtain ⟨c', hc, hf, hp, hz'⟩ := consider_spec (x := x) (y := y) i he mode hz (by omega)
    have hb : (if outcome x y mode ≠ .kept then (b.query mode).delete else b.query mode) =
      b.act (outcome x y mode) := by
      cases mode with
      | none => rfl
      | some info => cases ht : tooLarge x y info <;> simp [outcome, ht] <;> rfl
    simp only [chooseLoop, he, hc, queried, map_cons, foldl_cons, any_cons, decide_eq_true_eq, hb,
      Bool.false_eq_true, if_false]
    cases hm : mode.any (exactMatch x y) with
    | true =>
      rw [hm] at hf
      cases ms <;> simp [chooseLoop, hf, hp]
    | false =>
      obtain ⟨hl, hr⟩ := ih (i + 1) (b.act (outcome x y mode)) (hf.trans hm) (by omega) hz'
      exact ⟨hl, by simp [hr, hp, and_assoc]⟩

theorem chooseMode_buffers (ms : List (Option Info)) (a : Option Info)
  (hl : ms.length < 0x100000000) :
  (chooseMode x y ms a).2 = (rounds x y ms a).foldl Buffers.act {} := by
  obtain ⟨hb, hp⟩ := chooseLoop_queried (x := x) (y := y) (c := {}) ms 0 {} rfl
    (by simpa using hl) fun _ ↦ ⟨rfl, rfl⟩
  simp only [true_and] at hp
  simp only [chooseMode, rounds, foldl_append, ← hb, hp]
  cases (queried x y ms).any (·.any (eligible x y)) with
  | false => rfl
  | true => cases a <;> rfl

theorem foldl_dropWhile (os : List Outcome) :
  os.foldl Buffers.act {} = (os.dropWhile (· = .failed)).foldl Buffers.act {} := by
  induction os with
  | nil => rfl
  | cons o os ih =>
    cases o with
    | failed => exact ih
    | released => rfl
    | kept => rfl

theorem chooseMode_releases_iff (x y : ℕ) (modes : List (Option Info)) (again : Option Info)
    (hlength : modes.length < 0x100000000) : (chooseMode x y modes again).2.Once ↔
      paired ((rounds x y modes again).dropWhile (· = .failed)) = true := by
  rw [chooseMode_buffers modes again hlength, foldl_dropWhile]
  refine paired_iff _ ⟨fun n ↦ by simp, by simp⟩ fun hh ↦ ?_
  have hn := head?_dropWhile_not (fun o ↦ decide (o = Outcome.failed)) (rounds x y modes again)
  simp [hh] at hn

theorem chooseMode_releases_larger :
  (chooseMode 800 600 [none, some ⟨1024, 768, .bitMask⟩, none, some ⟨800, 600, .bitMask⟩, none]
  (some ⟨800, 600, .bitMask⟩)).2.Once :=
  (chooseMode_releases_iff 800 600 [none, some ⟨1024, 768, .bitMask⟩, none,
    some ⟨800, 600, .bitMask⟩, none] (some ⟨800, 600, .bitMask⟩) (by decide)).mpr (by decide)

theorem chooseMode_leaks : ¬ (chooseMode 800 600 [some ⟨1024, 768, .bitMask⟩] none).2.Once ∧
      ¬ (chooseMode 800 600 [some ⟨640, 480, .bitMask⟩, none]
        (some ⟨640, 480, .bitMask⟩)).2.Once := by
  exact ⟨fun h ↦ absurd (h 0) (by decide), fun h ↦ absurd (h 0) (by decide)⟩

end ReaverOS.Loader
