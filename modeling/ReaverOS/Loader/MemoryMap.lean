import ReaverOS.Foundation.Buffers
import ReaverOS.Kernel.PmmPages
import ReaverOS.Paging.MapSuccess

namespace ReaverOS.Loader

open Function Foundation.Words Kernel.Pmm MemoryMapEntry List

section Merging

open Foundation.Buffers

structure MemoryMap where
  size : ℕ
  entries : ℕ → MemoryMapEntry

inductive Halt
  | stackNotFree
  deriving DecidableEq

def wordSub (a b : ℕ) : ℕ := (a + (2 ^ 64 - b)) % 2 ^ 64

namespace MemoryMap

def toList (map : MemoryMap) : List MemoryMapEntry := firsts map.entries map.size

def absorb (map : MemoryMap) (i : ℕ) : MemoryMap where
  size := map.size - 1
  entries :=
    let merged := { map.entries i with
      length := ((map.entries i).length + (map.entries (i + 1)).length) % 2 ^ 64 }
    shiftDown (map.size - 1 - (i + 1)) (i + 1) (update map.entries i merged)

def mergeNext : (rounds i : ℕ) → MemoryMap → Option MemoryMap
  | 0, _, _ => none
  | rounds + 1, i, map =>
    if i + 1 < map.size ∧ Mergeable (map.entries i) (map.entries (i + 1)) then
      mergeNext rounds i (map.absorb i)
    else some map

def mergeFrom : (rounds i : ℕ) → MemoryMap → Option MemoryMap
  | 0, _, _ => none
  | rounds + 1, i, map =>
    if i < map.size then (mergeNext (rounds + 1) i map).bind (mergeFrom rounds (i + 1))
    else some map

def carveAt (map : MemoryMap) (i start stop : ℕ) : Except Halt MemoryMap :=
  let entry := map.entries i
  if entry.type ≠ .free then .error .stackNotFree
  else if entry.physicalStart = start then
    let above :=
      { entry with
        physicalStart := stop
        length := wordSub entry.length (wordSub stop start) }
    .ok ⟨map.size, update map.entries i above⟩
  else if (entry.physicalStart + entry.length) % 2 ^ 64 = stop then
    let below := { entry with length := wordSub entry.length (wordSub stop start) }
    .ok ⟨map.size, update map.entries i below⟩
  else
    let entries := shiftUp (map.size - 1 - i) (map.size + 1) map.entries
    let above :=
      { entries (i + 2) with
        type := .free
        physicalStart := stop
        length := wordSub entry.length (wordSub stop entry.physicalStart) }
    let stack :=
      { entries (i + 1) with
        type := .workingStack
        physicalStart := start
        length := wordSub stop start }
    let below := { entry with length := wordSub start entry.physicalStart }
    .ok ⟨map.size + 1, update (update (update entries (i + 2) above) (i + 1) stack) i below⟩

def roundDown (address : ℕ) : ℕ := andNot address 4095

def roundUp (address : ℕ) : ℕ := andNot ((address + 4095) % 2 ^ 64) 4095

def carve (map : MemoryMap) (start stop : ℕ) : Except Halt MemoryMap :=
  match (List.range map.size).find? fun i ↦ (map.entries i).physicalStart ≤ start ∧
      stop ≤ ((map.entries i).physicalStart + (map.entries i).length) % 2 ^ 64 with
  | some i => map.carveAt i start stop
  | none => .ok map

def accountForStack (rounds : ℕ) (map : MemoryMap) (start stop : ℕ) :
  Option (Except Halt MemoryMap) :=
  (map.mergeFrom rounds 0).map fun map ↦ map.carve (roundDown start) (roundUp stop)

end MemoryMap

def join : MemoryMapEntry → List MemoryMapEntry → List MemoryMapEntry
  | e, [] => [e]
  | e, f :: rest =>
    if Mergeable e f then join { e with length := (e.length + f.length) % 2 ^ 64 } rest
    else e :: join f rest

def runs : List MemoryMapEntry → List MemoryMapEntry
  | [] => []
  | e :: rest => join e rest

namespace MemoryMap

variable {map : MemoryMap} {i rounds : ℕ} {e f : MemoryMapEntry}
  {pr po rest : List MemoryMapEntry}

theorem toList_absorb (h : map.toList = pr ++ e :: f :: po) : (map.absorb pr.length).toList =
  pr ++ { e with length := (e.length + f.length) % 2 ^ 64 } :: po := by
  obtain ⟨-, he, -, hsi⟩ := firsts_eq_append_cons h
  obtain ⟨-, hf, -, -⟩ := firsts_eq_append_cons (h.trans (append_cons ..))
  rw [length_append, length_singleton] at hf
  have hse := firsts_set h { e with length := (e.length + f.length) % 2 ^ 64 }
  have hs := firsts_shiftDown (hse.trans (append_cons ..))
  rw [toList, absorb, ← he, ← hf]
  rw [length_append, length_singleton] at hs
  have hc : map.size - 1 - (pr.length + 1) = po.length := by
    rw [hsi, length_cons]
    omega
  rw [hc, hs]
  simp

theorem mergeNext_spec (h : map.toList = pr ++ e :: rest) (hr : rest.length < rounds) :
  ∃ map' e' rest', map.mergeNext rounds pr.length = some map' ∧
  map'.toList = pr ++ e' :: rest' ∧ join e rest = e' :: runs rest' ∧
  rest'.length ≤ rest.length := by
  induction rest generalizing map e rounds with
  | nil =>
    obtain ⟨rounds, rfl⟩ : ∃ n, rounds = n + 1 := ⟨rounds - 1, by omega⟩
    obtain ⟨-, -, -, hs⟩ := firsts_eq_append_cons h
    refine ⟨map, e, [], ?_, h, rfl, le_rfl⟩
    rw [mergeNext, if_neg]
    rw [hs, length_nil]
    omega
  | cons f rest ih =>
    obtain ⟨rounds, rfl⟩ : ∃ n, rounds = n + 1 := ⟨rounds - 1, by omega⟩
    obtain ⟨-, he, -, hs⟩ := firsts_eq_append_cons h
    obtain ⟨-, hf, -, -⟩ := firsts_eq_append_cons (h.trans (append_cons ..))
    rw [length_append, length_singleton] at hf
    rw [mergeNext, ← he, ← hf, join]
    by_cases hm : Mergeable e f
    · rw [length_cons] at hs hr
      rw [if_pos ⟨by omega, hm⟩, if_pos hm]
      obtain ⟨map', e', rest', hn, hl, hj, hle⟩ := ih (toList_absorb h) (Nat.lt_of_succ_lt_succ hr)
      exact ⟨map', e', rest', hn, hl, hj, hle.trans (Nat.le_succ _)⟩
    · rw [if_neg fun h ↦ hm h.2, if_neg hm]
      exact ⟨map, e, f :: rest, rfl, h, rfl, le_rfl⟩

theorem mergeFrom_spec (h : map.toList = pr ++ rest) (hro : rest.length < rounds) :
  ∃ map', map.mergeFrom rounds pr.length = some map' ∧ map'.toList = pr ++ runs rest := by
  induction rounds generalizing map pr rest with
  | zero => omega
  | succ rounds ih =>
    have hs : map.size = pr.length + rest.length := by
      simpa [toList] using congrArg List.length h
    rw [mergeFrom]
    cases rest with
    | nil =>
      rw [if_neg (by simp [hs])]
      exact ⟨map, rfl, h⟩
    | cons e rest =>
      rw [length_cons] at hs hro
      rw [if_pos (by omega)]
      obtain ⟨m, e', rest', hn, hl, hj, hle⟩ :=
        mergeNext_spec h (show rest.length < rounds + 1 by omega)
      obtain ⟨map', hr, hl'⟩ := ih (hl.trans (append_cons ..)) (by omega)
      rw [length_append, length_singleton] at hr
      refine ⟨map', by rw [hn, Option.bind_some, hr], ?_⟩
      rw [hl', runs, hj]
      simp

theorem mergeFrom_zero (m : MemoryMap) :
  ∃ m', m.mergeFrom (m.size + 1) 0 = some m' ∧ m'.toList = runs m.toList := by
  refine mergeFrom_spec (show m.toList = [] ++ m.toList from rfl) ?_
  rw [toList, length_firsts]
  exact Nat.lt_succ_self _

end MemoryMap

def Describes (entries : List MemoryMapEntry) (x : ℕ) (type : MemoryType) : Prop :=
  ∃ e ∈ entries, e.type = type ∧ x ∈ e.bytes

structure Ordered (entries : List MemoryMapEntry) : Prop where
  ends : ∀ e ∈ entries, e.physicalStart + e.length < 2 ^ 64
  sorted : entries.Pairwise fun e f ↦ e.physicalStart + e.length ≤ f.physicalStart

variable {e f g : MemoryMapEntry} {rest l l' : List MemoryMapEntry} {x : ℕ} {type : MemoryType}

theorem mem_bytes : x ∈ e.bytes ↔ e.physicalStart ≤ x ∧ x < e.physicalStart + e.length :=
  Iff.rfl

theorem describes_nil : Describes [] x type ↔ False := by
  simp [Describes]

theorem describes_cons :
  Describes (e :: rest) x type ↔ e.type = type ∧ x ∈ e.bytes ∨ Describes rest x type := by
  simp [Describes]

theorem describes_append :
  Describes (l ++ l') x type ↔ Describes l x type ∨ Describes l' x type := by
  simp [Describes, or_and_right, exists_or]

theorem ordered_append : Ordered (l ++ l') ↔ Ordered l ∧ Ordered l' ∧
  ∀ e ∈ l, ∀ f ∈ l', e.physicalStart + e.length ≤ f.physicalStart := by
  constructor
  · intro h
    obtain ⟨hl, hl', hc⟩ := pairwise_append.mp h.sorted
    exact ⟨⟨fun e he ↦ h.ends e (mem_append_left _ he), hl⟩,
      ⟨fun e he ↦ h.ends e (mem_append_right _ he), hl'⟩, hc⟩
  · rintro ⟨hl, hl', hc⟩
    refine ⟨fun e he ↦ ?_, pairwise_append.mpr ⟨hl.sorted, hl'.sorted, hc⟩⟩
    exact (mem_append.mp he).elim (hl.ends e) (hl'.ends e)

theorem ordered_cons : Ordered (e :: rest) ↔ e.physicalStart + e.length < 2 ^ 64 ∧ Ordered rest ∧
  ∀ f ∈ rest, e.physicalStart + e.length ≤ f.physicalStart := by
  have ho : Ordered [e] ↔ e.physicalStart + e.length < 2 ^ 64 :=
    ⟨fun h ↦ h.ends e mem_cons_self, fun h ↦ ⟨by simpa using h, pairwise_singleton _ _⟩⟩
  rw [← singleton_append, ordered_append, ho]
  simp

theorem Ordered.eq_of_mem_bytes (h : Ordered l) (he : e ∈ l) (hf : f ∈ l) (hx : x ∈ e.bytes)
  (hx' : x ∈ f.bytes) : e = f := by
  rw [mem_bytes] at hx hx'
  induction l with
  | nil => cases he
  | cons g l ih =>
    obtain ⟨-, hr, ha⟩ := ordered_cons.mp h
    obtain _ | ⟨_, he⟩ := he
    · obtain _ | ⟨_, hf⟩ := hf
      · rfl
      · have := ha f hf
        omega
    · obtain _ | ⟨_, hf⟩ := hf
      · have := ha e he
        omega
      · exact ih hr he hf

theorem exists_start_of_mem_join (h : g ∈ join e rest) :
  ∃ f ∈ e :: rest, g.physicalStart = f.physicalStart := by
  induction rest generalizing e with
  | nil =>
    rw [join, mem_singleton] at h
    exact ⟨e, mem_cons_self, congrArg _ h⟩
  | cons f rest ih =>
    rw [join] at h
    split at h
    · obtain ⟨k, hk, he⟩ := ih h
      obtain _ | ⟨_, hk⟩ := hk
      · exact ⟨e, mem_cons_self, he⟩
      · exact ⟨k, .tail _ (.tail _ hk), he⟩
    · obtain _ | ⟨_, h⟩ := h
      · exact ⟨g, mem_cons_self, rfl⟩
      · obtain ⟨k, hk, he⟩ := ih h
        exact ⟨k, .tail _ hk, he⟩

theorem Ordered.join (h : Ordered (e :: rest)) : Ordered (join e rest) ∧
  ∀ x type, Describes (Loader.join e rest) x type ↔ Describes (e :: rest) x type := by
  induction rest generalizing e with
  | nil => exact ⟨h, fun x type ↦ Iff.rfl⟩
  | cons f rest ih =>
    obtain ⟨he, hr, ha⟩ := ordered_cons.mp h
    obtain ⟨he', hr', ha'⟩ := ordered_cons.mp hr
    rw [Loader.join]
    by_cases hm : Mergeable e f
    · obtain ⟨ht, -, hj⟩ := id hm
      rw [Nat.mod_eq_of_lt he] at hj
      have hl : (e.length + f.length) % 2 ^ 64 = e.length + f.length := Nat.mod_eq_of_lt (by omega)
      rw [if_pos hm, hl]
      obtain ⟨ho, hs⟩ := ih (e := { e with length := e.length + f.length })
        (ordered_cons.mpr ⟨by simp only; omega, hr', fun g hg ↦ by
          have := ha' g hg
          simp only
          omega⟩)
      refine ⟨ho, fun x type ↦ ?_⟩
      rw [hs, describes_cons, describes_cons, describes_cons, ← or_assoc]
      refine or_congr_left ?_
      simp only [mem_bytes, ← ht, ← and_or_left]
      refine and_congr_right fun _ ↦ ?_
      omega
    · rw [if_neg hm]
      obtain ⟨ho, hs⟩ := ih hr
      refine ⟨ordered_cons.mpr ⟨he, ho, fun g hg ↦ ?_⟩, fun x type ↦ ?_⟩
      · obtain ⟨k, hk, hq⟩ := exists_start_of_mem_join hg
        rw [hq]
        exact ha k hk
      · rw [describes_cons, describes_cons, hs]

theorem Ordered.runs (h : Ordered l) :
  Ordered (runs l) ∧ ∀ x type, Describes (Loader.runs l) x type ↔ Describes l x type := by
  cases l with
  | nil => exact ⟨h, fun x type ↦ Iff.rfl⟩
  | cons e rest => exact h.join

end Merging

section Carving

open Foundation.Buffers Option

/-- No byte of the range is free any more, and all others are described as before. -/
structure Carved (before after : List MemoryMapEntry) (start stop : ℕ) : Prop where
  outside : ∀ x, ¬ (start ≤ x ∧ x < stop) → ∀ type, Describes after x type ↔ Describes before x type
  inside : ∀ x, start ≤ x → x < stop → ¬ Describes after x .free
  ordered : Ordered after

variable {e f g : MemoryMapEntry} {pr po ps l l' : List MemoryMapEntry}
  {x start stop : ℕ} {type : MemoryType} {map : MemoryMap}

theorem Ordered.carved_replace (h : Ordered (pr ++ e :: po)) (hpi : Ordered ps)
  (hs : e.physicalStart ≤ start) (hst : stop ≤ e.physicalStart + e.length)
  (hwi : ∀ p ∈ ps, e.physicalStart ≤ p.physicalStart ∧
  p.physicalStart + p.length ≤ e.physicalStart + e.length)
  (ho : ∀ x, ¬ (start ≤ x ∧ x < stop) → ∀ type, Describes ps x type ↔ e.type = type ∧ x ∈ e.bytes)
  (hi : ∀ x, start ≤ x → x < stop → ¬ Describes ps x .free) :
  Carved (pr ++ e :: po) (pr ++ (ps ++ po)) start stop := by
  obtain ⟨hpr, hpo, hb⟩ := ordered_append.mp h
  obtain ⟨-, hpo, ha⟩ := ordered_cons.mp hpo
  have hb' := fun f hf ↦ hb f hf e mem_cons_self
  refine ⟨fun x hx type ↦ ?_, fun x hx hx' ↦ ?_, ?_⟩
  · rw [describes_append, describes_append, describes_append, describes_cons, ho x hx]
  · rw [describes_append, describes_append]
    rintro (⟨f, hf, -, hm⟩ | hfr | ⟨f, hf, -, hm⟩)
    · have := hb' f hf
      rw [mem_bytes] at hm
      omega
    · exact hi x hx hx' hfr
    · have := ha f hf
      rw [mem_bytes] at hm
      omega
  · refine ordered_append.mpr ⟨hpr, ordered_append.mpr ⟨hpi, hpo, ?_⟩, ?_⟩
    · intro p hp f hf
      exact (hwi p hp).2.trans (ha f hf)
    · intro f hf p hp
      obtain hp | hp := mem_append.mp hp
      · exact (hb' f hf).trans (hwi p hp).1
      · exact hb f hf p (.tail _ hp)

theorem wordSub_of_le {a b : ℕ} (hle : b ≤ a) (ha : a < 2 ^ 64) : wordSub a b = a - b := by
  rw [wordSub]
  omega

structure Within (e : MemoryMapEntry) (start stop : ℕ) : Prop where
  start_le : e.physicalStart ≤ start
  lt : start < stop
  le_end : stop ≤ e.physicalStart + e.length
  end_lt : e.physicalStart + e.length < 2 ^ 64

def below (e : MemoryMapEntry) (start : ℕ) : MemoryMapEntry :=
  { e with length := start - e.physicalStart }

def above (e : MemoryMapEntry) (stop : ℕ) : MemoryMapEntry :=
  { e with physicalStart := stop, length := e.physicalStart + e.length - stop }

def inThree (e : MemoryMapEntry) (start stop stackAttributes aboveAttributes : ℕ) :
  List MemoryMapEntry :=
  [below e start, ⟨start, stop - start, .workingStack, stackAttributes⟩,
    ⟨stop, e.physicalStart + e.length - stop, .free, aboveAttributes⟩]

section Carve

variable (h : map.toList = pr ++ e :: po) (hw : Within e start stop) (hf : e.type = .free)

include h hw hf

theorem carveAt_start (hs : e.physicalStart = start) :
  ∃ map', map.carveAt pr.length start stop = .ok map' ∧ map'.toList = pr ++ above e stop :: po := by
  obtain ⟨-, he, -⟩ := firsts_eq_append_cons h
  obtain ⟨hle, hlt, hen, hfi⟩ := hw
  have hl : wordSub e.length (wordSub stop start) = e.physicalStart + e.length - stop := by
    rw [wordSub_of_le hlt.le (by omega), wordSub_of_le (by omega) (by omega)]
    omega
  refine ⟨⟨map.size, update map.entries pr.length (above e stop)⟩, ?_, firsts_set h _⟩
  simp only [MemoryMap.carveAt, ← he, hf, hs, hl, above, ne_eq, not_true_eq_false,
    if_true, if_false]

theorem carveAt_stop (hs : e.physicalStart ≠ start) (hst : e.physicalStart + e.length = stop) :
  ∃ map', map.carveAt pr.length start stop = .ok map' ∧
  map'.toList = pr ++ below e start :: po := by
  obtain ⟨-, he, -⟩ := firsts_eq_append_cons h
  obtain ⟨hle, hlt, hen, hfi⟩ := hw
  have hl : wordSub e.length (wordSub stop start) = start - e.physicalStart := by
    rw [wordSub_of_le hlt.le (by omega), wordSub_of_le (by omega) (by omega)]
    omega
  have hwr := (Nat.mod_eq_of_lt hfi).trans hst
  refine ⟨⟨map.size, update map.entries pr.length (below e start)⟩, ?_, firsts_set h _⟩
  simp only [MemoryMap.carveAt, ← he, hf, hs, hl, below, hwr, ne_eq,
    not_true_eq_false, if_true, if_false]

theorem carveAt_split (hs : e.physicalStart ≠ start) (hst : e.physicalStart + e.length ≠ stop) :
  ∃ map' ss ab, map.carveAt pr.length start stop = .ok map' ∧ map'.toList =
  (pr ++ (inThree e start stop ss ab ++ po)).dropLast := by
  obtain ⟨-, he, -, hsi⟩ := firsts_eq_append_cons h
  obtain ⟨hle, hlt, hen, hfi⟩ := hw
  have hc : map.size - 1 - pr.length = po.length := by omega
  have ha : wordSub e.length (wordSub stop e.physicalStart) =
    e.physicalStart + e.length - stop := by
    rw [wordSub_of_le (hle.trans hlt.le) (by omega), wordSub_of_le (by omega) (by omega)]
    omega
  have hl (b : ℕ → MemoryMapEntry) : firsts b (map.size + 1) =
    (firsts b (map.size + 2)).dropLast := by
    rw [firsts_add b (map.size + 1) 1]
    exact dropLast_concat.symm
  let entries := shiftUp po.length (map.size + 1) map.entries
  let stack : MemoryMapEntry :=
    ⟨start, stop - start, .workingStack, (entries (pr.length + 1)).attributes⟩
  let rest : MemoryMapEntry :=
    ⟨stop, e.physicalStart + e.length - stop, .free, (entries (pr.length + 2)).attributes⟩
  refine ⟨⟨map.size + 1, update (update (update entries (pr.length + 2) rest) (pr.length + 1)
    stack) pr.length (below e start)⟩, stack.attributes, rest.attributes, ?_,
    (hl _).trans (congrArg List.dropLast (firsts_shiftUp h _ _ _))⟩
  simp only [MemoryMap.carveAt, ← he, hf, hs, hc, ha, below, entries, stack, rest,
    Nat.mod_eq_of_lt hfi, hst, wordSub_of_le hlt.le (show stop < 2 ^ 64 by omega),
    wordSub_of_le hle (show start < 2 ^ 64 by omega), ne_eq, not_true_eq_false, if_false]

end Carve

theorem Ordered.within (h : Ordered l) (he : e ∈ l) (hl : start < stop)
  (hs : e.physicalStart ≤ start) (hst : stop ≤ e.physicalStart + e.length) :
  Within e start stop :=
  ⟨hs, hl, hst, h.ends e he⟩

theorem carve_of_within (h : Ordered map.toList) (hl : map.toList = pr ++ e :: po)
  (hw : Within e start stop) : map.carve start stop = map.carveAt pr.length start stop := by
  obtain ⟨-, he, -, hs⟩ := firsts_eq_append_cons hl
  obtain ⟨hle, hlt, hen, hf⟩ := hw
  have hin : pr.length < map.size := by omega
  rw [MemoryMap.carve]
  cases hfi : (List.range map.size).find? _ with
  | none =>
    have hn := find?_eq_none.mp hfi pr.length (mem_range.mpr hin)
    rw [← he, Nat.mod_eq_of_lt hf] at hn
    simp [hle, hen] at hn
  | some i =>
    have hi := mem_range.mp (mem_of_find?_eq_some hfi)
    have hc := find?_some hfi
    have hf' := h.ends _ (mem_firsts.mpr ⟨i, hi, rfl⟩)
    rw [decide_eq_true_eq, Nat.mod_eq_of_lt hf'] at hc
    -- both entries have the first byte of the range
    obtain hlt' | rfl | hgt := Nat.lt_trichotomy i pr.length
    · have := pairwise_firsts h.sorted hlt' hin
      rw [← he] at this
      omega
    · rfl
    · have := pairwise_firsts h.sorted hgt hi
      rw [← he] at this
      omega

theorem carve_of_not_within (h : Ordered map.toList) (hl : start < stop)
  (hn : ∀ e ∈ map.toList, ¬ Within e start stop) : map.carve start stop = .ok map := by
  rw [MemoryMap.carve]
  cases hf : (List.range map.size).find? _ with
  | none => rfl
  | some i =>
    have hi := mem_range.mp (mem_of_find?_eq_some hf)
    have hm : map.entries i ∈ map.toList := mem_firsts.mpr ⟨i, hi, rfl⟩
    have hc := find?_some hf
    rw [decide_eq_true_eq, Nat.mod_eq_of_lt (h.ends _ hm)] at hc
    exact absurd (h.within hm hl hc.1 hc.2) (hn _ hm)

section Pieces

variable (h : Ordered (pr ++ e :: po)) (hw : Within e start stop)
include h hw

theorem carved_piece (ht : f.type = e.type)
  (hb : ∀ x, x ∈ f.bytes ↔ x ∈ e.bytes ∧ ¬ (start ≤ x ∧ x < stop))
  (hwi : e.physicalStart ≤ f.physicalStart ∧
  f.physicalStart + f.length ≤ e.physicalStart + e.length) :
  Carved (pr ++ e :: po) (pr ++ f :: po) start stop := by
  have hp : Ordered [f] := ⟨by simpa using hwi.2.trans_lt hw.end_lt, pairwise_singleton _ _⟩
  refine h.carved_replace hp hw.start_le hw.le_end (by simpa using hwi) ?_ ?_
  · intro x hx type
    rw [describes_cons, describes_nil, or_false, ht, hb, and_iff_left hx]
  · intro x hx hx'
    rw [describes_cons, describes_nil, or_false, hb]
    exact fun hf ↦ hf.2.2 ⟨hx, hx'⟩

theorem carved_start (hs : e.physicalStart = start) :
  Carved (pr ++ e :: po) (pr ++ above e stop :: po) start stop := by
  obtain ⟨hle, hlt, he, hf⟩ := id hw
  refine carved_piece h hw rfl (fun x ↦ ?_) ?_
  · simp only [above, mem_bytes]
    omega
  · simp only [above]
    omega

theorem carved_stop (hs : e.physicalStart + e.length = stop) :
  Carved (pr ++ e :: po) (pr ++ below e start :: po) start stop := by
  obtain ⟨hle, hlt, he, hf⟩ := id hw
  refine carved_piece h hw rfl (fun x ↦ ?_) ?_
  · simp only [below, mem_bytes]
    omega
  · simp only [below]
    omega

theorem carved_inThree (hf : e.type = .free) (ss ab : ℕ) : Carved (pr ++ e :: po)
  (pr ++ (inThree e start stop ss ab ++ po)) start stop := by
  obtain ⟨hl, hlt, he, hfi⟩ := hw
  refine h.carved_replace ⟨?_, ?_⟩ hl he ?_ ?_ ?_
  · simp only [inThree, below, forall_mem_cons, not_mem_nil, false_imp_iff, implies_true, and_true]
    omega
  · simp [inThree, below]
    omega
  · simp only [inThree, below, forall_mem_cons, not_mem_nil, false_imp_iff, implies_true, and_true]
    omega
  · intro x hx type
    simp only [inThree, below, describes_cons, describes_nil, or_false, mem_bytes, hf]
    by_cases ht : MemoryType.free = type
    · simp only [ht, true_and]
      omega
    · simp only [ht, false_and, false_or, or_false, iff_false]
      omega
  · intro x hx hx'
    simp only [inThree, below, describes_cons, describes_nil, or_false, mem_bytes, reduceCtorEq,
      false_and, false_or]
    omega

end Pieces

theorem Within.type_eq_free (hw : Within e start stop) (h : Ordered l) (he : e ∈ l)
  (hfr : Describes l start .free) : e.type = .free := by
  obtain ⟨f, hf, ht, hx⟩ := hfr
  have hm : start ∈ e.bytes := ⟨hw.start_le, hw.lt.trans_le hw.le_end⟩
  rw [h.eq_of_mem_bytes he hf hm hx]
  exact ht

theorem Carved.dropLast_iff (h : Carved l (l' ++ [g]) start stop) (hst : stop ≤ g.physicalStart) :
  Carved l l' start stop ↔ g.length = 0 := by
  obtain ⟨hl', -, hl⟩ := ordered_append.mp h.ordered
  constructor
  · intro hc
    by_contra hne
    -- its first byte is in no other entry
    have hx : ¬ (start ≤ g.physicalStart ∧ g.physicalStart < stop) := by omega
    have hd : Describes (l' ++ [g]) g.physicalStart g.type :=
      ⟨g, mem_concat_self, rfl, ⟨le_rfl, by omega⟩⟩
    obtain ⟨f, hf, -, hm⟩ := (hc.outside _ hx _).mpr ((h.outside _ hx _).mp hd)
    exact absurd hm.2 (not_lt.mpr (hl f hf g mem_cons_self))
  · intro hz
    have hs (x : ℕ) (type : MemoryType) : Describes l' x type ↔ Describes (l' ++ [g]) x type := by
      rw [describes_append, describes_cons, describes_nil, or_false, mem_bytes, hz]
      refine ⟨.inl, ?_⟩
      rintro (hx | ⟨-, hle, hlt⟩)
      · exact hx
      · omega
    exact ⟨fun x hx type ↦ (hs x type).trans (h.outside x hx type),
      fun x hx hx' hfr ↦ h.inside x hx hx' ((hs x _).mp hfr), hl'⟩

theorem carved_dropLast_iff (h : Ordered (pr ++ e :: po)) (hw : Within e start stop)
  (hf : e.type = .free) (hs : e.physicalStart + e.length ≠ stop)
  (ss ab : ℕ) : Carved (pr ++ e :: po) (pr ++ (inThree e start stop ss ab ++ po)).dropLast
  start stop ↔ ∃ y ∈ (pr ++ e :: po).getLast?, y.length = 0 := by
  have hc := carved_inThree h hw hf ss ab
  obtain ⟨hle, hlt, he, -⟩ := hw
  obtain rfl | ⟨po, g, rfl⟩ := eq_nil_or_concat po
  · have hl : pr ++ (inThree e start stop ss ab ++ []) =
      (pr ++ [below e start, ⟨start, stop - start, .workingStack, ss⟩]) ++
      [⟨stop, e.physicalStart + e.length - stop, .free, ab⟩] := by
      simp [inThree]
    rw [hl] at hc ⊢
    rw [dropLast_concat, hc.dropLast_iff le_rfl, getLast?_concat]
    simp only [mem_def, some.injEq, exists_eq_left']
    omega
  · rw [concat_eq_append] at *
    obtain ⟨-, hp, -⟩ := ordered_append.mp h
    obtain ⟨-, -, ha⟩ := ordered_cons.mp hp
    have hs' := he.trans (ha g mem_concat_self)
    rw [← append_assoc, ← append_assoc] at hc ⊢
    rw [dropLast_concat, hc.dropLast_iff hs', ← cons_append, ← append_assoc, getLast?_concat]
    simp

theorem carve_carved_iff (h : Ordered map.toList) (hlt : start < stop)
  (hfr : Describes map.toList start .free) :
  (∃ map', map.carve start stop = .ok map' ∧ Carved map.toList map'.toList start stop) ↔
  ∃ e ∈ map.toList, Within e start stop ∧ (e.physicalStart = start ∨
  e.physicalStart + e.length = stop ∨ ∃ y ∈ map.toList.getLast?, y.length = 0) := by
  by_cases hwi : ∃ e ∈ map.toList, Within e start stop
  · obtain ⟨e, he, hw⟩ := hwi
    have ht := hw.type_eq_free h he hfr
    have hon : (∃ e ∈ map.toList, Within e start stop ∧ (e.physicalStart = start ∨
      e.physicalStart + e.length = stop ∨ ∃ y ∈ map.toList.getLast?, y.length = 0)) ↔
      (e.physicalStart = start ∨ e.physicalStart + e.length = stop ∨
      ∃ y ∈ map.toList.getLast?, y.length = 0) := by
      refine ⟨?_, fun hca ↦ ⟨e, he, hw, hca⟩⟩
      rintro ⟨f, hf, hw', hca⟩
      rwa [h.eq_of_mem_bytes he hf ⟨hw.start_le, hlt.trans_le hw.le_end⟩
        ⟨hw'.start_le, hlt.trans_le hw'.le_end⟩]
    rw [hon]
    obtain ⟨pr, po, hl⟩ := append_of_mem he
    rw [carve_of_within h hl hw]
    have ho := hl ▸ h
    by_cases hs : e.physicalStart = start
    · obtain ⟨map', hc, hl'⟩ := carveAt_start hl hw ht hs
      refine iff_of_true ⟨map', hc, ?_⟩ (.inl hs)
      rw [hl, hl']
      exact carved_start ho hw hs
    · by_cases hst : e.physicalStart + e.length = stop
      · obtain ⟨map', hc, hl'⟩ := carveAt_stop hl hw ht hs hst
        refine iff_of_true ⟨map', hc, ?_⟩ (.inr (.inl hst))
        rw [hl, hl']
        exact carved_stop ho hw hst
      · obtain ⟨map', _, _, hc, hl'⟩ := carveAt_split hl hw ht hs hst
        rw [hc, or_iff_right hs, or_iff_right hst]
        simp only [Except.ok.injEq, exists_eq_left']
        rw [hl, hl']
        exact carved_dropLast_iff ho hw ht hst _ _
  · rw [carve_of_not_within h hlt fun e he hw ↦ hwi ⟨e, he, hw⟩]
    refine iff_of_false ?_ fun ⟨e, he, hw, _⟩ ↦ hwi ⟨e, he, hw⟩
    rintro ⟨map', hm, hcr⟩
    cases hm
    exact hcr.inside start le_rfl hlt hfr

def pageBelow (address : ℕ) : ℕ := address / 4096 * 4096

def pageAbove (address : ℕ) : ℕ := (address + 4095) / 4096 * 4096

theorem roundDown_eq {address : ℕ} (h : address < 2 ^ 64) :
  MemoryMap.roundDown address = pageBelow address :=
  andNot_low_bits h (by decide : 12 ≤ 64)

theorem roundUp_eq {address : ℕ} (h : pageAbove address < 2 ^ 64) :
  MemoryMap.roundUp address = pageAbove address := by
  have hf : address + 4095 < 2 ^ 64 := by
    rw [pageAbove] at h
    omega
  rw [MemoryMap.roundUp, Nat.mod_eq_of_lt hf]
  exact andNot_low_bits hf (by decide : 12 ≤ 64)

theorem Describes.lt (h : Describes l x type) (hl : Ordered l) : x + 1 < 2 ^ 64 := by
  obtain ⟨e, he, -, hx⟩ := h
  have hen := hl.ends e he
  rw [mem_bytes] at hx
  omega

theorem accountForStack_carves_iff (map : MemoryMap) {start stop : ℕ} (hmap : Ordered map.toList)
    (hlt : start < stop)
    (hfree : ∀ x, pageBelow start ≤ x → x < pageAbove stop → Describes map.toList x .free) :
    (∃ merged, map.mergeFrom (map.size + 1) 0 = some merged) ∧
    ((∃ map', map.accountForStack (map.size + 1) start stop = some (.ok map') ∧
        Carved map.toList map'.toList (pageBelow start) (pageAbove stop)) ↔
      ∃ run ∈ runs map.toList, Within run (pageBelow start) (pageAbove stop) ∧
        (run.physicalStart = pageBelow start ∨ run.physicalStart + run.length = pageAbove stop ∨
          ∃ last ∈ (runs map.toList).getLast?, last.length = 0)) := by
  have hp : pageBelow start < pageAbove stop := by
    rw [pageBelow, pageAbove]
    omega
  have hf := hfree _ le_rfl hp
  have hsta : start < 2 ^ 64 := by
    have := hf.lt hmap
    rw [pageBelow] at this
    omega
  have hst : pageAbove stop < 2 ^ 64 := by
    have := (hfree (pageAbove stop - 1) (by omega) (by omega)).lt hmap
    omega
  obtain ⟨merged, hm, hl⟩ := map.mergeFrom_zero
  obtain ⟨ho, hs⟩ := hmap.runs
  refine ⟨⟨merged, hm⟩, ?_⟩
  rw [← hl] at ho hs ⊢
  rw [← carve_carved_iff ho hp ((hs _ _).mpr hf), MemoryMap.accountForStack,
    hm, map_some, roundDown_eq hsta, roundUp_eq hst]
  simp only [some.injEq]
  refine exists_congr fun map' ↦ and_congr_right fun _ ↦ ?_
  constructor
  · intro h
    exact ⟨fun x hx type ↦ (h.outside x hx type).trans (hs x type).symm, h.inside, h.ordered⟩
  · intro h
    exact ⟨fun x hx type ↦ (h.outside x hx type).trans (hs x type), h.inside, h.ordered⟩

def MemoryMap.ofList (entries : List MemoryMapEntry) : MemoryMap :=
  ⟨entries.length, fun i ↦ entries.getD i ⟨0, 0, .unusable, 0⟩⟩

theorem MemoryMap.toList_ofList (entries : List MemoryMapEntry) :
  (MemoryMap.ofList entries).toList = entries := by
  refine ext_getElem? fun i ↦ ?_
  by_cases hi : i < entries.length
  · rw [toList, ofList, getElem?_firsts hi, getElem?_eq_getElem hi]
    exact congrArg some (getD_eq_getElem _ _ hi)
  · rw [getElem?_eq_none (Nat.le_of_not_lt hi), getElem?_eq_none]
    simpa [toList, ofList] using hi

def twoFree : List MemoryMapEntry :=
  [⟨0x100000, 0x4000, .free, 0⟩, ⟨0x104000, 0x4000, .free, 0⟩, ⟨0x108000, 0x1000, .kernel, 0⟩]

theorem accountForStack_carves_twoFree :
  ∃ map', (MemoryMap.ofList twoFree).accountForStack 4 0x103010 0x107010 = some (.ok map') ∧
  Carved twoFree map'.toList 0x103000 0x108000 := by
  have ho : Ordered twoFree := ⟨by decide, by decide⟩
  have hc := accountForStack_carves_iff (MemoryMap.ofList twoFree)
    (by rwa [MemoryMap.toList_ofList]) (by decide : 0x103010 < 0x107010)
  rw [MemoryMap.toList_ofList] at hc
  refine (hc fun x hx hx' ↦ ?_).2.mpr ?_
  · by_cases hlt : x < 0x104000
    · exact ⟨⟨0x100000, 0x4000, .free, 0⟩, by decide, rfl, le_trans (by decide) hx, hlt⟩
    · exact ⟨⟨0x104000, 0x4000, .free, 0⟩, by decide, rfl, Nat.le_of_not_lt hlt, hx'⟩
  · exact ⟨⟨0x100000, 0x8000, .free, 0⟩, by decide, ⟨by decide, by decide, by decide, by decide⟩,
      .inr (.inl rfl)⟩

theorem accountForStack_loses_kernel : (∃ map', (MemoryMap.ofList [⟨0x100000, 0x10000, .free, 0⟩,
  ⟨0x110000, 0x1000, .kernel, 0⟩]).accountForStack 3 0x104000 0x107000 = some (.ok map') ∧
  map'.toList = [⟨0x100000, 0x4000, .free, 0⟩, ⟨0x104000, 0x3000, .workingStack, 0⟩,
  ⟨0x107000, 0x9000, .free, 0⟩]) ∧ ∃ map', (MemoryMap.ofList [⟨0x100000, 0x5000, .free, 0⟩,
  ⟨0x105000, 0x5000, .free, 1⟩]).accountForStack 3 0x104000 0x107000 = some (.ok map') ∧
  map'.toList = [⟨0x100000, 0x5000, .free, 0⟩, ⟨0x105000, 0x5000, .free, 1⟩] := by
  exact ⟨⟨_, rfl, by decide⟩, _, rfl, by decide⟩

end Carving

open Paging

def stackBase (approximatelyStack : ℕ) : ℕ := wordSub approximatelyStack (2 * 4096)

def mapStack (pml4 : Pmlt 4) (approximatelyStack : ℕ) (frames : List ℕ) :
  Except Paging.Fault (Pmlt 4 × List ℕ) :=
  vmMap pml4 (stackBase approximatelyStack) (3 * 4096) (stackBase approximatelyStack) frames

def reserveStack (rounds : ℕ) (map : MemoryMap) (approximatelyStack : ℕ) :
  Option (Except Halt MemoryMap) :=
  map.accountForStack rounds approximatelyStack ((approximatelyStack + 3 * 4096) % 2 ^ 64)

def StackByte (approximatelyStack x : ℕ) : Prop :=
  pageBelow (stackBase approximatelyStack) ≤ x ∧
    x < pageBelow (stackBase approximatelyStack) + 3 * 4096

variable {a x : ℕ} {e : MemoryMapEntry} {l rest : List MemoryMapEntry} {map : MemoryMap}

theorem pageBelow_stackBase (hl : 2 * 4096 ≤ a) (ha : a < 2 ^ 64) :
  pageBelow (stackBase a) + 2 * 4096 = pageBelow a := by
  rw [stackBase, wordSub_of_le hl ha, pageBelow, pageBelow]
  omega

theorem stackByte_iff (hl : 2 * 4096 ≤ a) (ha : a < 2 ^ 64) :
  StackByte a x ↔ pageBelow a ≤ x + 2 * 4096 ∧ x < pageBelow a + 4096 := by
  have := pageBelow_stackBase hl ha
  rw [StackByte]
  omega

theorem mapStack_leaf {pml4 pml4' : Pmlt 4} {frames frames' : List ℕ} (hlo : 2 * 4096 ≤ a)
    (ha : pageBelow a + 4096 ≤ 2 ^ 47) (h : mapStack pml4 a frames = .ok (pml4', frames'))
    (hx : x < 2 ^ 47) : (StackByte a x → ∃ user address, leaf 4 pml4' x = some ⟨1, user, address⟩) ∧
      (¬ StackByte a x → leaf 4 pml4' x = leaf 4 pml4 x) := by
  have hlt : a < 2 ^ 64 := by
    rw [pageBelow] at ha
    omega
  have hbe := pageBelow_stackBase hlo hlt
  have hl : pageBelow (stackBase a) + 3 * 4096 ≤ 2 ^ 47 := by omega
  have hf : stackBase a < 2 ^ 64 := Nat.mod_lt _ (by decide)
  have hs : andNot (stackBase a) (pageSize - 1) = pageBelow (stackBase a) :=
    andNot_low_bits hf (by decide : 12 ≤ 64)
  have hst : andNot ((pageBelow (stackBase a) + 3 * 4096 + pageSize - 1) % 2 ^ 64)
    (pageSize - 1) = pageBelow (stackBase a) + 3 * 4096 := by
    refine (andNot_low_bits (Nat.mod_lt _ (by decide)) (by decide : 12 ≤ 64)).trans ?_
    rw [pageBelow] at hl ⊢
    rw [pageSize]
    omega
  have hb {y : ℕ} (hy : y < 2 ^ 47) : y / entrySize 5 = 0 := by
    rw [show entrySize 5 = 2 ^ 48 by decide]
    omega
  rw [mapStack, vmMap, mapRange] at h
  simp only [hs, hst] at h
  rw [if_neg (by decide)] at h
  have hpa : pageSize ∣ pageBelow (stackBase a) := dvd_mul_left _ _
  have hp : pageSize ∣ pageBelow (stackBase a) + 3 * 4096 := by
    rw [pageSize, pageBelow]
    omega
  have he : pageBelow (stackBase a) < pageBelow (stackBase a) + 3 * 4096 →
    (pageBelow (stackBase a) + 3 * 4096 - 1) / entrySize 5 =
    pageBelow (stackBase a) / entrySize 5 := fun _ ↦ (hb (by omega)).trans (hb (by omega)).symm
  have hh : x / entrySize 5 = pageBelow (stackBase a) / entrySize 5 :=
    (hb hx).trans (hb (by omega)).symm
  exact vmMap_leaf le_rfl (by omega) hpa hp he h hh

theorem mapStack_leaf_low : ∃ r, mapStack (fun _ ↦ .absent false) 0x8000 [1, 2, 3] = .ok r ∧
  ∃ user address, leaf 4 r.1 0x7000 = some ⟨1, user, address⟩ := by
  have h : ∃ r, mapStack (fun _ ↦ .absent false) 0x8000 [1, 2, 3] = .ok r := ⟨_, rfl⟩
  obtain ⟨r, h⟩ := h
  exact ⟨r, h, (mapStack_leaf (by decide) (by decide) h (by decide)).1 ⟨by decide, by decide⟩⟩

theorem exists_mem_join (h : Ordered (e :: rest)) {f : MemoryMapEntry} (hf : f ∈ e :: rest) :
  ∃ r ∈ join e rest, r.type = f.type ∧ r.physicalStart ≤ f.physicalStart ∧
  f.physicalStart + f.length ≤ r.physicalStart + r.length := by
  induction rest generalizing e f with
  | nil =>
    obtain rfl := mem_singleton.mp hf
    exact ⟨f, hf, rfl, le_rfl, le_rfl⟩
  | cons g rest ih =>
    obtain ⟨he, hr, ha⟩ := ordered_cons.mp h
    obtain ⟨he', hr', ha'⟩ := ordered_cons.mp hr
    rw [join]
    by_cases hm : Mergeable e g
    · obtain ⟨ht, -, haj⟩ := id hm
      rw [Nat.mod_eq_of_lt he] at haj
      have hl : (e.length + g.length) % 2 ^ 64 = e.length + g.length := Nat.mod_eq_of_lt (by omega)
      rw [if_pos hm, hl]
      have hj : Ordered ({ e with length := e.length + g.length } :: rest) :=
        ordered_cons.mpr ⟨by simp only; omega, hr', fun k hk ↦ by
          have := ha' k hk
          simp only
          omega⟩
      obtain _ | ⟨_, _ | ⟨_, hf⟩⟩ := hf
      · obtain ⟨r, hru, ht', hs, hst⟩ := ih hj mem_cons_self
        simp only at hs hst
        exact ⟨r, hru, ht', hs, by omega⟩
      · obtain ⟨r, hru, ht', hs, hst⟩ := ih hj mem_cons_self
        simp only at hs hst
        exact ⟨r, hru, ht'.trans ht, by omega, by omega⟩
      · exact ih hj (.tail _ hf)
    · rw [if_neg hm]
      obtain _ | ⟨_, hf⟩ := hf
      · exact ⟨e, mem_cons_self, rfl, le_rfl, le_rfl⟩
      · obtain ⟨r, hru, hsp⟩ := ih hr hf
        exact ⟨r, .tail _ hru, hsp⟩

theorem exists_mem_runs (h : Ordered l) (he : e ∈ l) :
  ∃ r ∈ runs l, r.type = e.type ∧ r.physicalStart ≤ e.physicalStart ∧
  e.physicalStart + e.length ≤ r.physicalStart + r.length := by
  cases l with
  | nil => cases he
  | cons f rest => exact exists_mem_join h he

structure Roomy (map : MemoryMap) (approximatelyStack : ℕ) (e : MemoryMapEntry) : Prop where
  mem : e ∈ map.toList
  free : e.type = .free
  below : e.physicalStart + 3 * 4096 ≤ pageBelow approximatelyStack
  above : pageAbove (approximatelyStack + 3 * 4096) + 4096 ≤ e.physicalStart + e.length

theorem reserveStack_free_iff (map : MemoryMap) (approximatelyStack : ℕ) (hmap : Ordered map.toList)
    (hroomy : ∃ e, Roomy map approximatelyStack e) :
    ∃ map', reserveStack (map.size + 1) map approximatelyStack = some (.ok map') ∧
      (∀ x, StackByte approximatelyStack x →
        (Describes map'.toList x .free ↔ x < pageBelow approximatelyStack)) ∧
      (SortedMap map'.toList → (∀ e ∈ map'.toList, 1024 * 1024 ≤ e.physicalStart) →
        ∃ s, initializePmm map'.toList = .ok s ∧ ∀ x, StackByte approximatelyStack x →
          (x ∈ freeBytes s ↔ x < pageBelow approximatelyStack)) := by
  obtain ⟨e, he, hfr, hb, ha⟩ := hroomy
  have hen := hmap.ends e he
  have hst : approximatelyStack + 3 * 4096 < 2 ^ 64 := by
    rw [pageAbove] at ha
    omega
  obtain ⟨m, hm, hl⟩ := map.mergeFrom_zero
  obtain ⟨ho, -⟩ := hmap.runs
  obtain ⟨r, hrn, ht, hr, hru⟩ := exists_mem_runs hmap he
  have hw : Within r (pageBelow approximatelyStack)
    (pageAbove (approximatelyStack + 3 * 4096)) := by
    refine ⟨by omega, ?_, by omega, ho.ends r hrn⟩
    rw [pageBelow, pageAbove]
    omega
  rw [← hl] at ho hrn
  obtain ⟨pr, po, hsp⟩ := append_of_mem hrn
  obtain ⟨map', _, _, hca, hl'⟩ := carveAt_split hsp hw (ht.trans hfr) (by omega) (by omega)
  have hc := carved_inThree (hsp ▸ ho) hw (ht.trans hfr)
  have hd : ∀ x, StackByte approximatelyStack x →
    (Describes map'.toList x .free ↔ x < pageBelow approximatelyStack) := by
    intro x hx
    have hle : pageBelow approximatelyStack ≤ _ := Nat.div_mul_le_self _ _
    rw [stackByte_iff (by omega) (by omega)] at hx
    constructor
    · intro hd
      by_contra hge
      obtain ⟨f, hf, hff, hme⟩ := hd
      rw [hl'] at hf
      refine (hc _ _).inside x (by omega) ?_ ⟨f, dropLast_subset _ hf, hff, hme⟩
      rw [pageAbove]
      rw [pageBelow] at hx
      omega
    · intro hlt
      refine ⟨Loader.below r (pageBelow approximatelyStack), ?_, ht.trans hfr,
        ⟨by simp only [Loader.below]; omega, ?_⟩⟩
      · rw [hl', inThree, cons_append, dropLast_append_of_ne_nil (by simp),
          cons_append, dropLast_cons_of_ne_nil (by simp)]
        simp
      · simp only [Loader.below]
        omega
  refine ⟨map', ?_, hd, fun hso hh ↦ ?_⟩
  · rw [reserveStack, MemoryMap.accountForStack, hm, Option.map_some, Nat.mod_eq_of_lt hst,
      roundDown_eq (by omega), roundUp_eq (by omega), carve_of_within ho hsp hw, hca]
  · obtain ⟨s, hs, hex⟩ := initializePmm_plain hso fun f hf _ ↦ hh f hf
    refine ⟨s, hs, fun x hx ↦ ?_⟩
    rw [hex.free, blank_initial.free, Set.empty_union]
    exact hd x hx

def oneFree : MemoryMap :=
  .ofList [⟨0x100000, 0x20000, .free, 0⟩, ⟨0x120000, 0x1000, .kernel, 0⟩]

theorem reserveStack_free_oneFree : ∃ map', reserveStack 3 oneFree 0x110010 = some (.ok map') ∧
  ∀ x, StackByte 0x110010 x → (Describes map'.toList x .free ↔ x < 0x110000) := by
  obtain ⟨map', hr, hf, -⟩ := reserveStack_free_iff oneFree 0x110010 ⟨by decide, by decide⟩
    ⟨⟨0x100000, 0x20000, .free, 0⟩, by decide, rfl, by decide, by decide⟩
  exact ⟨map', hr, hf⟩

theorem stack_given_to_pmm :
    (∃ pml4, mapStack (fun _ ↦ .absent false) 0x110010 [0x200000, 0x201000, 0x202000] =
        .ok (pml4, []) ∧
      vmVirtToPhys 4 pml4 0x10e000 = .ok 0x10e000 ∧ vmVirtToPhys 4 pml4 0x10f000 = .ok 0x10f000) ∧
    ∃ map' s, reserveStack 3 oneFree 0x110010 = some (.ok map') ∧
      initializePmm map'.toList = .ok s ∧ 0x10e000 ∈ frames s 0 ∧ 0x10f000 ∈ frames s 0 := by
  exact ⟨⟨_, rfl, rfl, rfl⟩, _, _, rfl, rfl, by decide +kernel, by decide +kernel⟩

end ReaverOS.Loader
