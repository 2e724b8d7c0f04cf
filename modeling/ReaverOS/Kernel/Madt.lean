import Mathlib.Data.List.Basic
import ReaverOS.Foundation.ByteMemory

namespace ReaverOS.Kernel.Acpi

open Function Foundation ByteMemory List Option

structure Core where
  isValid : Bool := false
  apicId : ℕ := 0
  acpiId : ℕ := 0
  nmiValid : Bool := false
  nmiVector : ℕ := 0
  nmiFlags : ℕ := 0

def Core.initializeIds (core : Core) (apicId acpiId : ℕ) : Core :=
  { core with isValid := true, apicId, acpiId }

def Core.setNmi (core : Core) (interrupt flags : ℕ) : Core :=
  { core with nmiValid := true, nmiVector := interrupt, nmiFlags := flags }

/-- The variables of `parse_madt`, with records of the cores that were written and of the entries
whose headers were read. -/
structure Parse where
  cores : ℕ → Core
  detectedCores : ℕ := 0
  lapicAddress : ℕ
  writes : List ℕ := []
  headers : List ℕ := []

structure MadtResult where
  coreCount : ℕ
  lapicBase : ℕ

variable (madt : ByteMemory)

def tableLength : ℕ := madt.load 4 4

def validate (sign : List UInt8) : Bool :=
  (List.range 4).map madt = sign &&
    (List.range (tableLength madt)).foldl (fun sum i ↦ sum + madt i) 0 = 0

def lapicBase : ℕ := madt.load 36 4

def entriesOffset : ℕ := 44

def entryType (entry : ℕ) : ℕ := madt.load entry 1

def entryLength (entry : ℕ) : ℕ := madt.load (entry + 1) 1

def Parse.addCore (s : Parse) (apicId acpiId : ℕ) : Parse :=
  { s with
    cores := update s.cores s.detectedCores ((s.cores s.detectedCores).initializeIds apicId acpiId)
    detectedCores := s.detectedCores + 1
    writes := s.detectedCores :: s.writes }

def visit (s : Parse) (entry : ℕ) : Parse :=
  let s := { s with headers := entry :: s.headers }
  if entryType madt entry = 0 then
    if madt.load (entry + 4) 4 % 2 = 1 then
      s.addCore (madt.load (entry + 3) 1) (madt.load (entry + 2) 1)
    else s
  else if entryType madt entry = 5 then { s with lapicAddress := madt.load (entry + 4) 8 }
  else if entryType madt entry = 9 then
    if madt.load (entry + 8) 4 % 2 = 1 then
      s.addCore (madt.load (entry + 4) 4) (madt.load (entry + 12) 4)
    else s
  else s

def Parse.setNmi (interrupt flags : ℕ) (s : Parse) (i : ℕ) : Parse :=
  { s with cores := update s.cores i ((s.cores i).setNmi interrupt flags), writes := i :: s.writes }

def Parse.connectNmi (s : Parse) (acpiId interrupt flags : ℕ) : Parse :=
  if acpiId = 0xff then (List.range s.detectedCores).foldl (Parse.setNmi interrupt flags) s
  else
    match (List.range s.detectedCores).find? fun idx ↦ (s.cores idx).acpiId = acpiId with
    | some idx => s.setNmi interrupt flags idx
    | none => s

def visitNmi (s : Parse) (entry : ℕ) : Parse :=
  let s := { s with headers := entry :: s.headers }
  if entryType madt entry = 4 then
    s.connectNmi (madt.load (entry + 2) 1) (madt.load (entry + 5) 1) (madt.load (entry + 3) 2)
  else if entryType madt entry = 10 then
    s.connectNmi (madt.load (entry + 4) 4) (madt.load (entry + 8) 1) (madt.load (entry + 2) 2)
  else s

def entryLoop (body : Parse → ℕ → Parse) : (rounds entry : ℕ) → Parse → Option Parse
  | 0, _, _ => none
  | rounds + 1, entry, s =>
    if entry < tableLength madt then
      entryLoop body rounds (entry + entryLength madt entry) (body s entry)
    else some s

def parseMadt (rounds : ℕ) (coresStorage : ℕ → Core) (maxCoreCount : ℕ) :
  Option (Parse × MadtResult) :=
  (entryLoop madt (visit madt) rounds entriesOffset
    { cores := coresStorage, lapicAddress := lapicBase madt }).bind fun s ↦
    (entryLoop madt (visitNmi madt) rounds entriesOffset s).map fun s ↦
      if s.detectedCores > maxCoreCount then (s, ⟨maxCoreCount, s.lapicAddress⟩)
      else (s, ⟨s.detectedCores, s.lapicAddress⟩)

def Entries : ℕ → List ℕ → Prop
  | offset, [] => tableLength madt ≤ offset
  | offset, entry :: entries => entry = offset ∧ offset < tableLength madt ∧
      Entries (offset + entryLength madt offset) entries

inductive Reached : ℕ → Prop
  | first : entriesOffset < tableLength madt → Reached entriesOffset
  | next {entry : ℕ} : Reached entry → entry + entryLength madt entry < tableLength madt →
      Reached (entry + entryLength madt entry)

def enabledIds (entry : ℕ) : Option (ℕ × ℕ) :=
  if entryType madt entry = 0 then
    if madt.load (entry + 4) 4 % 2 = 1 then
      some (madt.load (entry + 3) 1, madt.load (entry + 2) 1)
    else none
  else if entryType madt entry = 9 then
    if madt.load (entry + 8) 4 % 2 = 1 then
      some (madt.load (entry + 4) 4, madt.load (entry + 12) 4)
    else none
  else none

structure Bounded (maxCoreCount : ℕ) (entries : List ℕ) (s : Parse) (result : MadtResult) :
  Prop where
  writes : ∀ i ∈ s.writes, i < maxCoreCount
  headers : ∀ entry ∈ s.headers, entry + 2 ≤ tableLength madt
  count : result.coreCount = min maxCoreCount (entries.filterMap (enabledIds madt)).length
  ids : ∀ i < result.coreCount, (entries.filterMap (enabledIds madt))[i]? =
    some ((s.cores i).apicId, (s.cores i).acpiId)

def ParsesBounded (coresStorage : ℕ → Core) (maxCoreCount : ℕ) : Prop :=
  ∃ rounds s result entries, parseMadt madt rounds coresStorage maxCoreCount = some (s, result) ∧
    Entries madt entriesOffset entries ∧ Bounded madt maxCoreCount entries s result

variable {madt} {body : Parse → ℕ → Parse} {rounds offset entry i : ℕ} {entries : List ℕ}
  {s s' : Parse}

theorem entryLoop_eq_some (h : entryLoop madt body rounds offset s = some s') :
  ∃ entries, Entries madt offset entries ∧ s' = entries.foldl body s := by
  induction rounds generalizing offset s with
  | zero => cases h
  | succ rounds ih =>
    rw [entryLoop] at h
    by_cases hin : offset < tableLength madt
    · rw [if_pos hin] at h
      obtain ⟨entries, he, rfl⟩ := ih h
      exact ⟨offset :: entries, ⟨rfl, hin, he⟩, rfl⟩
    · rw [if_neg hin] at h
      cases h
      exact ⟨[], Nat.not_lt.mp hin, rfl⟩

theorem entryLoop_of_entries (h : Entries madt offset entries) :
  entryLoop madt body (entries.length + 1) offset s = some (entries.foldl body s) := by
  induction entries generalizing offset s with
  | nil => exact if_neg (Nat.not_lt.mpr h)
  | cons entry entries ih =>
    obtain ⟨rfl, hin, hr⟩ := h
    rw [length_cons, entryLoop, if_pos hin, ih hr, foldl_cons]

theorem Entries.unique {others : List ℕ} (h : Entries madt offset entries)
  (h' : Entries madt offset others) : entries = others := by
  induction entries generalizing offset others with
  | nil =>
    cases others with
    | nil => rfl
    | cons _ _ => exact absurd h'.2.1 (Nat.not_lt.mpr h)
  | cons entry entries ih =>
    obtain ⟨rfl, hin, hr⟩ := h
    cases others with
    | nil => exact absurd hin (Nat.not_lt.mpr h')
    | cons _ _ =>
      obtain ⟨rfl, -, hr'⟩ := h'
      rw [ih hr hr']

theorem Entries.mem_of_reached (h : Entries madt entriesOffset entries) (hr : Reached madt e) :
  ∃ xs, e :: xs <:+ entries ∧ Entries madt e (e :: xs) := by
  induction hr with
  | first hin =>
    cases entries with
    | nil => exact absurd hin (Nat.not_lt.mpr h)
    | cons _ xs =>
      obtain ⟨rfl, -⟩ := id h
      exact ⟨xs, suffix_refl _, h⟩
  | next _ hin ih =>
    obtain ⟨xs, hs, -, -, hre⟩ := ih
    cases xs with
    | nil => exact absurd hin (Nat.not_lt.mpr hre)
    | cons _ xs =>
      obtain ⟨rfl, -⟩ := id hre
      exact ⟨xs, (suffix_cons _ _).trans hs, hre⟩

theorem Entries.reached (h : Entries madt offset entries)
  (hr : offset < tableLength madt → Reached madt offset) :
  ∀ entry ∈ entries, Reached madt entry := by
  induction entries generalizing offset with
  | nil => simp
  | cons entry entries ih =>
    obtain ⟨rfl, hi, hre⟩ := h
    have hh := hr hi
    rintro e (_ | ⟨_, he⟩)
    · exact hh
    · exact ih hre (fun hn ↦ .next hh hn) e he

theorem exists_entries (hr : offset < tableLength madt → Reached madt offset)
  (hp : ∀ entry, Reached madt entry → 0 < entryLength madt entry) :
  ∃ entries, Entries madt offset entries := by
  -- every entry is shorter than what is left of the table
  induction hleft : tableLength madt - offset using Nat.strongRecOn generalizing offset with
  | _ left ih =>
    by_cases hin : offset < tableLength madt
    · have hh := hr hin
      have hl := hp offset hh
      obtain ⟨entries, he⟩ := ih _ (by omega) (fun hn ↦ .next hh hn) rfl
      exact ⟨offset :: entries, rfl, hin, he⟩
    · exact ⟨[], Nat.not_lt.mp hin⟩

theorem Entries.entryLength_pos (h : Entries madt entriesOffset entries)
  (hr : Reached madt entry) : 0 < entryLength madt entry := by
  obtain ⟨xs, -, hh⟩ := h.mem_of_reached hr
  by_contra hz
  have hre := hh.2.2
  rw [Nat.eq_zero_of_not_pos hz, add_zero] at hre
  -- else the list would be its own tail
  exact absurd (congrArg List.length (hh.unique hre)) (by simp)

structure Found (ids : List (ℕ × ℕ)) (headers : List ℕ) (s : Parse) : Prop where
  count : s.detectedCores = ids.length
  written : ∀ i, i ∈ s.writes ↔ i < ids.length
  ids : ∀ i < ids.length, ids[i]? = some ((s.cores i).apicId, (s.cores i).acpiId)
  headers : s.headers = headers

variable {ids : List (ℕ × ℕ)} {headers : List ℕ}

theorem Found.readHeader (h : Found ids headers s) (e : ℕ) :
  Found ids (e :: headers) { s with headers := e :: s.headers } :=
  ⟨h.count, h.written, h.ids, congrArg (e :: ·) h.headers⟩

theorem Found.addCore (h : Found ids headers s) (a ac : ℕ) :
  Found (ids ++ [(a, ac)]) headers (s.addCore a ac) where
  count := by simp [Parse.addCore, h.count]
  written i := by
    simp only [Parse.addCore, mem_cons, h.written, h.count, length_append,
      length_singleton]
    omega
  ids i hi := by
    rw [length_append, length_singleton] at hi
    simp only [Parse.addCore, h.count]
    obtain hl | rfl : i < ids.length ∨ i = ids.length := by omega
    · rw [getElem?_append_left hl, update_of_ne (Nat.ne_of_lt hl), h.ids i hl]
    · rw [getElem?_concat_length, update_self]
      rfl
  headers := h.headers

theorem Found.visit (m : ByteMemory) (h : Found ids headers s) (e : ℕ) :
  Found (ids ++ (enabledIds m e).toList) (e :: headers) (visit m s e) := by
  have hr := h.readHeader e
  unfold Acpi.visit enabledIds
  by_cases hl : entryType m e = 0
  · simp only [if_pos hl]
    split_ifs
    · exact hr.addCore _ _
    · simpa using hr
  · simp only [if_neg hl]
    by_cases hx2apic : entryType m e = 9
    · simp only [if_pos hx2apic, if_neg (show entryType m e ≠ 5 by omega)]
      split_ifs
      · exact hr.addCore _ _
      · simpa using hr
    · simp only [if_neg hx2apic, toList_none, append_nil]
      split_ifs
      · exact ⟨hr.count, hr.written, hr.ids, hr.headers⟩
      · exact hr

theorem Found.foldl_visit (m : ByteMemory) (h : Found ids headers s) (es : List ℕ) :
  Found (ids ++ es.filterMap (enabledIds m)) (es.reverse ++ headers)
  (es.foldl (Acpi.visit m) s) := by
  induction es generalizing ids headers s with
  | nil => simpa using h
  | cons entry es ih =>
    have hr := ih (h.visit m entry)
    rw [append_assoc] at hr
    rw [reverse_cons, append_assoc]
    cases hi : enabledIds m entry with
    | none =>
      rw [hi] at hr
      rw [filterMap_cons_none hi]
      exact hr
    | some f =>
      rw [hi] at hr
      rw [filterMap_cons_some hi]
      exact hr

theorem Found.setNmi (h : Found ids headers s) (interrupt fl : ℕ) (hi : i < ids.length) :
  Found ids headers (s.setNmi interrupt fl i) where
  count := h.count
  written j := by
    simp only [Parse.setNmi, mem_cons, h.written]
    omega
  ids j hj := by
    rw [h.ids j hj]
    obtain rfl | hne := eq_or_ne j i
    · simp [Parse.setNmi, Core.setNmi]
    · simp [Parse.setNmi, update_of_ne hne]
  headers := h.headers

theorem Found.connectNmi (h : Found ids headers s) (a interrupt fl : ℕ) :
  Found ids headers (s.connectNmi a interrupt fl) := by
  rw [Parse.connectNmi, h.count]
  split
  · have ha : ∀ cs : List ℕ, (∀ i ∈ cs, i < ids.length) → ∀ s, Found ids headers s →
      Found ids headers (cs.foldl (Parse.setNmi interrupt fl) s) := by
      intro cs hc
      induction cs with
      | nil => exact fun _ h ↦ h
      | cons i cs ih =>
        intro s h
        exact ih (fun j hj ↦ hc j (.tail _ hj)) _ (h.setNmi interrupt fl (hc i mem_cons_self))
    exact ha _ (fun i hi ↦ mem_range.mp hi) s h
  · split
    · rename_i idx hf
      exact h.setNmi interrupt fl (mem_range.mp (mem_of_find?_eq_some hf))
    · exact h

theorem Found.visitNmi (m : ByteMemory) (h : Found ids headers s) (e : ℕ) :
  Found ids (e :: headers) (visitNmi m s e) := by
  have hr := h.readHeader e
  unfold Acpi.visitNmi
  simp only
  split_ifs
  · exact hr.connectNmi _ _ _
  · exact hr.connectNmi _ _ _
  · exact hr

theorem Found.foldl_visitNmi (m : ByteMemory) (h : Found ids headers s) (es : List ℕ) :
  Found ids (es.reverse ++ headers) (es.foldl (Acpi.visitNmi m) s) := by
  induction es generalizing headers s with
  | nil => exact h
  | cons entry es ih =>
    rw [reverse_cons, append_assoc]
    exact ih (h.visitNmi m entry)

variable {coresStorage : ℕ → Core} {maxCoreCount : ℕ} {result : MadtResult}

def parsed (madt : ByteMemory) (coresStorage : ℕ → Core) (entries : List ℕ) : Parse :=
  entries.foldl (visitNmi madt) (entries.foldl (visit madt)
    { cores := coresStorage, lapicAddress := lapicBase madt })

theorem found_parsed (m : ByteMemory) (c : ℕ → Core) (es : List ℕ) :
  Found (es.filterMap (enabledIds m)) (es.reverse ++ (es.reverse ++ [])) (parsed m c es) := by
  have hn : Found [] [] { cores := c, lapicAddress := lapicBase m } := ⟨rfl, by simp, by simp, rfl⟩
  exact (hn.foldl_visit m es).foldl_visitNmi m es

theorem mem_headers_parsed :
  entry ∈ (parsed madt coresStorage entries).headers ↔ entry ∈ entries := by
  simp [(found_parsed madt coresStorage entries).headers]

theorem parseMadt_eq_some (h : parseMadt madt rounds coresStorage maxCoreCount = some (s, result)) :
  ∃ entries, Entries madt entriesOffset entries ∧ s = parsed madt coresStorage entries := by
  rw [parseMadt, bind_eq_some_iff] at h
  obtain ⟨s₁, hf, hs⟩ := h
  obtain ⟨s₂, hs, hr⟩ := map_eq_some_iff.mp hs
  obtain ⟨entries, he, rfl⟩ := entryLoop_eq_some hf
  obtain ⟨os, ho, rfl⟩ := entryLoop_eq_some hs
  obtain rfl := he.unique ho
  refine ⟨entries, he, ?_⟩
  split_ifs at hr <;> exact (congrArg Prod.fst hr).symm

theorem parseMadt_of_entries (h : Entries madt entriesOffset entries) :
  parseMadt madt (entries.length + 1) coresStorage maxCoreCount =
  some (parsed madt coresStorage entries,
  ⟨min maxCoreCount (entries.filterMap (enabledIds madt)).length,
  (parsed madt coresStorage entries).lapicAddress⟩) := by
  rw [parseMadt, entryLoop_of_entries h, bind_some, entryLoop_of_entries h,
    map_some, ← parsed, ← (found_parsed madt coresStorage entries).count]
  split_ifs with hm
  · rw [Nat.min_eq_left (Nat.le_of_lt hm)]
  · rw [Nat.min_eq_right (Nat.le_of_not_lt hm)]

theorem parsesBounded_iff (madt : ByteMemory) (coresStorage : ℕ → Core) (maxCoreCount : ℕ) :
    ParsesBounded madt coresStorage maxCoreCount ↔ (∀ entry, Reached madt entry →
        0 < entryLength madt entry ∧ entry + 2 ≤ tableLength madt) ∧
      ∀ entries, Entries madt entriesOffset entries →
        (entries.filterMap (enabledIds madt)).length ≤ maxCoreCount := by
  constructor
  · rintro ⟨rounds, s, result, entries, hp, hen, hb⟩
    obtain ⟨_, ho, rfl⟩ := parseMadt_eq_some hp
    obtain rfl := hen.unique ho
    refine ⟨fun entry hr ↦ ⟨hen.entryLength_pos hr, ?_⟩, fun others ho ↦ ?_⟩
    · obtain ⟨rest, hs, -⟩ := hen.mem_of_reached hr
      exact hb.headers entry (mem_headers_parsed.mpr (hs.mem mem_cons_self))
    · obtain rfl := hen.unique ho
      by_contra hm
      -- the core behind the last slot was written
      exact absurd (hb.writes maxCoreCount
        (((found_parsed madt coresStorage entries).written _).mpr (Nat.lt_of_not_le hm)))
        (Nat.lt_irrefl _)
  · rintro ⟨hre, hro⟩
    have hf : entriesOffset < tableLength madt → Reached madt entriesOffset := .first
    obtain ⟨entries, hen⟩ := exists_entries hf fun entry hr ↦ (hre entry hr).1
    have hfo := found_parsed madt coresStorage entries
    refine ⟨_, _, _, entries, parseMadt_of_entries hen, hen, ?_, ?_, rfl, ?_⟩
    · intro i hi
      exact Nat.lt_of_lt_of_le ((hfo.written i).mp hi) (hro entries hen)
    · intro entry he
      exact (hre entry (hen.reached hf entry (mem_headers_parsed.mp he))).2
    · intro i hi
      exact hfo.ids i (Nat.lt_of_lt_of_le hi (Nat.min_le_right _ _))

def expectedSignature : List UInt8 := [0x41, 0x50, 0x49, 0x43]

def tableOf (length : ℕ) (checksum : UInt8) (bytes : ℕ → UInt8) : ByteMemory := fun a ↦
  if a < 4 then expectedSignature.getD a 0
  else if a = 4 then UInt8.ofNat length
  else if a = 5 then UInt8.ofNat (length / 256)
  else if a = 9 then checksum
  else if a < entriesOffset then 0
  else bytes (a - entriesOffset)

def emptyEntry : ByteMemory := tableOf 52 175 fun _ ↦ 0

def cutEntry : ByteMemory := tableOf 45 182 fun i ↦ if i = 1 then 8 else 0

def manyCores : ByteMemory := tableOf 8244 143 fun i ↦ [0, 8, 0, 247, 1].getD (i % 8) 0

theorem entryLoop_emptyEntry : entryLoop emptyEntry body rounds entriesOffset s = none := by
  induction rounds generalizing s with
  | zero => rfl
  | succ rounds ih =>
    rw [entryLoop, if_pos (by decide)]
    exact ih

theorem entries_cutEntry : Entries cutEntry entriesOffset [entriesOffset] := by
  refine ⟨rfl, ?_, ?_⟩
  · decide
  · rw [Entries]
    decide

theorem manyCores_apply (n i : ℕ) :
  manyCores (entriesOffset + 8 * n + i) = [0, 8, 0, 247, 1].getD (i % 8) 0 := by
  have hb : (entriesOffset + 8 * n + i - entriesOffset) % 8 = i % 8 := by omega
  unfold entriesOffset at *
  unfold manyCores tableOf entriesOffset
  rw [if_neg (by omega), if_neg (by omega), if_neg (by omega), if_neg (by omega), if_neg (by omega)]
  exact congrArg (List.getD _ · 0) hb

theorem entries_manyCores (n k : ℕ) (h : n + k = 1025) : Entries manyCores (entriesOffset + 8 * n)
  ((List.range' n k).map fun i ↦ entriesOffset + 8 * i) := by
  have hl : tableLength manyCores = 8244 := by decide
  induction k generalizing n with
  | zero =>
    rw [range'_zero, map_nil, Entries, hl, entriesOffset]
    omega
  | succ k ih =>
    have he : entryLength manyCores (entriesOffset + 8 * n) = 8 := by
      rw [entryLength, load, load, manyCores_apply n 1]
      rfl
    rw [range'_succ, map_cons]
    refine ⟨rfl, ?_, ?_⟩
    · rw [hl, entriesOffset]
      omega
    · rw [he]
      exact ih (n + 1) (by omega)

theorem enabledIds_manyCores (n : ℕ) :
  enabledIds manyCores (entriesOffset + 8 * n) = some (247, 0) := by
  have ht : entryType manyCores (entriesOffset + 8 * n) = 0 := by
    rw [entryType, load, load, ← add_zero (entriesOffset + 8 * n), manyCores_apply]
    rfl
  rw [enabledIds, if_pos ht]
  simp only [load, add_assoc (entriesOffset + 8 * n), manyCores_apply]
  rfl

theorem parseMadt_unbounded : validate emptyEntry expectedSignature ∧
    (∀ rounds, parseMadt emptyEntry rounds (fun _ ↦ {}) 1024 = none) ∧
    validate cutEntry expectedSignature ∧
    (∃ rounds s result, parseMadt cutEntry rounds (fun _ ↦ {}) 1024 = some (s, result) ∧
      ∃ entry ∈ s.headers, tableLength cutEntry < entry + 2) ∧
    validate manyCores expectedSignature ∧
    ∃ rounds s result, parseMadt manyCores rounds (fun _ ↦ {}) 1024 = some (s, result) ∧
      1024 ∈ s.writes := by
  refine ⟨by decide, fun rounds ↦ ?_, by decide, ?_, by decide +kernel, ?_⟩
  · rw [parseMadt, entryLoop_emptyEntry, bind_none]
  · refine ⟨_, _, _, parseMadt_of_entries entries_cutEntry, entriesOffset, ?_, by decide⟩
    exact mem_headers_parsed.mpr mem_cons_self
  · have he := entries_manyCores 0 1025 rfl
    refine ⟨_, _, _, parseMadt_of_entries he, ?_⟩
    refine ((found_parsed manyCores _ _).written 1024).mpr ?_
    have hi : enabledIds manyCores ∘ (fun i ↦ entriesOffset + 8 * i) = fun _ ↦ some (247, 0) :=
      funext enabledIds_manyCores
    rw [filterMap_map, hi, length_filterMap_eq_countP]
    simp

end ReaverOS.Kernel.Acpi
