import ReaverOS.Kernel.MapExact

namespace ReaverOS.Kernel.Vm

open Paging Foundation Words Fallible List

section

structure TlbInvalidator where
  pages : List ℕ := []
  triggered : List (List ℕ) := []

namespace TlbInvalidator

def trigger (invl : TlbInvalidator) : TlbInvalidator := ⟨[], invl.triggered ++ [invl.pages]⟩

def invalidate (invl : TlbInvalidator) (page : ℕ) : Except Fault TlbInvalidator :=
  if invl.pages.length < 32 then
    let invl : TlbInvalidator := ⟨invl.pages ++ [page], invl.triggered⟩
    .ok (if invl.pages.length = 32 then invl.trigger else invl)
  else .error .outOfBounds

structure Holds (invl : TlbInvalidator) (passed : List ℕ) : Prop where
  room : invl.pages.length < 32
  short : ∀ batch ∈ invl.triggered, batch.length ≤ 32
  all : invl.triggered.flatten ++ invl.pages = passed

theorem holds_nil : Holds {} [] := ⟨by decide, fun _ h ↦ (not_mem_nil h).elim, rfl⟩

variable {invl : TlbInvalidator} {passed : List ℕ}

theorem Holds.triggered_flatten (h : invl.triggered.flatten ++ invl.pages = passed) :
  invl.trigger.triggered.flatten = passed := by
  rw [trigger, flatten_append, flatten_singleton, h]

theorem trigger_short (hl : invl.pages.length ≤ 32) (h : ∀ b ∈ invl.triggered, b.length ≤ 32) :
  ∀ b ∈ invl.trigger.triggered, b.length ≤ 32 := by
  intro b hb
  rcases mem_append.mp hb with ho | hn
  · exact h b ho
  · rwa [mem_singleton.mp hn]

theorem Holds.invalidate (h : Holds invl passed) (pa : ℕ) :
  ∃ invl', invl.invalidate pa = .ok invl' ∧ Holds invl' (passed ++ [pa]) := by
  have hl : (invl.pages ++ [pa]).length = invl.pages.length + 1 := length_append
  have ha : invl.triggered.flatten ++ (invl.pages ++ [pa]) = passed ++ [pa] := by
    rw [← append_assoc, h.all]
  have hr := h.room
  rw [TlbInvalidator.invalidate, if_pos hr]
  refine ⟨_, rfl, ?_⟩
  dsimp only
  split
  next hf =>
    refine ⟨Nat.zero_lt_succ _, trigger_short hf.le h.short, ?_⟩
    exact (append_nil _).trans (Holds.triggered_flatten ha)
  next hf =>
    exact ⟨show (invl.pages ++ [pa]).length < 32 by omega, h.short, ha⟩

theorem Holds.invalidateAll (h : Holds invl passed) (m : List ℕ) :
  ∃ invl', m.foldlM TlbInvalidator.invalidate invl = .ok invl' ∧ Holds invl' (passed ++ m) := by
  induction m generalizing invl passed with
  | nil => exact ⟨invl, rfl, by rwa [append_nil]⟩
  | cons pa m ih =>
    obtain ⟨i, hf, h₁⟩ := h.invalidate pa
    obtain ⟨invl', hr, h'⟩ := ih h₁
    refine ⟨invl', ?_, by rwa [append_assoc] at h'⟩
    rw [foldlM_cons, hf, ok_bind, hr]

end TlbInvalidator

def unmapFlushing (t : Pmlt 4) (start stop : ℕ) (freePhysical : Bool) :
  Except Fault (Pmlt 4 × List ℕ × TlbInvalidator) := do
  let (t, out) ← unmap t start stop freePhysical
  if (stop + (2 ^ 64 - start)) % 2 ^ 64 = 0 then .ok (t, out.pushed, {})
  else
    let invl ← out.invalidated.foldlM TlbInvalidator.invalidate {}
    .ok (t, out.pushed, invl.trigger)

structure UnmapsExactly (t t' : Pmlt 4) (start stop : ℕ) (freePhysical : Bool) (pushed : List ℕ)
  (invl : TlbInvalidator) : Prop where
  gone : ∀ v, start ≤ v → v < stop → leaf 4 t' v = none
  kept : ∀ v, Canonical v → ¬ (start ≤ v ∧ v < stop) → leaf 4 t' v = leaf 4 t v
  flushed : ∀ v, invl.triggered.flatten.count v =
    if pageSize ∣ v ∧ start ≤ v ∧ v < stop then 1 else 0
  short : ∀ batch ∈ invl.triggered, batch.length ≤ 32
  pending : invl.pages = []
  freed : freePhysical = true → ∀ v ∈ pages start stop, pushed.count (frameOf (leaf 4 t v)) = 1
  only : ∀ frame ∈ pushed, freePhysical = true ∧
    ∃ v ∈ pages start stop, frameOf (leaf 4 t v) = frame

def FramesDistinct (t : Pmlt 4) (start stop : ℕ) : Prop :=
  ∀ v ∈ pages start stop, ∀ w ∈ pages start stop,
    frameOf (leaf 4 t v) = frameOf (leaf 4 t w) → v = w

section Range

variable {t t' : Pmlt 4} {start stop : ℕ} {free : Bool}

theorem count_frames_iff : (∀ v ∈ pages start stop,
  ((pages start stop).map fun v ↦ frameOf (leaf 4 t v)).count (frameOf (leaf 4 t v)) = 1) ↔
  FramesDistinct t start stop := by
  constructor
  · intro h
    have hn : ((pages start stop).map fun v ↦ frameOf (leaf 4 t v)).Nodup := by
      refine nodup_iff_count_le_one.mpr fun f ↦ ?_
      by_cases hm : f ∈ (pages start stop).map fun v ↦ frameOf (leaf 4 t v)
      · obtain ⟨u, hu, rfl⟩ := mem_map.mp hm
        exact (h u hu).le
      · rw [count_eq_zero_of_not_mem hm]
        exact Nat.zero_le 1
    exact fun v hv w hw heq ↦ inj_on_of_nodup_map hn hv hw heq
  · intro h v hv
    exact count_eq_one_of_mem ((nodup_pages start stop).map_on h) (mem_map_of_mem hv)

theorem count_pages (ha : pageSize ∣ start) (hb : pageSize ∣ stop) (v : ℕ) :
  (pages start stop).count v = if pageSize ∣ v ∧ start ≤ v ∧ v < stop then 1 else 0 := by
  split
  next h => exact count_eq_one_of_mem (nodup_pages start stop) ((mem_pages ha hb).mpr h)
  next h => exact count_eq_zero_of_not_mem (h ∘ (mem_pages ha hb).mp)

theorem UnmapsExactly.refl (t : Pmlt 4) (b : ℕ) (fr : Bool) : UnmapsExactly t t b b fr [] {} := by
  refine ⟨fun v _ _ ↦ by omega, fun _ _ _ ↦ rfl, fun v ↦ ?_, fun _ h ↦ (not_mem_nil h).elim,
    rfl, fun _ v hv ↦ ?_, fun _ h ↦ (not_mem_nil h).elim⟩
  · rw [if_neg (by omega)]
    rfl
  · rw [pages_of_le le_rfl] at hv
    exact (not_mem_nil hv).elim

theorem unmapsExactly_iff {o : Unmapped} {i : TlbInvalidator}
  (hh : CanonicalHalf start stop) (ha : pageSize ∣ start) (hb : pageSize ∣ stop)
  (h : Unmaps (leaf 4) free (entrySize 5) (start / entrySize 5) t t' start stop o)
  (hi : i.Holds o.invalidated) : UnmapsExactly t t' start stop free o.pushed i.trigger ↔
  (free = true → FramesDistinct t start stop) := by
  constructor
  · intro he hf
    have hfre := he.freed hf
    rw [h.pushed, if_pos hf] at hfre
    exact count_frames_iff.mp hfre
  · intro hd
    refine ⟨h.gone, fun v hv ho ↦ ?_, fun v ↦ ?_, TlbInvalidator.trigger_short hi.room.le
      hi.short, rfl, fun hf ↦ ?_, fun f hfr ↦ ?_⟩
    · have hk := h.kept (moved start v) (moved_block start v) ((mem_moved_iff hh hv).not.mpr ho)
      rwa [leaf_moved, leaf_moved] at hk
    · rw [TlbInvalidator.Holds.triggered_flatten hi.all, h.invalidated, count_pages ha hb]
    · rw [h.pushed, if_pos hf]
      exact count_frames_iff.mpr (hd hf)
    · rw [h.pushed] at hfr
      split at hfr
      next hf => exact ⟨hf, mem_map.mp hfr⟩
      next => exact (not_mem_nil hfr).elim

theorem unmap_eq_vmUnmap (t : Pmlt 4) (fr : Bool) (hl : start < stop)
  (hh : CanonicalHalf start stop) (ha : pageSize ∣ start) (hb : pageSize ∣ stop) :
  unmap t start (stop % 2 ^ 64) fr = vmUnmap fr 4 t start (stop % 2 ^ 64) := by
  have hs := size_eq hl.le hh
  have hst : stop ≤ 2 ^ 64 := by rcases hh with h | h <;> omega
  simp only [unmap, hs]
  rw [if_neg (by omega), andNot_page (by omega) ha, rounded_stop hl hb]

theorem unmapFlushing_eq {e' : ℕ} {o : Unmapped} {i : TlbInvalidator}
  (hs : (e' + (2 ^ 64 - start)) % 2 ^ 64 ≠ 0) (h : unmap t start e' free = .ok (t', o))
  (hi : o.invalidated.foldlM TlbInvalidator.invalidate {} = .ok i) :
  unmapFlushing t start e' free = .ok (t', o.pushed, i.trigger) := by
  simp only [unmapFlushing, h, ok_bind, if_neg hs, hi]

end Range

theorem unmap_exact_iff (t : Pmlt 4) (start stop : ℕ) (freePhysical : Bool) (hle : start ≤ stop)
    (hhalf : CanonicalHalf start stop) (ha : pageSize ∣ start) (hb : pageSize ∣ stop)
    (hsmall : ∀ v, start ≤ v → v < stop → ∃ user address, leaf 4 t v = some ⟨1, user, address⟩) :
    ∃ t' pushed invl, unmapFlushing t start (stop % 2 ^ 64) freePhysical = .ok (t', pushed, invl) ∧
      (UnmapsExactly t t' start stop freePhysical pushed invl ↔
        (start < stop → stop < 2 ^ 64 ∧ (freePhysical = true → FramesDistinct t start stop))) := by
  have hs := size_eq hle hhalf
  rcases eq_or_lt_of_le hle with rfl | hlt
  · rw [Nat.sub_self] at hs
    refine ⟨t, [], {}, ?_, iff_of_true (.refl t start freePhysical) fun h ↦ absurd h (lt_irrefl _)⟩
    simp only [unmapFlushing, unmap, hs, if_true, ok_bind]
  · have hp : (stop % 2 ^ 64 + (2 ^ 64 - start)) % 2 ^ 64 ≠ 0 := by omega
    have hc := unmap_eq_vmUnmap t freePhysical hlt hhalf ha hb
    have hst : stop ≤ 2 ^ 64 := by rcases hhalf with h | h <;> omega
    rcases eq_or_lt_of_le hst with rfl | hbe
    · -- The end of the address space is the 64-bit zero, so nothing is unmapped.
      refine ⟨t, _, _, unmapFlushing_eq hp
        (hc.trans (unmapLoop_done _ t _ (Nat.not_lt_zero start))) rfl, ?_⟩
      refine iff_of_false (fun h ↦ ?_) fun h ↦ absurd (h hlt).1 (lt_irrefl _)
      obtain ⟨user, address, hl⟩ := hsmall start le_rfl hlt
      cases (h.gone start le_rfl hlt).symm.trans hl
    · obtain ⟨t', out, hok, hu⟩ := vmUnmap_unmapping freePhysical le_rfl t start stop hlt
        hbe ha hb (canonical_block hlt hhalf) hsmall
      obtain ⟨invl, hi, hh⟩ := TlbInvalidator.holds_nil.invalidateAll out.invalidated
      rw [Nat.mod_eq_of_lt hbe] at hc hp ⊢
      refine ⟨t', out.pushed, invl.trigger, unmapFlushing_eq hp (hc.trans hok) hi, ?_⟩
      rw [unmapsExactly_iff hhalf ha hb hu hh]
      exact ⟨fun h _ ↦ ⟨hbe, h⟩, fun h ↦ (h hlt).2⟩

def chain (index : Fin 512) (t : Pmlt 1) : Pmlt 4 :=
  let only {T : Type} (e : Pmle T) : Fin 512 → Pmle T :=
    Function.update (fun _ ↦ .absent false) index e
  only (.table false 1 (only (.table false 2 (only (.table false 3 t) : Pmlt 2)) : Pmlt 3))

theorem small_chain {i : Fin 512} {t : Pmlt 1} {v : ℕ} {u : Bool} {a : BitVec 40}
  (hi : ∀ K, 2 ≤ K → K ≤ 4 → tableIndex K v = i) (h : t (tableIndex 1 v) = .page u a) :
  leaf 4 (chain i t) v = some ⟨1, u, a⟩ := by
  simp only [leaf, chain, hi 4 (by decide) (by decide), hi 3 (by decide) (by decide),
    hi 2 (by decide) (by decide), Function.update_self, h]

def lastPage : Pmlt 4 :=
  chain (tableIndex 1 0xfffffffffffff000) (Function.update (fun _ ↦ .absent false)
    (tableIndex 1 0xfffffffffffff000) (.page false 7) : Fin 512 → Pmle (Pmlt 0))

def sharedFrame : Pmlt 4 :=
  chain (tableIndex 1 0) fun i ↦ if (i : ℕ) < 2 then .page false 7 else .absent false

theorem small_lastPage (v : ℕ) (hv : 0xfffffffffffff000 ≤ v) (hv' : v < 2 ^ 64) :
  leaf 4 lastPage v = some ⟨1, false, 7⟩ := by
  have hi (K : ℕ) (hK : 1 ≤ K) (hK' : K ≤ 4) :
    tableIndex K v = tableIndex 1 0xfffffffffffff000 := by
    have hl : v / entrySize 1 = 0xfffffffffffff := by
      rw [entrySize_one, pageSize]
      omega
    have ht := div_entrySize_of_le (x := 0xfffffffffffff000) hK (hl.trans (by decide))
    apply Fin.ext
    rw [tableIndex_val, tableIndex_val, ht]
    obtain rfl | rfl | rfl | rfl : K = 1 ∨ K = 2 ∨ K = 3 ∨ K = 4 := by omega
    all_goals decide
  exact small_chain (fun K hK hK' ↦ hi K (by omega) hK')
    (by rw [hi 1 le_rfl (by decide), Function.update_self])

theorem small_sharedFrame (v : ℕ) (hv : v < 0x2000) :
  leaf 4 sharedFrame v = some ⟨1, false, 7⟩ := by
  refine small_chain (fun K hK hK' ↦ ?_) (if_pos ?_)
  · apply Fin.ext
    rw [tableIndex_val, tableIndex_val, Nat.div_eq_of_lt]
    · rfl
    · exact hv.trans_le ((by decide : 0x2000 ≤ entrySize 2).trans (entrySize_le hK))
  · rw [tableIndex_val, entrySize_one, pageSize]
    omega

theorem unmap_exact_single_page :
  ∃ t' pushed invl, unmapFlushing sharedFrame 0x1000 (0x2000 % 2 ^ 64) true =
  .ok (t', pushed, invl) ∧ (UnmapsExactly sharedFrame t' 0x1000 0x2000 true pushed invl ↔
  (0x1000 < 0x2000 → 0x2000 < 2 ^ 64 ∧ (true = true → FramesDistinct sharedFrame 0x1000 0x2000))) :=
  unmap_exact_iff sharedFrame 0x1000 0x2000 true (by decide) (.inl (by decide)) (by decide)
    (by decide) fun v _ hv ↦ ⟨false, 7, small_sharedFrame v hv⟩

theorem unmap_not_exact : (CanonicalHalf 0xfffffffffffff000 (2 ^ 64) ∧
  (∀ v, 0xfffffffffffff000 ≤ v → v < 2 ^ 64 → leaf 4 lastPage v = some ⟨1, false, 7⟩) ∧
  ∃ t' pushed invl, unmapFlushing lastPage 0xfffffffffffff000 (2 ^ 64 % 2 ^ 64) false =
  .ok (t', pushed, invl) ∧ leaf 4 t' 0xfffffffffffff000 = some ⟨1, false, 7⟩ ∧
  ¬ UnmapsExactly lastPage t' 0xfffffffffffff000 (2 ^ 64) false pushed invl) ∧
  (CanonicalHalf 0 0x2000 ∧ (∀ v, 0 ≤ v → v < 0x2000 → leaf 4 sharedFrame v = some ⟨1, false, 7⟩) ∧
  ∃ t' pushed invl, unmapFlushing sharedFrame 0 (0x2000 % 2 ^ 64) true = .ok (t', pushed, invl) ∧
  pushed = [0x7000, 0x7000] ∧ ¬ UnmapsExactly sharedFrame t' 0 0x2000 true pushed invl) := by
  refine ⟨⟨.inr (by decide), small_lastPage, lastPage, _, _, rfl, ?_, fun h ↦ ?_⟩,
    .inl (by decide), fun v _ hv ↦ small_sharedFrame v hv, _, _, _, rfl, rfl, fun h ↦ ?_⟩
  · exact small_lastPage _ le_rfl (by decide)
  · have hg := h.gone 0xfffffffffffff000 le_rfl (by decide)
    rw [small_lastPage _ le_rfl (by decide)] at hg
    cases hg
  · have hf := h.freed rfl 0 (by decide)
    rw [small_sharedFrame 0 (by decide)] at hf
    revert hf
    decide

end

def roundedStart (start : ℕ) : ℕ := start / pageSize * pageSize

def roundedStop (start stop : ℕ) : ℕ :=
  (roundedStart start + (stop - start) + pageSize - 1) % 2 ^ 64 / pageSize * pageSize

def Meets (start stop v : ℕ) : Prop := ∃ w, start ≤ w ∧ w < stop ∧ w / pageSize = v / pageSize

def Covers (processed : ℕ → Prop) (start stop : ℕ) : Prop :=
  ∀ v, Canonical v → (processed v ↔ Meets start stop v)

def NewlyMapped (t t' : Pmlt 4) (v : ℕ) : Prop := leaf 4 t v = none ∧ leaf 4 t' v ≠ none

def Rounded (start stop : ℕ) : Prop :=
  start % pageSize + (stop - start) ≤ (stop - start + pageSize - 1) / pageSize * pageSize ∧
    stop ≤ 2 ^ 64 - pageSize

section Rounding

variable {start stop : ℕ}

theorem covers_rounded_iff (hlt : start < stop) (hh : CanonicalHalf start stop) :
  Covers (fun v ↦ roundedStart start ≤ v ∧ v < roundedStop start stop) start stop ↔
  Rounded start stop := by
  have hc (v : ℕ) (hv : start ≤ v) (hv' : v < stop) : Canonical v := by
    simp only [Canonical, CanonicalHalf] at *
    omega
  constructor
  · intro h
    have hl := (h (stop - 1) (hc _ (by omega) (by omega))).mpr ⟨stop - 1, by omega, by omega, rfl⟩
    simp only [CanonicalHalf, Rounded, roundedStart, roundedStop, pageSize] at *
    omega
  · intro h v hv
    constructor
    · rintro ⟨hv, hv'⟩
      refine ⟨if v < start then start else if v < stop then v else stop - 1, ?_⟩
      simp only [CanonicalHalf, Rounded, roundedStart, roundedStop, pageSize] at *
      split
      next => omega
      next => split <;> omega
    · rintro ⟨w, hw, hw', hp⟩
      simp only [CanonicalHalf, Rounded, roundedStart, roundedStop, pageSize] at *
      omega

theorem roundedStart_dvd (start : ℕ) : pageSize ∣ roundedStart start := dvd_mul_left ..

theorem roundedStop_dvd (b stop : ℕ) : pageSize ∣ roundedStop b stop := dvd_mul_left ..

theorem roundedStop_lt (b e : ℕ) : roundedStop b e < 2 ^ 64 :=
  (Nat.div_mul_le_self ..).trans_lt (Nat.mod_lt _ (by decide))

theorem canonicalHalf_rounded (h : start < stop) (hh : CanonicalHalf start stop) :
  CanonicalHalf (roundedStart start) (roundedStop start stop) := by
  have hb := roundedStop_lt start stop
  simp only [CanonicalHalf, roundedStart, roundedStop, pageSize] at *
  omega

theorem andNot_roundedStart (hh : CanonicalHalf start stop) (hlt : start < stop) :
  andNot start (pageSize - 1) = roundedStart start :=
  andNot_low_bits (by rcases hh with h | h <;> omega) (by decide : 12 ≤ 64)

theorem andNot_roundedStop (b stop : ℕ) :
  andNot ((roundedStart b + (stop - b) + pageSize - 1) % 2 ^ 64) (pageSize - 1) =
  roundedStop b stop :=
  andNot_low_bits (Nat.mod_lt _ (by decide)) (by decide : 12 ≤ 64)

theorem mapRange_eq_rounded (bs : UserBits) (t : Pmlt 4) (ps : ℕ) (frames : List ℕ)
  (h : start < stop) (hh : CanonicalHalf start stop) :
  mapRange bs 1 pageSize t start (stop - start) ps frames =
  vmMap bs 1 4 t (roundedStart start) (roundedStop start stop) (andNot ps (pageSize - 1))
  frames := by
  simp only [mapRange]
  rw [if_neg (by omega), andNot_roundedStart hh h, andNot_roundedStop]

theorem unmap_eq_rounded (t : Pmlt 4) (fr : Bool) (h : start < stop)
  (hh : CanonicalHalf start stop) : unmap t start (stop % 2 ^ 64) fr =
  vmUnmap fr 4 t (roundedStart start) (roundedStop start stop) := by
  simp only [unmap, size_eq h.le hh]
  rw [if_neg (by omega), andNot_roundedStart hh h, andNot_roundedStop]

end Rounding

section Processed

variable {bs : UserBits} {t t' : Pmlt 4} {vs ve p : ℕ} {frames rest : List ℕ}

theorem vmMap_newlyMapped (hve : ve < 2 ^ 64) (ha : pageSize ∣ vs) (hb : pageSize ∣ ve)
  (hh : CanonicalHalf vs ve) (h : vmMap bs 1 4 t vs ve p frames = .ok (t', rest)) {v : ℕ}
  (hv : Canonical v) : NewlyMapped t t' v ↔ vs ≤ v ∧ v < ve := by
  have hle := vmMap_leaf le_rfl hve ha hb (fun hlt ↦ canonical_block hlt hh) h (moved_block vs v)
  rw [mem_moved_iff hh hv, leaf_moved, leaf_moved] at hle
  constructor
  · rintro ⟨hn, hs⟩
    by_contra ho
    exact hs ((hle.2 ho).trans hn)
  · intro hi
    obtain ⟨u, a, hl⟩ := hle.1 hi
    refine ⟨(leaf_eq_none_iff 4 t v).mpr ((vmMap_mapped le_rfl hve h).vacant v hi.1 hi.2), ?_⟩
    rw [hl]
    exact Option.some_ne_none _

def Invalidates {A : Type} (block : ℕ) (call : A → ℕ → ℕ → Except Fault (A × Unmapped)) : Prop :=
  ∀ t a b t' out, a < b → b < 2 ^ 64 → pageSize ∣ a → pageSize ∣ b →
    (b - 1) / block = a / block → call t a b = .ok (t', out) → out.invalidated = pages a b

theorem unmapLoop_invalidated {T : Type} {I : ℕ}
  {b : Pmle T → ℕ → ℕ → Except Fault (Pmle T × Unmapped)} (hI : I + 1 ≤ 4)
  (hbo : Invalidates (entrySize (I + 1)) b) (r : ℕ) {t t' : Fin 512 → Pmle T} {vs ve : ℕ}
  {o o' : Unmapped} (hv : ve < 2 ^ 64) (ha : pageSize ∣ vs) (hb : pageSize ∣ ve)
  (h : unmapLoop (I + 1) b r t vs ve o = .ok (t', o')) :
  o'.invalidated = o.invalidated ++ pages vs ve := by
  by_cases hlt : vs < ve
  · induction r generalizing t vs o with
    | zero =>
      rw [unmapLoop, if_pos hlt] at h
      cases h
    | succ r ih =>
      have hr := round_entryVirtEnd hI hlt hv
      obtain ⟨i, -, hs⟩ : ∃ i : Fin 512, _ ∧
        unmapLoop (I + 1) b (r + 1) t vs ve o = _ := unmapLoop_step r t o hlt
      rw [hs] at h
      obtain ⟨⟨e, mo⟩, hf, hre⟩ := bind_eq_ok h
      have hm := hr.aligned (pageSize_dvd_entrySize I) hb
      generalize entryVirtEnd (I + 1) vs ve = m at *
      have hvm := hr.lt
      have hmv := hr.le
      have hmo := hbo _ _ _ _ _ hvm (by omega) ha hm (hr.inside _ (by omega) (by omega)) hf
      rw [pages_append ha hm hvm.le hmv, ← hmo, ← append_assoc]
      by_cases hd : m < ve
      · exact ih hm hre hd
      · rw [unmapLoop_done r _ _ hd] at hre
        cases hre
        rw [pages_of_le (by omega), append_nil]
        rfl
  · rw [unmapLoop_done r t o hlt] at h
    cases h
    rw [pages_of_le (by omega), append_nil]

theorem unmapPage_invalidates {T : Type} (fr : Bool) :
  Invalidates (entrySize 1) fun (e : Pmle T) a _ ↦ unmapPage fr e a := by
  intro e a b e' o hab hb ha hb' hbl h
  have hs := stop_of_page ha hb' hab hbl
  rw [pages_single hs]
  cases e with
  | absent u => cases h
  | table u ad nx =>
    cases h
    rfl
  | page u ad =>
    cases h
    rfl

theorem unmapTable_invalidates {I bk : ℕ} {d : Pmlt I → ℕ → ℕ → Except Fault (Pmlt I × Unmapped)}
  (hd : Invalidates bk d) : Invalidates bk (unmapTable d) := by
  intro e a b e' o hab hb ha hb' hbl h
  cases e with
  | absent u => cases h
  | page u ad => cases h
  | table u ad nx =>
    obtain ⟨⟨t', m⟩, hc, ho⟩ := bind_eq_ok h
    cases ho
    exact hd _ _ _ _ _ hab hb ha hb' hbl hc

theorem vmUnmap_invalidates (fr : Bool) {I : ℕ} (hI : I + 1 ≤ 4) {t t' : Pmlt (I + 1)}
  {o : Unmapped} (hv : ve < 2 ^ 64) (ha : pageSize ∣ vs) (hb : pageSize ∣ ve)
  (h : vmUnmap fr (I + 1) t vs ve = .ok (t', o)) : o.invalidated = pages vs ve := by
  induction I generalizing vs ve o with
  | zero => exact unmapLoop_invalidated hI (unmapPage_invalidates fr) _ hv ha hb h
  | succ I ih =>
    rw [vmUnmap] at h
    simp only [Nat.add_eq_right, Nat.add_eq_zero_iff, Nat.one_ne_zero, and_false, if_false] at h
    refine unmapLoop_invalidated hI (unmapTable_invalidates ?_) _ hv ha hb h
    exact fun t a b t' o _ hb ha hb' _ hc ↦ ih (by omega) hb ha hb' hc

end Processed

section Calls

variable {start stop : ℕ}

theorem covers_of_mapRange {bs : UserBits} {t t' : Pmlt 4} {ps : ℕ} {fs xs : List ℕ}
  (hl : start < stop) (hh : CanonicalHalf start stop)
  (h : mapRange bs 1 pageSize t start (stop - start) ps fs = .ok (t', xs)) :
  Covers (NewlyMapped t t') start stop ↔ Rounded start stop := by
  rw [mapRange_eq_rounded bs t ps fs hl hh] at h
  rw [← covers_rounded_iff hl hh]
  refine forall₂_congr fun v hv ↦ iff_congr ?_ Iff.rfl
  exact vmMap_newlyMapped (roundedStop_lt ..) (roundedStart_dvd _) (roundedStop_dvd ..)
    (canonicalHalf_rounded hl hh) h hv

theorem covers_of_unmap {t t' : Pmlt 4} {fr : Bool} {o : Unmapped} (hl : start < stop)
  (hh : CanonicalHalf start stop) (h : unmap t start (stop % 2 ^ 64) fr = .ok (t', o)) :
  Covers (fun v ↦ roundedStart v ∈ o.invalidated) start stop ↔ Rounded start stop := by
  rw [unmap_eq_rounded t fr hl hh] at h
  rw [← covers_rounded_iff hl hh]
  have ha := roundedStart_dvd start
  have hb := roundedStop_dvd start stop
  have hp := vmUnmap_invalidates fr le_rfl (roundedStop_lt ..) ha hb h
  refine forall₂_congr fun v _ ↦ iff_congr ?_ Iff.rfl
  dsimp only
  rw [hp, mem_pages ha hb]
  obtain ⟨x, hx⟩ := ha
  obtain ⟨y, hy⟩ := hb
  rw [hx, hy, and_iff_right (roundedStart_dvd v), roundedStart, pageSize]
  omega

theorem vmMap_empty_returns (bs : UserBits) (p : ℕ) (h : start < stop)
  (hh : CanonicalHalf start stop) :
  ∃ frames t' rest, vmMap bs 1 4 (fun _ ↦ .absent false) (roundedStart start)
  (roundedStop start stop) p frames = .ok (t', rest) := by
  have hh' := canonicalHalf_rounded h hh
  by_cases hlt' : roundedStart start < roundedStop start stop
  · obtain ⟨t', rest, hc, -⟩ := vmMap_spec bs 3 le_rfl (fun _ ↦ .absent false) _ _ p hlt'
      (roundedStop_lt ..) (roundedStart_dvd _) (roundedStop_dvd ..) (canonical_block hlt' hh')
      (fun _ _ _ ↦ rfl) (List.replicate (3 * ((roundedStop start stop - roundedStart start) /
      pageSize)) 0) length_replicate.ge
    exact ⟨_, t', rest, hc⟩
  · exact ⟨[], _, [], mapLoop_done _ _ [] hlt'⟩

theorem vmUnmap_some_returns (fr : Bool) (h : start < stop) (hh : CanonicalHalf start stop) :
  ∃ t t' o, vmUnmap fr 4 t (roundedStart start) (roundedStop start stop) = .ok (t', o) := by
  have hh' := canonicalHalf_rounded h hh
  have ha := roundedStart_dvd start
  have hb := roundedStop_dvd start stop
  have hve := roundedStop_lt start stop
  obtain ⟨frames, t, rest, hm⟩ := vmMap_empty_returns (userBits {}) 0 h hh
  by_cases hlt' : roundedStart start < roundedStop start stop
  · have hbl := canonical_block hlt' hh'
    obtain ⟨t', o, hc, -⟩ := vmUnmap_unmapping fr le_rfl t _ _ hlt' hve ha hb hbl fun x hx hx' ↦ by
        obtain ⟨u, a, hl⟩ := (vmMap_leaf le_rfl hve ha hb (fun _ ↦ hbl) hm
          (block_of_mem hh' hx hx')).1 ⟨hx, hx'⟩
        exact ⟨_, a, hl⟩
    exact ⟨t, t', o, hc⟩
  · exact ⟨t, t, {}, unmapLoop_done _ t {} hlt'⟩

end Calls

theorem rounding_covers_iff (start stop : ℕ) (hlt : start < stop)
    (hhalf : CanonicalHalf start stop) : ((∀ t physical flags frames t' rest,
      mapPhysical t start (stop % 2 ^ 64) physical flags frames = .ok (t', rest) →
        Covers (NewlyMapped t t') start stop) ↔ Rounded start stop) ∧
    ((∀ t freePhysical t' out, unmap t start (stop % 2 ^ 64) freePhysical = .ok (t', out) →
        Covers (fun v ↦ roundedStart v ∈ out.invalidated) start stop) ↔ Rounded start stop) ∧
    ((∀ t phys frames t' rest, Loader.vmMap t phys (stop - start) start frames = .ok (t', rest) →
        Covers (NewlyMapped t t') start stop) ↔ Rounded start stop) := by
  have hs := size_eq hlt.le hhalf
  refine ⟨⟨fun h ↦ ?_, fun h t physical flags frames t' rest hc ↦ ?_⟩,
    ⟨fun h ↦ ?_, fun h t free t' out hc ↦ (covers_of_unmap hlt hhalf hc).mpr h⟩,
    fun h ↦ ?_, fun h t phys frames t' rest hc ↦ (covers_of_mapRange hlt hhalf hc).mpr h⟩
  · obtain ⟨frames, t', rest, hc⟩ := vmMap_empty_returns (userBits {}) _ hlt hhalf
    have hm := (mapRange_eq_rounded _ _ 0 frames hlt hhalf).trans hc
    have hp : mapPhysical (fun _ ↦ .absent false) start (stop % 2 ^ 64) 0 {} frames =
      .ok (t', rest) := by
      simp only [mapPhysical, hs]
      exact hm
    exact (covers_of_mapRange hlt hhalf hm).mp (h _ 0 {} frames t' rest hp)
  · rw [mapPhysical, hs] at hc
    exact (covers_of_mapRange hlt hhalf hc).mpr h
  · obtain ⟨t, t', out, hc⟩ := vmUnmap_some_returns false hlt hhalf
    rw [← unmap_eq_rounded t false hlt hhalf] at hc
    exact (covers_of_unmap hlt hhalf hc).mp (h t false t' out hc)
  · obtain ⟨frames, t', rest, hc⟩ := vmMap_empty_returns Loader.userBits _ hlt hhalf
    have hm := (mapRange_eq_rounded _ _ 0 frames hlt hhalf).trans hc
    exact (covers_of_mapRange hlt hhalf hm).mp (h _ 0 frames t' rest hm)

theorem rounding_covers_two_bytes : ((∀ t physical flags frames t' rest,
  mapPhysical t 0xffe (0x1000 % 2 ^ 64) physical flags frames = .ok (t', rest) →
  Covers (NewlyMapped t t') 0xffe 0x1000) ↔ Rounded 0xffe 0x1000) ∧
  ((∀ t freePhysical t' out, unmap t 0xffe (0x1000 % 2 ^ 64) freePhysical = .ok (t', out) →
  Covers (fun v ↦ roundedStart v ∈ out.invalidated) 0xffe 0x1000) ↔ Rounded 0xffe 0x1000) ∧
  ((∀ t phys frames t' rest, Loader.vmMap t phys (0x1000 - 0xffe) 0xffe frames = .ok (t', rest) →
  Covers (NewlyMapped t t') 0xffe 0x1000) ↔ Rounded 0xffe 0x1000) :=
  rounding_covers_iff 0xffe 0x1000 (by decide) (.inl (by decide))

theorem rounding_misses_page : CanonicalHalf 0xfff 0x1001 ∧ Meets 0xfff 0x1001 0x1000 ∧
    (∃ t' rest, mapPhysical (fun _ ↦ .absent false) 0xfff 0x1001 0 {} [1, 2, 3] = .ok (t', rest) ∧
      ¬ NewlyMapped (fun _ ↦ .absent false) t' 0x1000) ∧
    (∃ t' out, unmap sharedFrame 0xfff 0x1001 false = .ok (t', out) ∧ out.invalidated = [0]) ∧
    (∃ t' rest, Loader.vmMap (fun _ ↦ .absent false) 0 (0x1001 - 0xfff) 0xfff [1, 2, 3] =
        .ok (t', rest) ∧
      ¬ NewlyMapped (fun _ ↦ .absent false) t' 0x1000) := by
  refine ⟨.inl (by decide), ⟨0x1000, by decide⟩, ⟨_, _, rfl, fun h ↦ h.2 rfl⟩, ⟨_, _, rfl, rfl⟩,
    _, _, rfl, fun h ↦ h.2 rfl⟩

/-- Unmapping what was just mapped leaves every translation as it was before. -/
theorem unmap_mapPhysical (t t' : Pmlt 4) (start stop physical : ℕ) (flags : Flags)
    (frames rest : List ℕ) (free : Bool) (hlt : start < stop) (hhalf : CanonicalHalf start stop)
    (hstart : pageSize ∣ start) (hstop : pageSize ∣ stop) (hbound : stop < 2 ^ 64)
    (hphys : physical < 2 ^ 64) (hvacant : ∀ v, start ≤ v → v < stop → leaf 4 t v = none)
    (hmap : mapPhysical t start stop physical flags frames = .ok (t', rest)) :
    ∃ t'' out, unmap t' start stop free = .ok (t'', out) ∧
      ∀ v, Canonical v → leaf 4 t'' v = leaf 4 t v := by
  have hs := size_eq hlt.le hhalf
  have hc := unmap_eq_vmUnmap t' free hlt hhalf hstart hstop
  rw [Nat.mod_eq_of_lt hbound] at hs hc
  rw [mapPhysical, hs, mapRange_roundedPhys _ _ _ hphys, mapRange_eq_vmMap _ hlt hhalf hstart hstop
    ((Nat.div_mul_le_self _ _).trans_lt hphys) (dvd_mul_left _ _), Nat.mod_eq_of_lt hbound] at hmap
  have hx := mapsExactly_of_vmMap hlt hhalf hstart hstop hbound hvacant hmap
  obtain ⟨t'', out, h, hu⟩ := vmUnmap_unmapping free le_rfl t' start stop hlt hbound hstart hstop
    (canonical_block hlt hhalf) fun v hv hv' ↦ ⟨_, hx.new v hv hv'⟩
  refine ⟨t'', out, hc.trans h, fun v hv ↦ ?_⟩
  by_cases hr : start ≤ v ∧ v < stop
  · rw [hu.gone v hr.1 hr.2, hvacant v hr.1 hr.2]
  · -- An address outside of the range keeps its translation, or its lack of one, in both calls.
    have hk := hu.kept _ (moved_block start v) ((mem_moved_iff hhalf hv).not.mpr hr)
    rw [leaf_moved, leaf_moved] at hk
    cases hl : leaf 4 t v with
    | none => simpa [hl, hr, hk] using hx.present v hv
    | some l => rw [hk, hx.kept v l hv hl]

theorem unmap_mapPhysical_pages : ∃ t' t'' out,
  mapPhysical (fun _ ↦ .absent false) 0x1ff000 0x201000 0 {} [1, 2, 3, 4] = .ok (t', []) ∧
  unmap t' 0x1ff000 0x201000 true = .ok (t'', out) ∧ ∀ v, Canonical v → leaf 4 t'' v = none := by
  have h : ∃ t', mapPhysical (fun _ ↦ .absent false) 0x1ff000 0x201000 0 {} [1, 2, 3, 4] =
    .ok (t', []) := ⟨_, rfl⟩
  obtain ⟨t', h⟩ := h
  obtain ⟨t'', out, hu, hl⟩ := unmap_mapPhysical _ t' _ _ _ _ _ _ true (by decide)
    (.inl (by decide)) (by decide) (by decide) (by decide) (by decide) (fun _ _ _ ↦ rfl) h
  exact ⟨t', t'', out, h, hu, hl⟩

end ReaverOS.Kernel.Vm
