import ReaverOS.Kernel.MapExact
import ReaverOS.Kernel.SparseCommit

namespace ReaverOS.Kernel.Vas

section

open Foundation.Fallible List Paging
open SparseVmo (pagesFrom)
open Vm (Canonical Flags mapsExactly_of_vmMap userBits virtToPhys)

theorem isSome_leaf_of_ok {t : Pmlt 4} {x ps : ℕ} (h : virtToPhys t x = .ok ps) :
  (leaf 4 t x).isSome := by
  rw [virtToPhys, vmVirtToPhys_eq_leaf] at h
  cases hl : leaf 4 t x with
  | some l => rfl
  | none =>
    rw [hl] at h
    cases h

section Page

variable {bs : UserBits} {x vs p : ℕ} {frames frames' : List ℕ}

theorem vmMap_page_step {I : ℕ} {t t' : Pmlt (I + 1)} (hI : I + 1 ≤ 4) (ha : pageSize ∣ vs)
  (hve : vs + pageSize < 2 ^ 64)
  (h : vmMap bs 1 (I + 1) t vs (vs + pageSize) p frames = .ok (t', frames'))
  (hx : x / entrySize 1 = vs / entrySize 1) :
  ∃ e, (if I + 1 = 1 then mapPage bs (I + 1) (t (tableIndex (I + 1) vs)) vs p frames
  else mapTable bs (vmMap bs 1 I) (t (tableIndex (I + 1) vs)) vs (vs + pageSize) p frames)
  = .ok (e, frames') ∧ t' (tableIndex (I + 1) x) = e := by
  have hlt : vs < vs + pageSize := Nat.lt_add_of_pos_right (by decide)
  have hr := round_entryVirtEnd hI hlt hve
  have he : entryVirtEnd (I + 1) vs (vs + pageSize) = vs + pageSize := by
    generalize entryVirtEnd (I + 1) vs (vs + pageSize) = m at *
    have hvm := hr.lt
    refine le_antisymm hr.le (not_lt.mp fun hm ↦ hr.beyond m le_rfl hm ?_)
    refine div_entrySize_of_le (Nat.le_add_left 1 I) ?_
    rw [show entrySize 1 = pageSize from rfl]
    simp only [pageSize] at *
    omega
  obtain ⟨room, hro⟩ : ∃ room, 512 - (tableIndex (I + 1) vs : ℕ) = room + 1 :=
    ⟨511 - tableIndex (I + 1) vs, by have := (tableIndex (I + 1) vs).isLt; omega⟩
  rw [vmMap, hro] at h
  obtain ⟨index, hiv, hs⟩ : ∃ index : Fin 512, _ ∧
    mapLoop (I + 1) _ (room + 1) t vs (vs + pageSize) p frames = _ :=
    mapLoop_step room p t frames hlt
  have hi : index = tableIndex (I + 1) vs := Fin.ext (by omega)
  rw [hs, he, hi] at h
  obtain ⟨⟨e, rest⟩, hb, hre⟩ := bind_eq_ok h
  rw [mapLoop_done _ _ _ (lt_irrefl _)] at hre
  cases hre
  have hsa : tableIndex (I + 1) x = tableIndex (I + 1) vs := by
    refine Fin.ext ?_
    rw [tableIndex_val, tableIndex_val, div_entrySize_of_le (Nat.le_add_left 1 I) hx]
  rw [hsa]
  exact ⟨e, hb, Function.update_self ..⟩

theorem vmMap_page {I : ℕ} {t t' : Pmlt (I + 1)} (hI : I + 1 ≤ 4) (ha : pageSize ∣ vs)
  (hve : vs + pageSize < 2 ^ 64)
  (h : vmMap bs 1 (I + 1) t vs (vs + pageSize) p frames = .ok (t', frames'))
  (hx : x / entrySize 1 = vs / entrySize 1) :
  ∃ user, leaf (I + 1) t' x = some ⟨1, user, addressOf p⟩ := by
  induction I generalizing frames frames' with
  | zero =>
    obtain ⟨e, hb, he⟩ := vmMap_page_step hI ha hve h hx
    rw [if_pos rfl] at hb
    obtain ⟨user, -, rfl, -⟩ := mapPage_ok hb
    exact ⟨bs.leaf user, by rw [leaf, he]⟩
  | succ I ih =>
    obtain ⟨e, hb, he⟩ := vmMap_page_step hI ha hve h hx
    rw [if_neg (by omega)] at hb
    obtain ⟨user, address, t₀, t₁, frames₀, hc, rfl, -⟩ := mapTable_ok hb
    obtain ⟨user', hl⟩ := ih (by omega) hc
    exact ⟨user', by rw [leaf, he]; exact hl⟩

theorem mapPhysical_page {t : Pmlt 4} {st b : ℕ} (fl : Flags) (ha : pageSize ∣ st)
  (hf : st + pageSize ≤ 2 ^ 47) (hb : pageSize ∣ b) (hlt : b < 2 ^ 52)
  (hv : ∀ x, st ≤ x → x < st + pageSize → leaf 4 t x = none)
  (he : Vm.mapPhysical t st ((st + pageSize) % 2 ^ 64) b fl frames ≠ .error .outOfFrames) :
  ∃ t' xs, Vm.mapPhysical t st ((st + pageSize) % 2 ^ 64) b fl frames = .ok (t', xs) ∧
  (∀ x, st ≤ x → x < st + pageSize → virtToPhys t' x = .ok b) ∧
  ∀ x, Canonical x → ¬ (st ≤ x ∧ x < st + pageSize) → leaf 4 t' x = leaf 4 t x := by
  have hpo : st < st + pageSize := Nat.lt_add_of_pos_right (by decide)
  have hh : CanonicalHalf st (st + pageSize) := .inl hf
  have hs : pageSize ∣ st + pageSize := (Nat.dvd_add_right ha).mpr dvd_rfl
  have hbe : st + pageSize < 2 ^ 64 := by omega
  rw [Vm.mapPhysical, size_eq hpo.le hh,
    mapRange_eq_vmMap _ hpo hh ha hs (by omega) hb, Nat.mod_eq_of_lt hbe] at he ⊢
  obtain ⟨t', xs, hc⟩ := Vm.mapRange_returns _ hpo hh ha hs hbe hv he
  have hex := mapsExactly_of_vmMap hpo hh ha hs hbe hv hc
  refine ⟨t', xs, hc, fun x hx hx' ↦ ?_, fun x hx ho ↦ ?_⟩
  · have hsa : x / entrySize 1 = st / entrySize 1 := by
      rw [show entrySize 1 = 4096 from rfl]
      simp only [pageSize] at ha hx'
      omega
    obtain ⟨u, h⟩ := vmMap_page le_rfl ha hbe hc hsa
    rw [virtToPhys, vmVirtToPhys_eq_leaf, h]
    exact congrArg Except.ok (getPhys_addressOf_of_lt hlt hb)
  · have hp := hex.present x hx
    rw [or_iff_left ho] at hp
    cases hl : leaf 4 t x with
    | some l => exact hex.kept x l hx hl
    | none =>
      rw [hl] at hp
      exact Option.not_isSome_iff_eq_none.mp (mt hp.mp Bool.false_ne_true)

end Page

section Elements

variable {base : ℕ} {fl : Flags}

theorem Space.mapPhysical_eq {v : Space} {b e ph : ℕ} {t' : Pmlt 4} {xs : List ℕ}
  (h : Vm.mapPhysical v.asid b e ph fl v.frames = .ok (t', xs)) :
  v.mapPhysical b e ph fl = .ok { v with asid := t', frames := xs } := by
  rw [Space.mapPhysical, h]
  rfl

theorem mapElements_pages (fl : Flags) (ha : pageSize ∣ base) (fs : List ℕ) {k : ℕ} {v : Space}
  (hf : base + (k + fs.length) * pageSize ≤ 2 ^ 47)
  (hv : ∀ x, base + k * pageSize ≤ x → x < base + (k + fs.length) * pageSize →
  leaf 4 v.asid x = none) (hfs : ∀ frame ∈ fs, pageSize ∣ frame ∧ frame < 2 ^ 52)
  (he : Space.mapElements base pageSize fl (pagesFrom pageSize k fs) v ≠
  .error (.paging .outOfFrames)) :
  ∃ w, Space.mapElements base pageSize fl (pagesFrom pageSize k fs) v = .ok w ∧
  (∀ x, Canonical x → ¬ (base + k * pageSize ≤ x ∧ x < base + (k + fs.length) * pageSize) →
  leaf 4 w.asid x = leaf 4 v.asid x) ∧
  ∀ i frame, fs[i]? = some frame → ∀ x, base + (k + i) * pageSize ≤ x →
  x < base + (k + i + 1) * pageSize → virtToPhys w.asid x = .ok frame := by
  induction fs generalizing k v with
  | nil => exact ⟨v, rfl, fun _ _ _ ↦ rfl, fun i frame h ↦ by cases h⟩
  | cons f fs ih =>
    rw [length_cons] at hf hv
    rw [forall_mem_cons] at hfs
    have hn : base + (k + 1) * pageSize = base + k * pageSize + pageSize := by
      rw [Nat.succ_mul, add_assoc]
    have hm : base + (k + 1) * pageSize ≤ base + (k + (fs.length + 1)) * pageSize :=
      Nat.add_le_add_left (Nat.mul_le_mul_right _ (by omega)) _
    have hen : base + (k + 1 + fs.length) * pageSize = base + (k + (fs.length + 1)) * pageSize :=
      congrArg (base + · * pageSize) (by omega)
    have hs : pageSize ∣ base + k * pageSize := (Nat.dvd_add_right ha).mpr (dvd_mul_left _ _)
    have hwo : (base + k * pageSize) % 2 ^ 64 = base + k * pageSize := Nat.mod_eq_of_lt (by omega)
    simp only [pagesFrom, Space.mapElements, hwo] at he ⊢
    obtain ⟨t', xs, hca, hp, hk⟩ := mapPhysical_page fl hs (by omega)
      hfs.1.1 hfs.1.2 (fun x hx hx' ↦ hv x hx (by omega))
      (fun hsh ↦ he (by rw [Space.mapPhysical, hsh]; rfl))
    rw [Space.mapPhysical_eq hca, ok_bind] at he ⊢
    have hc (x : ℕ) (hx : x < base + (k + (fs.length + 1)) * pageSize) : Canonical x :=
      .inl (hx.trans_le hf)
    obtain ⟨w, hw, ho, hin⟩ := ih (k := k + 1) (v := { v with asid := t', frames := xs })
      (hen.trans_le hf) (fun x hx hx' ↦ (hk x (hc x (by omega)) (by omega)).trans
      (hv x (by omega) (by omega))) hfs.2 he
    refine ⟨w, hw, fun x hx hx' ↦ ?_, fun i frame hi x hx hx' ↦ ?_⟩
    · rw [length_cons] at hx'
      exact (ho x hx (by omega)).trans (hk x hx (by omega))
    · cases i with
      | zero =>
        cases hi
        rw [add_zero] at hx hx'
        have hl : leaf 4 w.asid x = leaf 4 t' x := ho x (hc x (by omega)) (by omega)
        rw [virtToPhys, vmVirtToPhys_eq_leaf, hl, ← vmVirtToPhys_eq_leaf]
        exact hp x hx (by omega)
      | succ i =>
        rw [getElem?_cons_succ] at hi
        refine hin i frame hi x ?_ ?_
        · rwa [add_right_comm, add_assoc]
        · rwa [add_right_comm k 1 i, add_assoc k i 1]

end Elements

end

open List

open Foundation.Fallible Paging
open SparseVmo (roseVmoCreateHandler toVmo pagesFrom defaultLevel roundedLength)
open Vm (Canonical virtToPhys)

def pageCount (size : ℕ) : ℕ := (size + (pageSize - 1)) / pageSize

structure BacksExactly (t t' : Pmlt 4) (base size : ℕ) (frames : List ℕ) : Prop where
  present : ∀ x, Canonical x →
    ((leaf 4 t' x).isSome ↔ (leaf 4 t x).isSome ∨ base ≤ x ∧ x < base + pageCount size * pageSize)
  kept : ∀ x l, Canonical x → leaf 4 t x = some l → leaf 4 t' x = some l
  backed : ∃ backing : ℕ → ℕ, Set.InjOn backing (Set.Iio (pageCount size)) ∧
    ∀ k < pageCount size, backing k ∈ frames ∧
      ∀ x, base + k * pageSize ≤ x → x < base + (k + 1) * pageSize →
        virtToPhys t' x = .ok (backing k)

def createAndMap (v : Space) (frames : List ℕ) (size base : ℕ) :
  Option (Except CreatePanic (ℕ × Space)) := do
  let s ← (roseVmoCreateHandler size 0).toOption
  let vmo ← s.toVmo
  some (v.roseMappingCreateHandler vmo frames base 0)

def OutOfFrames (result : Option (Except CreatePanic (ℕ × Space))) : Prop :=
  result = some (.error .outOfFrames) ∨ result = some (.error (.mapping (.paging .outOfFrames)))

structure Room (v : Space) (size base : ℕ) (frames : List ℕ) : Prop where
  held : Held v
  aligned : pageSize ∣ base
  lower : base < 2 ^ 47
  fits : base + pageCount size * pageSize ≤ 2 ^ 47
  free : v.find ⟨base, base + pageCount size * pageSize⟩ = none
  vacant : ∀ x, base ≤ x → x < base + pageCount size * pageSize → leaf 4 v.asid x = none
  nodup : frames.Nodup
  pages : ∀ frame ∈ frames, pageSize ∣ frame ∧ frame < 2 ^ 52

section Sizes

variable {size : ℕ}

theorem roundedLength_eq (h : size ≤ 2 ^ 64 - pageSize) :
  roundedLength size (Pmm.pageSizes defaultLevel) = pageCount size * pageSize := by
  rw [show Pmm.pageSizes defaultLevel = 4096 from rfl, roundedLength, pageCount]
  simp only [pageSize] at *
  omega

theorem roundedLength_eq_zero (h : 2 ^ 64 - pageSize < size) (hs : size < 2 ^ 64) :
  roundedLength size (Pmm.pageSizes defaultLevel) = 0 := by
  rw [show Pmm.pageSizes defaultLevel = 4096 from rfl, roundedLength]
  simp only [pageSize] at *
  omega

theorem pageCount_pos_iff : 0 < pageCount size ↔ 0 < size := by
  simp only [pageCount, pageSize]
  omega

end Sizes

def newVmo (length : ℕ) : Vmo where
  state := .sparse [⟨0, none⟩]
  length := length
  alignedToPageLevel := defaultLevel

def committedVmo (size : ℕ) (fs : List ℕ) : Vmo where
  state := .sparse (pagesFrom pageSize 0 fs)
  length := pageCount size * pageSize
  alignedToPageLevel := defaultLevel

section Room

variable {v : Space} {size base : ℕ} {frames : List ℕ}

theorem backsExactly_of_pages {t t' : Pmlt 4} {fs : List ℕ} (hs : fs.length = pageCount size)
  (hn : fs.Nodup) (hm : ∀ f ∈ fs, f ∈ frames)
  (hv : ∀ x, base ≤ x → x < base + pageCount size * pageSize → leaf 4 t x = none)
  (ho : ∀ x, Canonical x → ¬ (base ≤ x ∧ x < base + pageCount size * pageSize) →
  leaf 4 t' x = leaf 4 t x) (hin : ∀ i f, fs[i]? = some f → ∀ x, base + i * pageSize ≤ x →
  x < base + (i + 1) * pageSize → virtToPhys t' x = .ok f) :
  BacksExactly t t' base size frames := by
  refine ⟨fun x hx ↦ ?_, fun x l hx hl ↦ ?_, fun k ↦ fs.getD k 0, fun i hi j hj h ↦ ?_,
    fun k hk ↦ ?_⟩
  · by_cases hr : base ≤ x ∧ x < base + pageCount size * pageSize
    · refine iff_of_true ?_ (.inr hr)
      have hp : (x - base) / pageSize < fs.length := by
        rw [hs, Nat.div_lt_iff_lt_mul (by decide)]
        omega
      have hlo := Nat.div_mul_le_self (x - base) pageSize
      have hh := lt_next_block (by decide : 0 < pageSize) (x - base)
      exact isSome_leaf_of_ok (hin _ _ (getElem?_eq_getElem hp) x (by omega) (by omega))
    · rw [ho x hx hr, or_iff_left hr]
  · refine (ho x hx fun hr ↦ ?_).trans hl
    cases (hv x hr.1 hr.2).symm.trans hl
  · rw [Set.mem_Iio, ← hs] at hi hj
    dsimp only at h
    rw [getD_eq_getElem fs 0 hi, getD_eq_getElem fs 0 hj] at h
    exact (hn.getElem_inj_iff).mp h
  · rw [← hs] at hk
    dsimp only
    rw [getD_eq_getElem fs 0 hk]
    exact ⟨hm _ (getElem_mem hk), hin k _ (getElem?_eq_getElem hk)⟩

theorem Room.size_le (h : Room v size base frames) : size ≤ 2 ^ 64 - pageSize := by
  have hf := h.fits
  simp only [pageCount, pageSize] at *
  omega

theorem Room.mapVmo_eq (h : Room v size base frames) {fs xs : List ℕ}
  (hfs : fs.length = pageCount size) (hfra : frames = fs ++ xs)
  (he : v.mapVmo (committedVmo size fs) base { user := true } ≠ .error (.paging .outOfFrames)) :
  ∃ id w, v.mapVmo (committedVmo size fs) base { user := true } = .ok (id, w) ∧
  BacksExactly v.asid w.asid base size frames := by
  have hfi := h.fits
  have hn := h.nodup
  rw [hfra] at hn
  have hme (f : ℕ) (hf : f ∈ fs) : f ∈ frames := hfra ▸ mem_append_left xs hf
  have hfr : v.find (Mapping.mk ⟨base, base + pageCount size * pageSize⟩
    ⟨true, false⟩ true).range = none := h.free
  obtain ⟨u, hi, -⟩ := insert_held h.held hfr
  have ha := insert_asid hi
  have hm : base &&& (pageSize - 1) = 0 :=
    (Nat.and_two_pow_sub_one_eq_mod base 12).trans (Nat.mod_eq_zero_of_dvd h.aligned)
  have hw : (base + pageCount size * pageSize) % 2 ^ 64 = base + pageCount size * pageSize :=
    Nat.mod_eq_of_lt (by omega)
  have hl : Pmm.pageSizes defaultLevel = pageSize := rfl
  simp only [Space.mapVmo, committedVmo, hl, hm, hw, h.free, ne_eq, not_true, if_false,
    hi, ok_bind, Space.mapPages, Bool.and_false, Bool.false_eq_true] at he ⊢
  obtain ⟨w, hc, ho, hin⟩ := mapElements_pages (k := 0) (v := u) ⟨true, false⟩ h.aligned fs
    (by simpa only [zero_add, hfs] using hfi)
    (by simpa only [zero_mul, add_zero, zero_add, hfs, ha] using h.vacant)
    (fun f hf ↦ h.pages f (hme f hf)) (fun hs ↦ he (by rw [hs]; rfl))
  simp only [zero_mul, add_zero, zero_add, hfs, ha] at ho hin
  rw [hc, ok_bind]
  exact ⟨v.created, _, rfl, backsExactly_of_pages hfs hn.of_append_left hme h.vacant ho hin⟩

theorem handler_of_commit {vm vm' : Vmo} (h : vm.commitAll frames = .ok vm') :
  v.roseMappingCreateHandler vm frames base 0 =
  (v.mapVmo vm' base { user := true }).mapError .mapping := by
  rw [Space.roseMappingCreateHandler, if_neg (not_not.mpr rfl), h, ok_bind]
  cases v.mapVmo vm' base { user := true } with
  | ok m => rfl
  | error pa => rfl

theorem Room.handler_eq (h : Room v size base frames) (hsi : 0 < size)
  (he : ¬ OutOfFrames (some (v.roseMappingCreateHandler (newVmo (pageCount size * pageSize))
  frames base 0))) :
  ∃ id w, v.roseMappingCreateHandler (newVmo (pageCount size * pageSize)) frames base 0 =
  .ok (id, w) ∧ BacksExactly v.asid w.asid base size frames := by
  have hl : Pmm.pageSizes defaultLevel = pageSize := rfl
  have hp : 0 < pageSize := by decide
  obtain ⟨hpa, ht⟩ := not_or.mp he
  have hco : pageCount size ≤ frames.length := by
    by_contra hs
    have hc := SparseVmo.commitElements_short hp (not_le.mp hs)
    refine hpa (congrArg some ?_)
    rw [Space.roseMappingCreateHandler, if_neg (not_not.mpr rfl)]
    simp only [Vmo.commitAll, newVmo, hl, hc]
    rfl
  obtain ⟨fs, f, rest, hf, hfs⟩ := SparseVmo.exists_popped (pageCount_pos_iff.mpr hsi) hco
  have hc : (newVmo (pageCount size * pageSize)).commitAll frames =
    .ok (committedVmo size (fs ++ [f])) := by
    have hn := SparseVmo.commitElements_new hp fs
      (by omega : fs.length + 1 = max 1 (pageCount size)) f rest
    simp only [Vmo.commitAll, newVmo, hl, hf, hn, ok_bind]
    rfl
  rw [handler_of_commit hc] at ht ⊢
  have hle : (fs ++ [f]).length = pageCount size := by rwa [length_append]
  have hsp : frames = (fs ++ [f]) ++ rest := by
    rw [hf, append_assoc, singleton_append]
  obtain ⟨id, w, hm, hb⟩ := h.mapVmo_eq hle hsp (fun hs ↦ ht (by rw [hs]; rfl))
  rw [hm]
  exact ⟨id, w, rfl, hb⟩

theorem elementRange_zero (ha : pageSize ∣ base) (hb : base < 2 ^ 47) :
  elementRange pageSize base 0 = ⟨base, base + pageSize⟩ := by
  have hw : base < 2 ^ 64 := hb.trans (by decide)
  have hlt : base < base + pageSize := Nat.lt_add_of_pos_right (by decide)
  have hf : base + pageSize ≤ 2 ^ 47 := by
    simp only [pageSize] at *
    omega
  have hs := size_eq hlt.le (.inl hf)
  have hst := rounded_stop hlt ((Nat.dvd_add_right ha).mpr dvd_rfl)
  rw [Nat.add_sub_cancel_left] at hs hst
  simp only [elementRange, mappedRange, add_zero, Nat.mod_eq_of_lt hw, hs, andNot_page hw ha, hst]
  rw [if_neg (by decide), Nat.mod_eq_of_lt (by omega)]

theorem handler_maps_page {id : ℕ} {w : Space} (ha : pageSize ∣ base) (hb : base < 2 ^ 47)
  (h : v.roseMappingCreateHandler (newVmo 0) frames base 0 = .ok (id, w)) :
  leaf 4 v.asid base = none ∧ (leaf 4 w.asid base).isSome := by
  have hm := mappedAll_of_handler h
  have hr : (⟨base, base + pageSize⟩ : AddressRange) ∈ createdRanges (newVmo 0) base := by
    rw [← elementRange_zero ha hb]
    exact mem_cons_self
  have hlt : base < base + pageSize := Nat.lt_add_of_pos_right (by decide)
  refine ⟨(leaf_eq_none_iff 4 v.asid base).mpr (hm.vacant _ hr base le_rfl hlt), ?_⟩
  obtain ⟨ps, hp⟩ := hm.mapped _ hr base le_rfl hlt
  exact isSome_leaf_of_ok hp

theorem createAndMap_eq (v : Space) (fs : List ℕ) (z b : ℕ) :
  createAndMap v fs z b = some (v.roseMappingCreateHandler
  (newVmo (roundedLength z (Pmm.pageSizes defaultLevel))) fs b 0) := by
  obtain ⟨s, hc, -, -, hv⟩ := SparseVmo.roseVmoCreateHandler_eq z
  rw [createAndMap, hc]
  simp only [Except.toOption, bind, Option.bind, hv]
  rfl

end Room

theorem not_backsExactly_zero {t t' : Pmlt 4} {b : ℕ} {frames : List ℕ} (h : b < 2 ^ 47)
  (hn : leaf 4 t b = none) (hs : (leaf 4 t' b).isSome) : ¬ BacksExactly t t' b 0 frames := by
  intro hb
  obtain ho | ⟨-, hl⟩ := (hb.present b (.inl h)).mp hs
  · rw [hn] at ho
    cases ho
  · exact absurd hl (lt_irrefl b)

theorem create_and_map_exact_iff (v : Space) (size base : ℕ) (frames : List ℕ)
    (h : Room v size base frames) (henough : ¬ OutOfFrames (createAndMap v frames size base)) :
    ((∃ id w, createAndMap v frames size base = some (.ok (id, w)) ∧
        BacksExactly v.asid w.asid base size frames) ↔ 0 < size) ∧
      ∀ size' < 2 ^ 64, ((∃ s, roseVmoCreateHandler size' 0 = .ok s ∧
        s.length = pageCount size' * pageSize) ↔ size' ≤ 2 ^ 64 - pageSize) := by
  rw [createAndMap_eq, roundedLength_eq h.size_le] at *
  refine ⟨⟨?_, fun hs ↦ ?_⟩, fun size' hs' ↦ ⟨?_, fun hle ↦ ?_⟩⟩
  · rintro ⟨id, w, hh, hb⟩
    refine pos_of_ne_zero fun hz ↦ ?_
    subst hz
    obtain ⟨hn, hso⟩ := handler_maps_page h.aligned h.lower (Option.some.inj hh)
    exact not_backsExactly_zero h.lower hn hso hb
  · obtain ⟨id, w, hh, hb⟩ := h.handler_eq hs henough
    exact ⟨id, w, congrArg some hh, hb⟩
  · rintro ⟨s, hc, hl⟩
    by_contra hla
    obtain ⟨s', hc', -, hl', -⟩ := SparseVmo.roseVmoCreateHandler_eq size'
    cases hc.symm.trans hc'
    rw [roundedLength_eq_zero (not_le.mp hla) hs', hl] at hl'
    have hp := pageCount_pos_iff.mpr (Nat.zero_lt_of_lt (not_le.mp hla))
    exact absurd hl' (mul_pos hp (by decide)).ne'
  · obtain ⟨s, hc, -, hl, -⟩ := SparseVmo.roseVmoCreateHandler_eq size'
    exact ⟨s, hc, hl.trans (roundedLength_eq hle)⟩

def emptySpace : Space where
  asid _ := .absent false
  frames := [0x10000, 0x20000, 0x30000]

theorem room_emptySpace {z : ℕ} (ho : pageCount z ≤ 1) :
  Room emptySpace z 0x400000 [0x7000] where
  held := held_empty _ _
  aligned := by decide
  lower := by decide
  fits := by
    simp only [pageSize]
    omega
  free := rfl
  vacant _ _ _ := rfl
  nodup := nodup_singleton _
  pages := by decide

theorem createAndMap_emptySpace (z l : ℕ) (hl : roundedLength z (Pmm.pageSizes defaultLevel) = l)
  (h : (emptySpace.roseMappingCreateHandler (newVmo l) [0x7000] 0x400000 0).isOk = true) :
  ∃ id w, emptySpace.roseMappingCreateHandler (newVmo l) [0x7000] 0x400000 0 = .ok (id, w) ∧
  createAndMap emptySpace [0x7000] z 0x400000 = some (.ok (id, w)) := by
  obtain ⟨⟨id, w⟩, hh⟩ := exists_of_isOk h
  refine ⟨id, w, hh, ?_⟩
  rw [createAndMap_eq, hl, hh]

theorem not_outOfFrames_of_ok {r : ℕ × Space} : ¬ OutOfFrames (some (.ok r)) := by
  rintro (h | h)
  · cases h
  · cases h

theorem create_and_map_one_byte : Room emptySpace 1 0x400000 [0x7000] ∧
  ¬ OutOfFrames (createAndMap emptySpace [0x7000] 1 0x400000) ∧
  ∃ id w, createAndMap emptySpace [0x7000] 1 0x400000 = some (.ok (id, w)) ∧
  BacksExactly emptySpace.asid w.asid 0x400000 1 [0x7000] := by
  have hr : Room emptySpace 1 0x400000 [0x7000] := room_emptySpace (by decide)
  obtain ⟨id, w, -, hc⟩ := createAndMap_emptySpace 1 4096 (by decide) (by decide)
  have he : ¬ OutOfFrames (createAndMap emptySpace [0x7000] 1 0x400000) :=
    hc ▸ not_outOfFrames_of_ok
  exact ⟨hr, he, (create_and_map_exact_iff emptySpace 1 0x400000 [0x7000] hr he).1.mpr (by decide)⟩

theorem create_and_map_zero_size : Room emptySpace 0 0x400000 [0x7000] ∧
    (∃ id w, createAndMap emptySpace [0x7000] 0 0x400000 = some (.ok (id, w)) ∧
      leaf 4 emptySpace.asid 0x400000 = none ∧ (leaf 4 w.asid 0x400000).isSome ∧
      ¬ BacksExactly emptySpace.asid w.asid 0x400000 0 [0x7000]) ∧
    ∃ s, roseVmoCreateHandler (2 ^ 64 - 1) 0 = .ok s ∧ s.length = 0 := by
  refine ⟨room_emptySpace (by decide), ?_, ?_⟩
  · obtain ⟨id, w, hh, h⟩ := createAndMap_emptySpace 0 0 (by decide) (by decide)
    obtain ⟨hn, hs⟩ := handler_maps_page (by decide) (by decide) hh
    exact ⟨id, w, h, hn, hs, not_backsExactly_zero (by decide) hn hs⟩
  · obtain ⟨s, hc, -, hl, -⟩ := SparseVmo.roseVmoCreateHandler_eq (2 ^ 64 - 1)
    exact ⟨s, hc, hl.trans (roundedLength_eq_zero (by decide) (by decide))⟩

end ReaverOS.Kernel.Vas
