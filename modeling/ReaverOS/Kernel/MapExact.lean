import Mathlib.Algebra.Order.BigOperators.Group.Finset
import ReaverOS.Kernel.Vas

namespace ReaverOS.Kernel.Vm

open Paging

section

open Foundation.Words

def Canonical (v : ℕ) : Prop := v < 2 ^ 47 ∨ 2 ^ 64 - 2 ^ 47 ≤ v ∧ v < 2 ^ 64

structure MapsExactly (t t' : Pmlt 4) (start stop : ℕ) (flags : Flags) (frames rest : List ℕ) :
  Prop where
  present : ∀ v, Canonical v →
    ((leaf 4 t' v).isSome ↔ (leaf 4 t v).isSome ∨ start ≤ v ∧ v < stop)
  kept : ∀ v l, Canonical v → leaf 4 t v = some l → leaf 4 t' v = some l
  new : ∀ v, start ≤ v → v < stop → ∃ address, leaf 4 t' v = some ⟨1, flags.user, address⟩
  path : flags.user = true → ∀ v, start ≤ v → v < stop → ∀ user ∈ Vas.userWalk 4 t' v, user = true
  tables : ∀ J v, 1 ≤ J → J ≤ 3 → Canonical v →
    ((tableAt J 4 t' v).isSome ↔ (tableAt J 4 t v).isSome ∨
      ∃ y, start ≤ y ∧ y < stop ∧ y / entrySize (J + 1) = v / entrySize (J + 1))
  tablesKept : ∀ J v address, 1 ≤ J → J ≤ 3 → Canonical v →
    tableAt J 4 t v = some address → tableAt J 4 t' v = some address
  allocated : ∃ popped, frames = popped ++ rest ∧
    tableFrames 4 t' = tableFrames 4 t + (popped.map addressOf : List (BitVec 40))

def moved (start v : ℕ) : ℕ := start / 2 ^ 48 * 2 ^ 48 + v % 2 ^ 48

section Moved

variable {start stop v : ℕ}

theorem tableIndex_of_mod {I K x y : ℕ} (hK : K ≤ I)
  (h : x % entrySize (I + 1) = y % entrySize (I + 1)) : tableIndex K x = tableIndex K y := by
  apply Fin.ext
  rw [tableIndex_val, tableIndex_val]
  have hd : entrySize K * 512 ∣ entrySize (I + 1) :=
    entrySize_succ K ▸ entrySize_dvd (by omega : K + 1 ≤ I + 1)
  rw [← Nat.mod_mul_right_div_self, ← Nat.mod_mul_right_div_self, ← Nat.mod_mod_of_dvd x hd, h,
    Nat.mod_mod_of_dvd y hd]

theorem moved_mod (b v : ℕ) : moved b v % entrySize 5 = v % entrySize 5 := by
  rw [show entrySize 5 = 2 ^ 48 by decide, moved]
  omega

theorem leaf_moved (t : Pmlt 4) (b v : ℕ) : leaf 4 t (moved b v) = leaf 4 t v :=
  leaf_congr (fun _ _ hK ↦ tableIndex_of_mod hK (moved_mod b v)) t

theorem tableAt_moved (J : ℕ) (t : Pmlt 4) (b v : ℕ) :
  tableAt J 4 t (moved b v) = tableAt J 4 t v :=
  tableAt_congr (fun _ _ hK ↦ tableIndex_of_mod hK (moved_mod b v)) t

theorem moved_block (b v : ℕ) : moved b v / entrySize 5 = b / entrySize 5 := by
  rw [show entrySize 5 = 2 ^ 48 by decide, moved]
  omega

theorem mem_moved_iff (hh : CanonicalHalf start stop) (hv : Canonical v) :
  start ≤ moved start v ∧ moved start v < stop ↔ start ≤ v ∧ v < stop := by
  simp only [moved, CanonicalHalf, Canonical] at *
  omega

theorem shares_moved_iff {J : ℕ} (hJ : J ≤ 3) (hh : CanonicalHalf start stop) (hv : Canonical v) :
  (∃ y, start ≤ y ∧ y < stop ∧ y / entrySize (J + 1) = moved start v / entrySize (J + 1)) ↔
  ∃ y, start ≤ y ∧ y < stop ∧ y / entrySize (J + 1) = v / entrySize (J + 1) := by
  refine exists_congr fun y ↦ ?_
  constructor
  all_goals
    rintro ⟨hy, hy', hs⟩
    refine ⟨hy, hy', ?_⟩
    have hb := div_entrySize_of_le (by omega : J + 1 ≤ 4) hs
    rw [show entrySize 4 = 2 ^ 39 by decide] at hb
    have heq : moved start v = v := by
      simp only [moved, CanonicalHalf, Canonical] at *
      omega
  · rwa [heq] at hs
  · rwa [heq]

end Moved

theorem vmMap_userWalk {bs : UserBits} (hl : ∀ u, bs.leaf u = true)
  (ht : ∀ u, bs.table u = true) {I : ℕ} (hI : I + 1 ≤ 4) {t t' : Pmlt (I + 1)}
  {vs ve p x : ℕ} {gs gs' : List ℕ} (hv : ve < 2 ^ 64) (ha : pageSize ∣ vs)
  (hb : pageSize ∣ ve) (hbl : vs < ve → (ve - 1) / entrySize (I + 2) = vs / entrySize (I + 2))
  (h : vmMap bs 1 (I + 1) t vs ve p gs = .ok (t', gs'))
  (hx : x / entrySize (I + 2) = vs / entrySize (I + 2)) (hle : vs ≤ x) (hlt : x < ve) :
  ∀ u ∈ Vas.userWalk (I + 1) t' x, u = true := by
  induction I generalizing vs ve p gs gs' with
  | zero =>
    obtain ⟨-, hn⟩ | ⟨a, b, ⟨-, -, q, fs, fs', ho⟩, -⟩ := vmMap_at hI hv ha hb hbl h hx
    · exact absurd rfl (hn x hle hlt)
    · rw [if_pos rfl] at ho
      obtain ⟨u, -, he', -⟩ := mapPage_ok ho
      rw [Vas.userWalk, he']
      exact List.forall_mem_singleton.mpr (hl u)
  | succ I ih =>
    obtain ⟨-, hn⟩ | ⟨a, b, ⟨ha', hb', q, fs, fs', ho⟩, hab, hbe, hax, hbx, hi⟩ :=
      vmMap_at hI hv ha hb hbl h hx
    · exact absurd rfl (hn x hle hlt)
    · rw [if_neg (by omega)] at ho
      obtain ⟨u, ad, t₀, t₁, f, hc, he', -⟩ := mapTable_ok ho
      obtain ⟨hax', hxb⟩ := (hi x rfl).mp ⟨hle, hlt⟩
      rw [Vas.userWalk, he']
      exact List.forall_mem_cons.mpr ⟨ht u, ih (by omega) (by omega) ha' hb'
        (fun _ ↦ hbx.trans hax.symm) hc hax.symm hax' hxb⟩

section Range

variable {t t' : Pmlt 4} {start stop physical : ℕ} {flags : Flags} {frames rest : List ℕ}

theorem MapsExactly.refl (t : Pmlt 4) (b : ℕ) (fl : Flags) (frames : List ℕ) :
  MapsExactly t t b b fl frames frames := by
  have ho (v : ℕ) : ¬ (b ≤ v ∧ v < b) := by omega
  refine ⟨fun v _ ↦ (or_iff_left (ho v)).symm, fun _ _ _ h ↦ h,
    fun v h h' ↦ absurd ⟨h, h'⟩ (ho v), fun _ v h h' ↦ absurd ⟨h, h'⟩ (ho v),
    fun J v _ _ _ ↦ (or_iff_left ?_).symm, fun _ _ _ _ _ _ h ↦ h, [], rfl, (add_zero _).symm⟩
  rintro ⟨y, hy, hy', -⟩
  exact ho y ⟨hy, hy'⟩

theorem mapsExactly_of_vmMap (hlt : start < stop) (hh : CanonicalHalf start stop)
  (ha : pageSize ∣ start) (hb : pageSize ∣ stop) (hbe : stop < 2 ^ 64)
  (hva : ∀ v, start ≤ v → v < stop → leaf 4 t v = none)
  (h : vmMap (userBits flags) 1 4 t start stop physical frames = .ok (t', rest)) :
  MapsExactly t t' start stop flags frames rest := by
  have hbl (_ : start < stop) := canonical_block hlt hh
  have hle (v : ℕ) (hv : Canonical v) :
    (start ≤ v ∧ v < stop → ∃ a, leaf 4 t' v = some ⟨1, flags.user, a⟩) ∧
    (¬ (start ≤ v ∧ v < stop) → leaf 4 t' v = leaf 4 t v) := by
    have hm := vmMap_leaf le_rfl hbe ha hb hbl h (moved_block start v)
    rw [mem_moved_iff hh hv, leaf_moved, leaf_moved] at hm
    exact ⟨fun hn ↦ (hm.1 hn).elim fun _ h ↦ h, hm.2⟩
  have hc (v : ℕ) (hv : start ≤ v) (hv' : v < stop) : Canonical v := by
    simp only [Canonical, CanonicalHalf] at *
    omega
  have ht (J v : ℕ) (hJ : 1 ≤ J) (hJ' : J ≤ 3) (hv : Canonical v) :=
    vmMap_tableAt le_rfl hbe ha hb hbl h (moved_block start v) hJ hJ'
  refine ⟨fun v hv ↦ ?_, fun v l hv hl ↦ ?_, fun v hv hv' ↦ (hle v (hc v hv hv')).1 ⟨hv, hv'⟩,
    fun hu v hv hv' ↦ ?_, fun J v hJ hJ' hv ↦ ?_, fun J v a hJ hJ' hv hat ↦ ?_, vmMap_frames h⟩
  · by_cases hn : start ≤ v ∧ v < stop
    · obtain ⟨a, hl⟩ := (hle v hv).1 hn
      exact iff_of_true (by rw [hl]; rfl) (.inr hn)
    · rw [(hle v hv).2 hn, or_iff_left hn]
  · refine ((hle v hv).2 fun hn ↦ ?_).trans hl
    cases (hva v hn.1 hn.2).symm.trans hl
  · refine vmMap_userWalk (fun _ ↦ hu) (fun u ↦ ?_) le_rfl hbe ha hb hbl h
      (block_of_mem hh hv hv') hv hv'
    simp only [userBits, hu, Bool.or_true]
  · have hi := (ht J v hJ hJ' hv).2
    rwa [shares_moved_iff hJ' hh hv, tableAt_moved, tableAt_moved] at hi
  · have hk := (ht J v hJ hJ' hv).1 a
    rw [tableAt_moved, tableAt_moved] at hk
    exact hk hat

theorem mapRange_returns (bs : UserBits) (h : start < stop) (hh : CanonicalHalf start stop)
  (ha : pageSize ∣ start) (hb : pageSize ∣ stop) (hbe : stop < 2 ^ 64)
  (hvc : ∀ v, start ≤ v → v < stop → leaf 4 t v = none)
  (he : vmMap bs 1 4 t start stop physical frames ≠ .error .outOfFrames) :
  ∃ t' rest, vmMap bs 1 4 t start stop physical frames = .ok (t', rest) := by
  have hva : Vacant (vmVirtToPhys 4 t) start stop := fun v hv hv' ↦
    (leaf_eq_none_iff 4 t v).mp (hvc v hv hv')
  obtain ⟨t', rest, hc, -⟩ := vmMap_spec bs 3 le_rfl t start stop physical h hbe ha hb
    (canonical_block h hh) hva
    (frames ++ List.replicate (3 * ((stop - start) / pageSize)) 0) (by simp)
  obtain ⟨⟨t₁, r⟩, ho⟩ := (vmMap_settles bs 1 4 t start stop physical).returns hc he
  exact ⟨t₁, r, ho⟩

end Range

theorem map_exact_iff (t : Pmlt 4) (start stop physical : ℕ) (flags : Flags) (frames : List ℕ)
    (hle : start ≤ stop) (hhalf : CanonicalHalf start stop) (ha : pageSize ∣ start)
    (hb : pageSize ∣ stop) (hp : physical < 2 ^ 64)
    (hvac : ∀ v, start ≤ v → v < stop → leaf 4 t v = none)
    (henough : mapPhysical t start (stop % 2 ^ 64) physical flags frames ≠ .error .outOfFrames) :
    ∃ t' rest, mapPhysical t start (stop % 2 ^ 64) physical flags frames = .ok (t', rest) ∧
      (MapsExactly t t' start stop flags frames rest ↔ (start < stop → stop < 2 ^ 64)) := by
  simp only [mapPhysical, size_eq hle hhalf] at henough ⊢
  rcases eq_or_lt_of_le hle with rfl | hlt
  · refine ⟨t, frames, by rw [mapRange, if_pos (Nat.sub_self start)], ?_⟩
    exact iff_of_true (.refl t start flags frames) fun h ↦ absurd h (lt_irrefl _)
  · rw [mapRange_roundedPhys _ _ _ hp, mapRange_eq_vmMap _ hlt hhalf ha hb
      ((Nat.div_mul_le_self _ _).trans_lt hp) (Nat.dvd_mul_left _ _)] at henough ⊢
    have hs : stop ≤ 2 ^ 64 := by rcases hhalf with h | h <;> omega
    rcases eq_or_lt_of_le hs with ht | hbe
    · -- The end of the address space is the 64-bit zero, so nothing is mapped.
      rw [ht, Nat.mod_self]
      refine ⟨t, frames, mapLoop_done _ t frames (Nat.not_lt_zero start), ?_⟩
      refine iff_of_false (fun h ↦ ?_) fun h ↦ absurd (h (ht ▸ hlt)) (lt_irrefl _)
      obtain ⟨a, hl⟩ := h.new start le_rfl (ht ▸ hlt)
      cases (hvac start le_rfl hlt).symm.trans hl
    · rw [Nat.mod_eq_of_lt hbe] at henough ⊢
      obtain ⟨t', rest, hc⟩ := mapRange_returns _ hlt hhalf ha hb hbe hvac henough
      exact ⟨t', rest, hc,
        iff_of_true (mapsExactly_of_vmMap hlt hhalf ha hb hbe hvac hc) fun _ ↦ hbe⟩

theorem map_exact_single_page :
  ∃ t' rest, mapPhysical (fun _ ↦ .absent false) 0x1000 (0x2000 % 2 ^ 64) 0x5123 ⟨true, false⟩
  [0x10000, 0x20000, 0x30000] = .ok (t', rest) ∧
  (MapsExactly (fun _ ↦ .absent false) t' 0x1000 0x2000 ⟨true, false⟩
  [0x10000, 0x20000, 0x30000] rest ↔ (0x1000 < 0x2000 → 0x2000 < 2 ^ 64)) :=
  map_exact_iff (fun _ ↦ .absent false) 0x1000 0x2000 0x5123 ⟨true, false⟩
    [0x10000, 0x20000, 0x30000] (by decide) (Or.inl (by decide)) (by decide) (by decide)
    (by decide) (fun _ _ _ ↦ rfl) nofun

theorem map_last_page_absent : CanonicalHalf 0xfffffffffffff000 (2 ^ 64) ∧
  (∀ v, 0xfffffffffffff000 ≤ v → v < 2 ^ 64 → leaf 4 (fun _ ↦ .absent false) v = none) ∧
  ∃ t' rest, mapPhysical (fun _ ↦ .absent false) 0xfffffffffffff000 (2 ^ 64 % 2 ^ 64) 0x5000 {}
  [0x10000, 0x20000, 0x30000] = .ok (t', rest) ∧ leaf 4 t' 0xfffffffffffff000 = none ∧
  ¬ MapsExactly (fun _ ↦ .absent false) t' 0xfffffffffffff000 (2 ^ 64) {}
  [0x10000, 0x20000, 0x30000] rest := by
  refine ⟨Or.inr (by decide), fun _ _ _ ↦ rfl, _, _, rfl, rfl, fun h ↦ ?_⟩
  obtain ⟨a, hl⟩ := h.new 0xfffffffffffff000 le_rfl (by decide)
  cases hl

end

section

open Foundation.Fallible

def unmapAllEntry {T : Type} (descend : T → Except Fault (T × List ℕ)) :
  Pmle T → Except Fault (Pmle T × List ℕ)
  | .absent user => .ok (.absent user, [])
  | .page user address => .ok (.absent user, [getPhys address])
  | .table user address next => do
    let (_, pushed) ← descend next
    .ok (.absent user, pushed ++ [getPhys address])

def unmapAllLoop {T : Type} (body : Pmle T → Except Fault (Pmle T × List ℕ)) :
  ℕ → ℕ → (Fin 512 → Pmle T) → Except Fault ((Fin 512 → Pmle T) × List ℕ)
  | 0, _, t => .ok (t, [])
  | rounds + 1, first, t =>
    if h : first < 512 then do
      let (e, pushed) ← body (t ⟨first, h⟩)
      let (t, more) ← unmapAllLoop body rounds (first + 1) (Function.update t ⟨first, h⟩ e)
      .ok (t, pushed ++ more)
    else .error .outOfBounds

def unmapAll : (I : ℕ) → Pmlt I → ℕ → ℕ → Except Fault (Pmlt I × List ℕ)
  | 0, t, _, _ => nomatch t
  | 1, t, _, _ => .ok (t, [])
  | I + 2, t, first, last =>
    unmapAllLoop (unmapAllEntry fun next ↦ unmapAll (I + 1) next 0 511) (last + 1 - first) first t

/-- `unmap_lower_half`: the flag `unmap_lower_half_called` afterwards, and nothing else if the call
panics. -/
def unmapLowerHalf (called : Bool) (cr3 : Pmlt 4) : Bool × Option (Pmlt 4 × List ℕ) :=
  (true, if called then none else (unmapAll 4 cr3 0 255).toOption)

theorem unmapLowerHalf_first {t : Pmlt 4} {r : Pmlt 4 × List ℕ} (h : unmapAll 4 t 0 255 = .ok r) :
  unmapLowerHalf false t = (true, some r) := by
  simp only [unmapLowerHalf, h, Bool.false_eq_true, if_false, Except.toOption]

def entryLarge {T : Type} (below : T → Multiset (BitVec 40)) : Pmle T → Multiset (BitVec 40)
  | .absent _ => 0
  | .page _ address => {address}
  | .table _ _ next => below next

def largeFrames : (I : ℕ) → Pmlt I → Multiset (BitVec 40)
  | 0, _ => 0
  | 1, _ => 0
  | I + 2, t => ∑ i : Fin 512, entryLarge (largeFrames (I + 1)) (t i)

def between (first rounds : ℕ) : Finset (Fin 512) :=
  {i | first ≤ (i : ℕ) ∧ (i : ℕ) < first + rounds}

def lowerTableFrames (t : Pmlt 4) : Multiset (BitVec 40) :=
  ∑ i ∈ between 0 256, entryFrames (tableFrames 3) (t i)

def user {T : Type} : Pmle T → Bool
  | .absent user | .page user _ | .table user _ _ => user

def Drops {T : Type} (body : Pmle T → Except Fault (Pmle T × List ℕ))
  (frames : Pmle T → Multiset (BitVec 40)) : Prop :=
  ∀ e, ∃ pushed, body e = .ok (.absent (user e), pushed) ∧
    (pushed : Multiset ℕ) = (frames e).map getPhys

section Loop

variable {T : Type} {body : Pmle T → Except Fault (Pmle T × List ℕ)}
  {frames : Pmle T → Multiset (BitVec 40)} {first rounds : ℕ}

theorem mem_between {i : Fin 512} :
  i ∈ between first rounds ↔ first ≤ (i : ℕ) ∧ (i : ℕ) < first + rounds := by
  rw [between, Finset.mem_filter, and_iff_right (Finset.mem_univ i)]

theorem between_zero (x : ℕ) : between x 0 = ∅ := by
  refine Finset.eq_empty_of_forall_notMem fun i hi ↦ ?_
  rw [mem_between] at hi
  omega

theorem notMem_between_succ (rounds : ℕ) (h : first < 512) :
  (⟨first, h⟩ : Fin 512) ∉ between (first + 1) rounds := by
  rw [mem_between]
  exact fun hi ↦ absurd hi.1 (Nat.not_succ_le_self first)

theorem between_succ (h : first < 512) :
  between first (rounds + 1) = insert ⟨first, h⟩ (between (first + 1) rounds) := by
  refine Finset.ext fun i ↦ ?_
  rw [Finset.mem_insert, mem_between, mem_between, Fin.ext_iff]
  dsimp only
  omega

theorem unmapAllLoop_drops (hb : Drops body frames) (n x : ℕ)
  (hl : x + n ≤ 512) (t : Fin 512 → Pmle T) : ∃ t' p, unmapAllLoop body n x t = .ok (t', p) ∧
  (p : Multiset ℕ) = (∑ i ∈ between x n, frames (t i)).map getPhys ∧
  (∀ i ∈ between x n, t' i = .absent (user (t i))) ∧ ∀ i ∉ between x n, t' i = t i := by
  induction n generalizing x t with
  | zero =>
    rw [between_zero]
    exact ⟨t, [], rfl, rfl, fun i hi ↦ absurd hi (Finset.notMem_empty i), fun _ _ ↦ rfl⟩
  | succ n ih =>
    have hf : x < 512 := by omega
    obtain ⟨p, h, hp⟩ := hb (t ⟨x, hf⟩)
    obtain ⟨t', m, hr, hm, hc, hk⟩ := ih (x + 1) (by omega)
      (Function.update t ⟨x, hf⟩ (.absent (user (t ⟨x, hf⟩))))
    have hn := notMem_between_succ n hf
    rw [between_succ hf]
    refine ⟨t', p ++ m, ?_, ?_, fun i hi ↦ ?_, fun i hi ↦ ?_⟩
    · simp only [unmapAllLoop, dif_pos hf, h, ok_bind, hr]
    · have ho : ∑ i ∈ between (x + 1) n, frames (Function.update t ⟨x, hf⟩
        (.absent (user (t ⟨x, hf⟩))) i) = ∑ i ∈ between (x + 1) n, frames (t i) := by
        refine Finset.sum_congr rfl fun i hi ↦ ?_
        rw [Function.update_of_ne (ne_of_mem_of_not_mem hi hn)]
      rw [← Multiset.coe_add, hp, hm, ho, Finset.sum_insert hn, Multiset.map_add]
    · rcases Finset.mem_insert.mp hi with rfl | hi
      · rw [hk _ hn, Function.update_self]
      · rw [hc i hi, Function.update_of_ne (ne_of_mem_of_not_mem hi hn)]
    · rw [Finset.mem_insert, not_or] at hi
      rw [hk i hi.2, Function.update_of_ne hi.1]

end Loop

theorem unmapAllEntry_drops {T : Type} {d : T → Except Fault (T × List ℕ)}
  {ts l : T → Multiset (BitVec 40)} (h : ∀ t, ∃ t' p, d t = .ok (t', p) ∧
  (p : Multiset ℕ) = (ts t + l t).map getPhys) :
  Drops (unmapAllEntry d) fun e ↦ entryFrames ts e + entryLarge l e := by
  intro e
  cases e with
  | absent u => exact ⟨[], rfl, rfl⟩
  | page u a => exact ⟨[getPhys a], rfl, rfl⟩
  | table u a nx =>
    obtain ⟨t', p, hc, hp⟩ := h nx
    refine ⟨p ++ [getPhys a], by rw [unmapAllEntry, hc]; rfl, ?_⟩
    dsimp only [entryFrames, entryLarge]
    rw [← Multiset.coe_add, hp, Multiset.cons_add, Multiset.map_cons, add_comm]
    rfl

theorem between_all : between 0 512 = Finset.univ := by
  refine Finset.eq_univ_of_forall fun i ↦ mem_between.mpr ?_
  omega

theorem unmapAll_all (I : ℕ) (t : Pmlt (I + 1)) : ∃ t' p, unmapAll (I + 1) t 0 511 = .ok (t', p) ∧
  (p : Multiset ℕ) = (tableFrames (I + 1) t + largeFrames (I + 1) t).map getPhys := by
  induction I with
  | zero =>
    refine ⟨t, [], rfl, ?_⟩
    have hn : tableFrames 1 t = 0 := by
      refine Finset.sum_eq_zero fun i _ ↦ ?_
      cases t i with
      | absent u => rfl
      | page u a => rfl
      | table u a nx => exact nomatch nx
    rw [hn]
    rfl
  | succ I ih =>
    obtain ⟨t', p, hc, hp, -⟩ := unmapAllLoop_drops (unmapAllEntry_drops ih) 512 0 le_rfl t
    refine ⟨t', p, hc, ?_⟩
    rw [hp, between_all, Finset.sum_add_distrib]
    rfl

end

theorem entryLeaf_mod {I : ℕ} (e : Pmle (Pmlt I)) {x y : ℕ}
  (h : x % entrySize (I + 1) = y % entrySize (I + 1)) : entryLeaf I e x = entryLeaf I e y := by
  cases e with
  | absent u => rfl
  | page u a => rfl
  | table u a nx => exact leaf_congr (fun K _ hK ↦ tableIndex_of_mod hK h) nx

def AllSmall (look : ℕ → Option Leaf) (size : ℕ) : Prop :=
  ∀ v < size, ∀ l, look v = some l → l.level = 1

section Large

variable {I : ℕ}

theorem entryLarge_eq_zero_iff (hb : ∀ nx : Pmlt (I + 1), largeFrames (I + 1) nx = 0 ↔
  AllSmall (leaf (I + 1) nx) (entrySize (I + 2))) (e : Pmle (Pmlt (I + 1))) :
  entryLarge (largeFrames (I + 1)) e = 0 ↔ AllSmall (entryLeaf (I + 1) e) (entrySize (I + 2)) := by
  cases e with
  | absent u => exact iff_of_true rfl fun _ _ _ h ↦ nomatch h
  | page u a =>
    refine iff_of_false (Multiset.singleton_ne_zero a) fun h ↦ ?_
    have hl := h 0 (entrySize_pos _) _ rfl
    dsimp only at hl
    omega
  | table u a nx => exact hb nx

theorem sum_entryLarge_eq_zero_iff (hb : ∀ nx : Pmlt (I + 1), largeFrames (I + 1) nx = 0 ↔
  AllSmall (leaf (I + 1) nx) (entrySize (I + 2))) (t : Pmlt (I + 2)) {n : ℕ} (hn : n ≤ 512) :
  ∑ i ∈ between 0 n, entryLarge (largeFrames (I + 1)) (t i) = 0 ↔
  AllSmall (leaf (I + 2) t) (n * entrySize (I + 2)) := by
  have hE := entrySize_pos (I + 2)
  rw [Finset.sum_eq_zero_iff]
  constructor
  · intro h v hv l hl
    have hd : v / entrySize (I + 2) < n := (Nat.div_lt_iff_lt_mul hE).mpr hv
    have hin : tableIndex (I + 2) v ∈ between 0 n := by
      rw [mem_between, tableIndex_val, Nat.mod_eq_of_lt (hd.trans_le hn), zero_add]
      exact ⟨Nat.zero_le _, hd⟩
    rw [leaf_succ, entryLeaf_mod _ (Nat.mod_mod v _).symm] at hl
    exact (entryLarge_eq_zero_iff hb _).mp (h _ hin) _ (Nat.mod_lt v hE) l hl
  · intro h i hi
    refine (entryLarge_eq_zero_iff hb _).mpr fun w hw l hl ↦ ?_
    have hi' := (mem_between.mp hi).2
    have hd : (i * entrySize (I + 2) + w) / entrySize (I + 2) = i :=
      div_eq_of_bounds (Nat.le_add_right ..) (by rw [add_mul]; omega)
    have hin : tableIndex (I + 2) (i * entrySize (I + 2) + w) = i := by
      apply Fin.ext
      rw [tableIndex_val, hd, Nat.mod_eq_of_lt i.isLt]
    refine h (i * entrySize (I + 2) + w) ?_ l ?_
    · rw [← Nat.div_lt_iff_lt_mul hE, hd]
      omega
    · rw [leaf_succ, hin, ← hl]
      exact entryLeaf_mod _ (Nat.mul_add_mod_self_right ..)

theorem largeFrames_eq_zero_iff (I : ℕ) (t : Pmlt (I + 1)) :
  largeFrames (I + 1) t = 0 ↔ AllSmall (leaf (I + 1) t) (entrySize (I + 2)) := by
  induction I with
  | zero =>
    refine iff_of_true rfl fun v _ l hl ↦ ?_
    rw [leaf_succ] at hl
    cases he : t (tableIndex 1 v) with
    | absent u =>
      rw [he] at hl
      cases hl
    | page u a =>
      rw [he] at hl
      cases hl
      rfl
    | table u a nx => exact nomatch nx
  | succ I ih =>
    rw [entrySize_succ (I + 2), mul_comm, ← sum_entryLarge_eq_zero_iff ih t le_rfl, between_all]
    rfl

end Large

structure DropsLowerHalf (t t' : Pmlt 4) (pushed : List ℕ) : Prop where
  pushedOnce : ∀ frame,
    pushed.count frame = if frame ∈ (lowerTableFrames t).map getPhys then 1 else 0
  unmapped : ∀ v < 2 ^ 47, leaf 4 t' v = none
  kept : ∀ v, 2 ^ 64 - 2 ^ 47 ≤ v → v < 2 ^ 64 → leaf 4 t' v = leaf 4 t v

theorem count_coe_eq {p : List ℕ} {ts l : Multiset (BitVec 40)}
  (hp : (p : Multiset ℕ) = (ts + l).map getPhys) (hu : ∀ frame, ts.count frame ≤ 1) :
  (∀ frame, p.count frame = if frame ∈ ts.map getPhys then 1 else 0) ↔ l = 0 := by
  have hc (frame : ℕ) :
    p.count frame = (ts.map getPhys).count frame + (l.map getPhys).count frame := by
    rw [← Multiset.coe_count, hp, Multiset.map_add, Multiset.count_add]
  have ht (frame : ℕ) : (ts.map getPhys).count frame =
      if frame ∈ ts.map getPhys then 1 else 0 :=
    Multiset.count_eq_of_nodup ((Multiset.nodup_iff_count_le_one.mpr hu).map getPhys_injective)
  constructor
  · intro h
    refine Multiset.eq_zero_of_forall_notMem fun a ha ↦ ?_
    have hpo := Multiset.count_pos.mpr (Multiset.mem_map_of_mem getPhys ha)
    have hs := (hc _).symm.trans (h (getPhys a))
    rw [← ht] at hs
    omega
  · rintro rfl frame
    rw [hc, ht, Multiset.map_zero, Multiset.count_zero, add_zero]

theorem unmapAll_lower (t : Pmlt 4) : ∃ t' p, unmapAll 4 t 0 255 = .ok (t', p) ∧
  (p : Multiset ℕ) = (lowerTableFrames t +
  ∑ i ∈ between 0 256, entryLarge (largeFrames 3) (t i)).map getPhys ∧
  (∀ i ∈ between 0 256, t' i = .absent (user (t i))) ∧ ∀ i ∉ between 0 256, t' i = t i := by
  have hs := unmapAllLoop_drops (unmapAllEntry_drops (unmapAll_all 2)) 256 0 (by omega) t
  rw [Finset.sum_add_distrib] at hs
  exact hs

theorem drop_lower_half_iff (t : Pmlt 4) (hunique : ∀ frame, (lowerTableFrames t).count frame ≤ 1) :
    ∃ t' pushed, unmapLowerHalf false t = (true, some (t', pushed)) ∧
      (DropsLowerHalf t t' pushed ↔ ∀ v < 2 ^ 47, ∀ l, leaf 4 t v = some l → l.level = 1) := by
  obtain ⟨t', pushed, hca, hp, hc, hk⟩ := unmapAll_lower t
  have hl (v : ℕ) : tableIndex 4 v ∈ between 0 256 ↔ v % 2 ^ 48 < 2 ^ 47 := by
    rw [mem_between, tableIndex_val, show entrySize 4 = 2 ^ 39 by decide]
    omega
  have hla := sum_entryLarge_eq_zero_iff (largeFrames_eq_zero_iff 2) t (by omega : 256 ≤ 512)
  rw [show 256 * entrySize 4 = 2 ^ 47 by decide] at hla
  have hco := (count_coe_eq hp hunique).trans hla
  refine ⟨t', pushed, unmapLowerHalf_first hca, Iff.trans ⟨fun h ↦ h.pushedOnce, fun h ↦ ?_⟩ hco⟩
  refine ⟨h, fun v hv ↦ ?_, fun v hv hv' ↦ ?_⟩
  · rw [leaf_succ, hc _ ((hl v).mpr (by omega))]
    rfl
  · rw [leaf_succ, leaf_succ, hk _ (fun h ↦ absurd ((hl v).mp h) (by omega))]

def oneTable (t : Pmlt 3) : Pmlt 4 :=
  Function.update (fun _ ↦ .absent false : Fin 512 → Pmle (Pmlt 3)) (tableIndex 4 0)
    (.table false 1 t)

def noPages : Pmlt 3 := fun _ ↦ .absent false

def hugePage : Pmlt 3 :=
  Function.update (fun _ ↦ .absent false : Fin 512 → Pmle (Pmlt 2)) (tableIndex 3 0)
    (.page false 0x40000)

theorem sum_only {T M : Type} [AddCommMonoid M] {f : Pmle T → M} (h : f (.absent false) = 0)
  {s : Finset (Fin 512)} {j : Fin 512} (hj : j ∈ s) (e : Pmle T) :
  ∑ i ∈ s, f (Function.update (fun _ ↦ Pmle.absent false) j e i) = f e := by
  rw [Finset.sum_eq_single_of_mem j hj, Function.update_self]
  intro i _ hi
  rw [Function.update_of_ne hi, h]

theorem zero_mem_between : tableIndex 4 0 ∈ between 0 256 := mem_between.mpr (by decide)

theorem lowerTableFrames_oneTable (t : Pmlt 3) :
  lowerTableFrames (oneTable t) = 1 ::ₘ tableFrames 3 t :=
  sum_only (f := entryFrames (tableFrames 3)) rfl zero_mem_between _

theorem lowerTableFrames_hugePage : lowerTableFrames (oneTable hugePage) = {1} := by
  have hn : tableFrames 3 hugePage = 0 :=
    sum_only (f := entryFrames (tableFrames 2)) rfl (Finset.mem_univ _) _
  rw [lowerTableFrames_oneTable, hn]
  rfl

theorem largeFrames_oneTable (t : Pmlt 3) :
  ∑ i ∈ between 0 256, entryLarge (largeFrames 3) (oneTable t i) = largeFrames 3 t :=
  sum_only (f := entryLarge (largeFrames 3)) rfl zero_mem_between _

theorem largeFrames_hugePage : largeFrames 3 hugePage = {0x40000} :=
  sum_only (f := entryLarge (largeFrames 2)) rfl (Finset.mem_univ _) _

theorem drop_lower_half_oneTable :
  ∃ t' pushed, unmapLowerHalf false (oneTable noPages) = (true, some (t', pushed)) ∧
  (DropsLowerHalf (oneTable noPages) t' pushed ↔
  ∀ v < 2 ^ 47, ∀ l, leaf 4 (oneTable noPages) v = some l → l.level = 1) := by
  refine drop_lower_half_iff (oneTable noPages) fun f ↦ ?_
  rw [lowerTableFrames_oneTable, show tableFrames 3 noPages = 0 from tableFrames_newTable 2]
  exact Multiset.nodup_iff_count_le_one.mp (Multiset.nodup_singleton 1) f

theorem drop_lower_half_pushes_page :
    (∀ frame, (lowerTableFrames (oneTable hugePage)).count frame ≤ 1) ∧
    ∃ t' pushed, unmapLowerHalf false (oneTable hugePage) = (true, some (t', pushed)) ∧
      0x40000000 ∈ pushed ∧ 0x40000000 ∉ (lowerTableFrames (oneTable hugePage)).map getPhys ∧
      ¬ DropsLowerHalf (oneTable hugePage) t' pushed := by
  obtain ⟨t', pushed, hc, hp, -⟩ := unmapAll_lower (oneTable hugePage)
  rw [largeFrames_oneTable, largeFrames_hugePage, lowerTableFrames_hugePage] at hp
  have hm : 0x40000000 ∈ pushed := by
    rw [← Multiset.mem_coe, hp]
    decide
  have hn : 0x40000000 ∉ (lowerTableFrames (oneTable hugePage)).map getPhys := by
    rw [lowerTableFrames_hugePage]
    decide
  refine ⟨fun frame ↦ ?_, t', pushed, unmapLowerHalf_first hc, hm, hn, fun h ↦ ?_⟩
  · rw [lowerTableFrames_hugePage]
    exact Multiset.nodup_iff_count_le_one.mp (Multiset.nodup_singleton 1) frame
  · have hz := h.pushedOnce 0x40000000
    rw [if_neg hn, List.count_eq_zero] at hz
    exact hz hm

end ReaverOS.Kernel.Vm
