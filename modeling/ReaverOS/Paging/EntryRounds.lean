import ReaverOS.Paging.PageTables

namespace ReaverOS.Paging

open Foundation.Words

section

theorem entrySize_eq (I : ℕ) : entrySize I = 2 ^ (I * 9 + 3) := Nat.one_shiftLeft _

theorem entrySize_pos (I : ℕ) : 0 < entrySize I := by
  rw [entrySize_eq]; exact Nat.two_pow_pos _

theorem entrySize_succ (I : ℕ) : entrySize (I + 1) = entrySize I * 512 := by
  rw [entrySize_eq, entrySize_eq, show (I + 1) * 9 + 3 = I * 9 + 3 + 9 by ring, pow_add]
  norm_num

theorem tableIndex_val (I virt : ℕ) : (tableIndex I virt : ℕ) = virt / entrySize I % 512 := by
  rw [entrySize_eq]
  exact shiftRight_and_low_bits virt (I * 9 + 3) 9

theorem pageSize_dvd_entrySize (I : ℕ) : pageSize ∣ entrySize (I + 1) := by
  rw [entrySize_eq]
  exact pow_dvd_pow 2 (by omega : 12 ≤ (I + 1) * 9 + 3)

theorem nextPhys_eq {I : ℕ} (hI : I ≤ 4) (ps : ℕ) :
  nextPhys I ps = (ps + entrySize I) % 2 ^ 64 / entrySize I * entrySize I := by
  rw [nextPhys, entrySize_eq, andNot_low_bits (Nat.mod_lt _ (by decide)) (by omega)]

theorem entryVirtEnd_eq {I vi virtEnd : ℕ} (hI : I ≤ 4) (h : vi < virtEnd)
  (he : virtEnd < 2 ^ 64) : entryVirtEnd I vi virtEnd =
  min ((vi / entrySize I + 1) * entrySize I) virtEnd := by
  have hE := entrySize_pos I
  have hdv : entrySize I ∣ 2 ^ 64 := by
    rw [entrySize_eq]; exact pow_dvd_pow 2 (by omega)
  have hle := Nat.le_of_dvd (by decide) hdv
  obtain ⟨m, hm⟩ := hdv
  have hd : (vi + entrySize I) / entrySize I = vi / entrySize I + 1 := Nat.add_div_right _ hE
  have hne : vi < (vi / entrySize I + 1) * entrySize I := by
    rw [mul_comm]; exact Nat.lt_mul_div_succ vi hE
  simp only [entryVirtEnd]
  rw [show andNot ((vi + entrySize I) % 2 ^ 64) (entrySize I - 1) =
    (vi + entrySize I) % 2 ^ 64 / entrySize I * entrySize I from nextPhys_eq hI vi]
  by_cases hw : vi + entrySize I < 2 ^ 64
  · rw [Nat.mod_eq_of_lt hw, hd]
    have hle : (vi / entrySize I + 1) * entrySize I ≤ vi + entrySize I := by
      rw [← hd]; exact Nat.div_mul_le_self _ _
    generalize (vi / entrySize I + 1) * entrySize I = n at *
    rw [show n + (2 ^ 64 - 1) = n - 1 + 2 ^ 64 by omega, Nat.add_mod_right,
      Nat.mod_eq_of_lt (by omega : n - 1 < 2 ^ 64)]
    by_cases hn : n ≤ virtEnd
    · rw [if_pos (by omega), min_eq_left hn]
    · rw [if_neg (by omega), min_eq_right (by omega)]
  · -- The block of the highest addresses: the rounded end wraps to zero.
    have hz : (vi + entrySize I) % 2 ^ 64 / entrySize I = 0 := by
      rw [Nat.mod_eq_sub_mod (by omega), Nat.mod_eq_of_lt (by omega)]
      exact Nat.div_eq_of_lt (by omega)
    have ht : 2 ^ 64 ≤ (vi / entrySize I + 1) * entrySize I := by
      have hq : m ≤ vi / entrySize I + 1 := by
        rw [← hd, Nat.le_div_iff_mul_le hE, mul_comm]
        omega
      calc 2 ^ 64 = m * entrySize I := by rw [hm, mul_comm]
        _ ≤ _ := Nat.mul_le_mul_right _ hq
    rw [hz, zero_mul, if_neg (by simp), min_eq_right (by omega)]

theorem div_eq_of_bounds {v E q : ℕ} (hl : q * E ≤ v) (hu : v < (q + 1) * E) : v / E = q :=
  Nat.div_eq_of_lt_le hl hu

theorem div_eq_of_between {E vs ve x c : ℕ} (hvs : vs / E = c) (h : (ve - 1) / E = c)
  (hx : vs ≤ x) (hx' : x < ve) : x / E = c := by
  have hl := Nat.div_le_div_right (c := E) hx
  have hu : x / E ≤ (ve - 1) / E := Nat.div_le_div_right (by omega)
  omega

theorem lt_next_block {E : ℕ} (hE : 0 < E) (v : ℕ) : v < (v / E + 1) * E := by
  rw [mul_comm]; exact Nat.lt_mul_div_succ v hE

structure Round (E vs ve m : ℕ) : Prop where
  lt : vs < m
  le : m ≤ ve
  inside : ∀ y, vs ≤ y → y < m → y / E = vs / E
  beyond : ∀ y, m ≤ y → y < ve → y / E ≠ vs / E
  next : m < ve → m / E = vs / E + 1
  aligned : pageSize ∣ E → pageSize ∣ ve → pageSize ∣ m

theorem round_entryVirtEnd {I vs ve : ℕ} (hI : I ≤ 4) (hl : vs < ve) (hv : ve < 2 ^ 64) :
  Round (entrySize I) vs ve (entryVirtEnd I vs ve) := by
  have hE := entrySize_pos I
  have hm := entryVirtEnd_eq hI hl hv
  have hn := lt_next_block hE vs
  have hq := Nat.div_mul_le_self vs (entrySize I)
  generalize entryVirtEnd I vs ve = m at *
  generalize entrySize I = E at *
  have hne (h : m < ve) : m = (vs / E + 1) * E := by omega
  refine ⟨by omega, by omega, fun y hy hym ↦ ?_, fun y hy hyv he ↦ ?_, fun h ↦ ?_, fun hp hb ↦ ?_⟩
  · exact div_eq_of_bounds (by omega) (by omega)
  · have hy' := lt_next_block hE y
    rw [he, ← hne (by omega)] at hy'
    omega
  · rw [hne h, Nat.mul_div_cancel _ hE]
  · rcases lt_or_ge m ve with h | h
    · rw [hne h]
      exact Dvd.dvd.mul_left hp _
    · rwa [show m = ve by omega]

section Round

variable {E vs ve m v : ℕ}

theorem Round.mem_first (hr : Round E vs ve m) (hv : v / E = vs / E) :
  vs ≤ v ∧ v < ve ↔ vs ≤ v ∧ v < m := by
  have hle := hr.le
  refine ⟨fun h ↦ ⟨h.1, ?_⟩, fun h ↦ ⟨h.1, by omega⟩⟩
  by_contra hge
  exact hr.beyond v (by omega) h.2 hv

theorem Round.mem_rest (hr : Round E vs ve m) (hv : v / E ≠ vs / E) :
  vs ≤ v ∧ v < ve ↔ m ≤ v ∧ v < ve := by
  have hlt := hr.lt
  refine ⟨fun h ↦ ⟨?_, h.2⟩, fun h ↦ ⟨by omega, h.2⟩⟩
  by_contra hge
  exact hv (hr.inside v h.1 (by omega))

theorem Round.eq_next (hr : Round E vs ve m) (hE : 0 < E) (h : m < ve) : m = (vs / E + 1) * E := by
  have hlt := hr.lt
  have hl := Nat.div_mul_le_self m E
  have hh := lt_next_block hE (m - 1)
  rw [hr.next h] at hl
  rw [hr.inside (m - 1) (by omega) (by omega)] at hh
  omega

/-- The rounds up to `v` are one more than those that are left after the first one. -/
theorem Round.shift {β : Type*} (hr : Round E vs ve m) (hE : 0 < E) (h₁ : m ≤ v) (h₂ : v < ve)
  (G : ℕ → ℕ → β) (nx : ℕ → ℕ) (p : ℕ) :
  G (if v / E - m / E = 0 then m else v / E * E) (nx^[v / E - m / E] (nx p)) =
  G (if v / E - vs / E = 0 then vs else v / E * E) (nx^[v / E - vs / E] p) := by
  have hn := hr.next (by omega)
  have hle := Nat.div_le_div_right (c := E) h₁
  rw [hn, show v / E - vs / E = v / E - (vs / E + 1) + 1 by omega, Function.iterate_succ_apply,
    if_neg (Nat.succ_ne_zero _)]
  by_cases hz : v / E - (vs / E + 1) = 0
  · rw [if_pos hz, show v / E = vs / E + 1 by omega, ← hr.eq_next hE (by omega)]
  · rw [if_neg hz]

theorem Round.index {c r : ℕ} (hr : Round E vs ve m) (h : m < ve)
  (hro : vs / E % 512 + (r + 1) = 512) (hvs : vs / E / 512 = c)
  (hve : (ve - 1) / E / 512 = c) : m / E % 512 + r = 512 ∧ m / E / 512 = c := by
  have hn := hr.next h
  have hle : m / E ≤ (ve - 1) / E := Nat.div_le_div_right (by omega)
  omega

end Round

end

section

def lookup (I : ℕ) (e : Pmle (Pmlt I)) (virt : ℕ) : Except Fault ℕ :=
  match e with
  | .absent _ => .error (.unmapped virt)
  | .page _ address => .ok (getPhys address)
  | .table _ _ next => vmVirtToPhys I next virt

theorem vmVirtToPhys_succ (I : ℕ) (t : Pmlt (I + 1)) (virt : ℕ) :
  vmVirtToPhys (I + 1) t virt = lookup I (t (tableIndex (I + 1) virt)) virt := rfl

def physAt : ℕ → ℕ → ℕ → ℕ → ℕ
  | 0, _, phys, _ => phys
  | I + 1, virtStart, phys, virt =>
    let skipped := virt / entrySize (I + 1) - virtStart / entrySize (I + 1)
    physAt I (if skipped = 0 then virtStart else virt / entrySize (I + 1) * entrySize (I + 1))
      ((nextPhys (I + 1))^[skipped] phys) virt

def Vacant (look : ℕ → Except Fault ℕ) (a b : ℕ) : Prop :=
  ∀ v, a ≤ v → v < b → look v = .error (.unmapped v)

def Maps {A : Type} (look : A → ℕ → Except Fault ℕ) (block c cost : ℕ) (f : ℕ → ℕ)
  (call : List ℕ → Except Fault (A × List ℕ)) (e : A) (a b : ℕ) : Prop :=
  ∀ frames : List ℕ, cost * ((b - a) / pageSize) ≤ frames.length →
    ∃ e' rest, call frames = .ok (e', rest) ∧
      frames.length ≤ rest.length + cost * ((b - a) / pageSize) ∧
      ∀ v, v / block = c →
        look e' v = if a ≤ v ∧ v < b then .ok (getPhys (addressOf (f v))) else look e v

theorem page_count_split {a m b : ℕ} (ha : pageSize ∣ a) (hm : pageSize ∣ m) (h₁ : a ≤ m)
  (h₂ : m ≤ b) : (b - a) / pageSize = (m - a) / pageSize + (b - m) / pageSize := by
  obtain ⟨x, rfl⟩ := ha
  obtain ⟨y, rfl⟩ := hm
  simp only [pageSize] at *
  omega

section Loop

variable {T : Type} {I : ℕ} (look : Pmle T → ℕ → Except Fault ℕ) {cost : ℕ} (F : ℕ → ℕ → ℕ → ℕ)
  {bd : Pmle T → ℕ → ℕ → ℕ → List ℕ → Except Fault (Pmle T × List ℕ)}

theorem mapLoop_step (ro p : ℕ) {vs ve : ℕ} (t : Fin 512 → Pmle T) (fs : List ℕ)
  (h : vs < ve) : ∃ i : Fin 512, (i : ℕ) = 511 - ro ∧ mapLoop I bd (ro + 1) t vs ve p fs =
  (bd (t i) vs (entryVirtEnd I vs ve) p fs >>= fun r ↦
  mapLoop I bd ro (Function.update t i r.1) (entryVirtEnd I vs ve) ve (nextPhys I p) r.2) :=
  ⟨⟨511 - ro, by omega⟩, rfl, by simp only [mapLoop, if_pos h]⟩

theorem mapLoop_spec (hI : I + 1 ≤ 4)
  (hbo : ∀ e a b p, a < b → b < 2 ^ 64 → pageSize ∣ a → pageSize ∣ b →
  (b - 1) / entrySize (I + 1) = a / entrySize (I + 1) → Vacant (look e) a b →
  Maps look (entrySize (I + 1)) (a / entrySize (I + 1)) cost (F a p) (bd e a b p) e a b)
  (room : ℕ) (t : Fin 512 → Pmle T) (vs ve p c : ℕ) (hve : ve < 2 ^ 64) (ha : pageSize ∣ vs)
  (hb : pageSize ∣ ve) (hle : vs ≤ ve) (hi : vs < ve → vs / entrySize (I + 1) % 512 + room = 512)
  (hbl : vs < ve → vs / entrySize (I + 1) / 512 = c ∧ (ve - 1) / entrySize (I + 1) / 512 = c)
  (hva : Vacant (fun v ↦ look (t (tableIndex (I + 1) v)) v) vs ve) :
  Maps (fun t v ↦ look (t (tableIndex (I + 1) v)) v) (entrySize (I + 2)) c cost
  (fun v ↦ F (if v / entrySize (I + 1) - vs / entrySize (I + 1) = 0 then vs
  else v / entrySize (I + 1) * entrySize (I + 1))
  ((nextPhys (I + 1))^[v / entrySize (I + 1) - vs / entrySize (I + 1)] p) v)
  (mapLoop (I + 1) bd room t vs ve p) t vs ve := by
  have hE := entrySize_pos (I + 1)
  have hp := pageSize_dvd_entrySize I
  have hvl := tableIndex_val (I + 1)
  rw [entrySize_succ (I + 1)]
  induction room generalizing t vs p with
  | zero =>
    intro frames _
    have hen : ¬ vs < ve := fun h ↦ by
      have := hi h
      have := Nat.mod_lt (vs / entrySize (I + 1)) (by decide : 0 < 512)
      omega
    refine ⟨t, frames, by simp [mapLoop, hen], by omega, fun v _ ↦ ?_⟩
    rw [if_neg (by omega)]
  | succ room ih =>
    intro frames hfr
    by_cases hlt : vs < ve
    · have hr := round_entryVirtEnd hI hlt hve
      have hm := hr.aligned hp hb
      have hro := hi hlt
      obtain ⟨hc, hc'⟩ := hbl hlt
      obtain ⟨index, hiv, hs⟩ := mapLoop_step (I := I + 1) room p t frames hlt
      rw [hs]
      generalize entryVirtEnd (I + 1) vs ve = m at *
      generalize entrySize (I + 1) = E at *
      have hvm := hr.lt
      have hmv := hr.le
      have hid (v : ℕ) (hv : v / E = vs / E) : tableIndex (I + 1) v = index :=
        Fin.ext (by rw [hvl, hv, hiv]; omega)
      have hid' (v : ℕ) (hv : v / E / 512 = c) (hne : v / E ≠ vs / E) :
        tableIndex (I + 1) v ≠ index := fun he ↦ by
        have hsa := congrArg Fin.val he
        rw [hvl, hiv] at hsa
        omega
      rw [page_count_split ha hm hvm.le hmv, mul_add] at hfr ⊢
      obtain ⟨e', rest, hca, hln, hlo⟩ := hbo (t index) vs m p hvm (by omega) ha hm
        (hr.inside (m - 1) (by omega) (by omega))
        (fun v h₁ h₂ ↦ hid v (hr.inside v h₁ h₂) ▸ hva v h₁ (by omega)) frames (by omega)
      obtain ⟨t', rest', hca', hln', hlo'⟩ := ih (Function.update t index e') m
        (nextPhys (I + 1) p) hm hmv (fun h ↦ (hr.index h hro hc hc').1)
        (fun h ↦ ⟨(hr.index h hro hc hc').2, hc'⟩) (fun v h₁ h₂ ↦ by
          have hmc := (hr.index (by omega) hro hc hc').2
          have hl := Nat.div_le_div_right (c := E) h₁
          have hu : v / E ≤ (ve - 1) / E := Nat.div_le_div_right (by omega)
          simp only [Function.update_of_ne (hid' v (by omega) (hr.beyond v h₁ h₂))]
          exact hva v (by omega) h₂)
        rest (by omega)
      refine ⟨t', rest', by rw [hca]; exact hca', by omega, fun v hv ↦ ?_⟩
      rw [hlo' v hv]
      by_cases hf : v / E = vs / E
      · have hno : ¬ (m ≤ v ∧ v < ve) := fun h ↦ hr.beyond v h.1 h.2 hf
        simp only [hid v hf, Function.update_self, if_neg hno, hlo v hf,
          hr.mem_first hf, hf, Nat.sub_self, if_true, Function.iterate_zero, id_eq]
      · have hv' : v / E / 512 = c := by rw [Nat.div_div_eq_div_mul]; exact hv
        simp only [Function.update_of_ne (hid' v hv' hf), hr.mem_rest hf]
        by_cases hin : m ≤ v ∧ v < ve
        · rw [if_pos hin, if_pos hin, hr.shift hE hin.1 hin.2 (F · · v)]
        · rw [if_neg hin, if_neg hin]
    · refine ⟨t, frames, by simp [mapLoop, hlt], by omega, fun v _ ↦ ?_⟩
      rw [if_neg (by omega)]

end Loop

variable {bs : UserBits}

theorem absent_of_vacant {I a b : ℕ} {e : Pmle (Pmlt I)} (hl : a < b)
  (h : Vacant (lookup I e) a b) : (∃ u, e = .absent u) ∨ ∃ u ad nx, e = .table u ad nx ∧
  Vacant (vmVirtToPhys I nx) a b := by
  cases e with
  | absent u => exact Or.inl ⟨u, rfl⟩
  | table u ad nx => exact Or.inr ⟨u, ad, nx, rfl, h⟩
  | page u ad => cases h a le_rfl hl

theorem page_count_pos {a b : ℕ} (ha : pageSize ∣ a) (hb : pageSize ∣ b) (h : a < b) :
  0 < (b - a) / pageSize :=
  Nat.div_pos (Nat.le_of_dvd (by omega) (Nat.dvd_sub hb ha)) (by decide)

theorem mapPage_spec (e : Pmle (Pmlt 0)) (a b p : ℕ) (hl : a < b) (ha : pageSize ∣ a)
  (hb : pageSize ∣ b) (h : (b - 1) / entrySize 1 = a / entrySize 1)
  (hva : Vacant (lookup 0 e) a b) :
  Maps (lookup 0) (entrySize 1) (a / entrySize 1) 0 (fun _ ↦ p) (mapPage bs 1 e a p) e a b := by
  intro fs _
  obtain ⟨u, rfl⟩ | ⟨_, _, nx, _, _⟩ := absent_of_vacant hl hva
  · refine ⟨_, fs, rfl, by omega, fun v hv ↦ ?_⟩
    have hE : entrySize 1 = pageSize := by decide
    obtain ⟨x, rfl⟩ := ha
    obtain ⟨y, rfl⟩ := hb
    rw [hE] at h hv
    have hin : pageSize * x ≤ v ∧ v < pageSize * y := by
      simp only [pageSize] at *
      omega
    rw [if_pos hin]
    rfl
  · exact nomatch nx

theorem mapTable_spec {I : ℕ}
  (d : Pmlt (I + 1) → ℕ → ℕ → ℕ → List ℕ → Except Fault (Pmlt (I + 1) × List ℕ))
  (e : Pmle (Pmlt (I + 1))) (bk c co a b p : ℕ) (f : ℕ → ℕ) (hlt : a < b) (ha : pageSize ∣ a)
  (hb : pageSize ∣ b) (hv : Vacant (lookup (I + 1) e) a b)
  (hd : ∀ t, Vacant (vmVirtToPhys (I + 1) t) a b →
  Maps (vmVirtToPhys (I + 1)) bk c co f (d t a b p) t a b) :
  Maps (lookup (I + 1)) bk c (co + 1) f (mapTable bs d e a b p) e a b := by
  intro fs hf
  have hp := page_count_pos ha hb hlt
  rw [add_mul, one_mul] at hf ⊢
  obtain ⟨u, rfl⟩ | ⟨u, ad, nx, rfl, hn⟩ := absent_of_vacant hlt hv
  · cases fs with
    | nil => simp only [List.length_nil] at hf; omega
    | cons g fs =>
      simp only [List.length_cons] at hf ⊢
      obtain ⟨t', xs, hc, h, hl⟩ := hd (fun _ ↦ .absent false) (fun v _ _ ↦ rfl) fs (by omega)
      refine ⟨.table (bs.table u) (addressOf g) t', xs, ?_, by omega, hl⟩
      simp only [mapTable, newTable, bind, Except.bind, hc]
  · obtain ⟨t', xs, hc, h, hl⟩ := hd nx hn fs (by omega)
    refine ⟨.table (bs.table u) ad t', xs, ?_, by omega, hl⟩
    simp only [mapTable, bind, Except.bind, hc]

theorem index_add_room (I vs : ℕ) : vs / entrySize I % 512 + (512 - tableIndex I vs) = 512 := by
  rw [tableIndex_val]
  have := Nat.mod_lt (vs / entrySize I) (by decide : 0 < 512)
  omega

theorem div_entrySize_succ (I v : ℕ) : v / entrySize I / 512 = v / entrySize (I + 1) := by
  rw [entrySize_succ, Nat.div_div_eq_div_mul]

theorem vmMap_spec (bs : UserBits) (I : ℕ) (hI : I + 1 ≤ 4) (t : Pmlt (I + 1)) (vs ve p : ℕ)
  (hl : vs < ve) (hve : ve < 2 ^ 64) (ha : pageSize ∣ vs) (hb : pageSize ∣ ve)
  (hbl : (ve - 1) / entrySize (I + 2) = vs / entrySize (I + 2))
  (hv : Vacant (vmVirtToPhys (I + 1) t) vs ve) :
  Maps (vmVirtToPhys (I + 1)) (entrySize (I + 2)) (vs / entrySize (I + 2)) I
  (physAt (I + 1) vs p) (vmMap bs 1 (I + 1) t vs ve p) t vs ve := by
  induction I generalizing vs ve p with
  | zero =>
    exact mapLoop_spec (lookup 0) (physAt 0) hI (fun e a b p h _ h₁ h₂ h₃ h₄ ↦
      mapPage_spec e a b p h h₁ h₂ h₃ h₄) _ t vs ve p _ hve ha hb hl.le
      (fun _ ↦ index_add_room 1 vs)
      (fun _ ↦ ⟨div_entrySize_succ 1 vs, hbl ▸ div_entrySize_succ 1 (ve - 1)⟩) hv
  | succ I ih =>
    refine mapLoop_spec (lookup (I + 1)) (physAt (I + 1)) hI
      (fun e a b p h h₀ h₁ h₂ h₃ h₄ ↦ ?_) _ t vs ve p _ hve ha hb hl.le
      (fun _ ↦ index_add_room (I + 2) vs)
      (fun _ ↦ ⟨div_entrySize_succ (I + 2) vs, hbl ▸ div_entrySize_succ (I + 2) (ve - 1)⟩) hv
    simp only [Nat.add_eq_right, Nat.add_eq_zero_iff, Nat.one_ne_zero, and_false, if_false]
    exact mapTable_spec _ e _ _ I a b p _ h h₁ h₂ h₄ (fun t ht ↦
      ih (by omega) t a b p h h₀ h₁ h₂ h₃ ht)

end

section

variable {I p : ℕ}

theorem nextPhys_of_lt (hI : I ≤ 4) (h : p + entrySize I < 2 ^ 64) :
  nextPhys I p = (p / entrySize I + 1) * entrySize I := by
  rw [nextPhys_eq hI, Nat.mod_eq_of_lt h, Nat.add_div_right _ (entrySize_pos I)]

theorem nextPhys_iterate (hI : I ≤ 4) (j p : ℕ) (h : p + (j + 1) * entrySize I < 2 ^ 64) :
  (nextPhys I)^[j + 1] p = (p / entrySize I + (j + 1)) * entrySize I := by
  induction j with
  | zero => exact nextPhys_of_lt hI (by omega)
  | succ j ih =>
    have hp := Nat.div_mul_le_self p (entrySize I)
    rw [add_mul] at h
    rw [Function.iterate_succ_apply', ih (by omega), nextPhys_of_lt hI ?_,
      Nat.mul_div_cancel _ (entrySize_pos I)]
    · rfl
    · rw [add_mul]; omega

theorem entrySize_one : entrySize 1 = pageSize := by decide

theorem entrySize_le {J : ℕ} (h : I ≤ J) : entrySize I ≤ entrySize J := by
  rw [entrySize_eq, entrySize_eq]
  exact Nat.pow_le_pow_right (by decide) (by omega)

theorem entrySize_dvd {J : ℕ} (h : I ≤ J) : entrySize I ∣ entrySize J := by
  rw [entrySize_eq, entrySize_eq]
  exact pow_dvd_pow 2 (by omega)

theorem entrySize_le_bound (h : I ≤ 5) : entrySize I ≤ 2 ^ 48 := entrySize_le h

variable {vs v : ℕ}

theorem physAt_succ (hI : I + 1 ≤ 4) (hle : vs ≤ v) (hp : p + (v - vs) ≤ 2 ^ 60) :
  physAt (I + 1) vs p v =
  if v / entrySize (I + 1) = vs / entrySize (I + 1) then physAt I vs p v
  else physAt I (v / entrySize (I + 1) * entrySize (I + 1))
  ((p / entrySize (I + 1) + (v / entrySize (I + 1) - vs / entrySize (I + 1))) *
  entrySize (I + 1)) v := by
  have hm : vs / entrySize (I + 1) ≤ v / entrySize (I + 1) := Nat.div_le_div_right hle
  simp only [physAt]
  by_cases h : v / entrySize (I + 1) = vs / entrySize (I + 1)
  · rw [if_pos h, h, Nat.sub_self]
    rfl
  · rw [if_neg h, if_neg (by omega)]
    obtain ⟨j, hj⟩ : ∃ j, v / entrySize (I + 1) - vs / entrySize (I + 1) = j + 1 :=
      ⟨v / entrySize (I + 1) - vs / entrySize (I + 1) - 1, by omega⟩
    rw [hj, nextPhys_iterate hI]
    have hE := entrySize_le_bound (by omega : I + 1 ≤ 5)
    have hsk : (j + 1) * entrySize (I + 1) ≤ v - vs + entrySize (I + 1) := by
      rw [← hj, Nat.sub_mul]
      have hv := Nat.div_mul_le_self v (entrySize (I + 1))
      have hs := lt_next_block (entrySize_pos (I + 1)) vs
      rw [add_mul, one_mul] at hs
      omega
    omega

theorem physAt_aligned (hI : I ≤ 4) (hvs : entrySize (I + 1) ∣ vs) (hp : entrySize (I + 1) ∣ p)
  (hv : v / entrySize (I + 1) = vs / entrySize (I + 1)) (hpa : pageSize ∣ v) (hle : vs ≤ v)
  (hbo : p + (v - vs) ≤ 2 ^ 60) : physAt I vs p v = p + (v - vs) := by
  induction I generalizing vs p with
  | zero =>
    rw [zero_add, entrySize_one] at hvs hv
    obtain ⟨x, rfl⟩ := hpa
    obtain ⟨y, rfl⟩ := hvs
    rw [Nat.mul_div_cancel_left _ (by decide), Nat.mul_div_cancel_left _ (by decide)] at hv
    rw [hv, Nat.sub_self]
    rfl
  | succ I ih =>
    have hd := entrySize_dvd (Nat.le_succ (I + 1))
    obtain ⟨x, rfl⟩ := hd.trans hvs
    obtain ⟨y, rfl⟩ := hd.trans hp
    have hE := entrySize_pos (I + 1)
    rw [physAt_succ hI hle hbo, Nat.mul_div_cancel_left _ hE, Nat.mul_div_cancel_left _ hE]
    by_cases h : v / entrySize (I + 1) = x
    · rw [if_pos h, ih (by omega) (Dvd.intro _ rfl) (Dvd.intro _ rfl)
        (by rw [h, Nat.mul_div_cancel_left _ hE]) hle hbo]
    · have hx : x < v / entrySize (I + 1) := by
        have := Nat.div_le_div_right (c := entrySize (I + 1)) hle
        rw [Nat.mul_div_cancel_left _ hE] at this
        omega
      have hb := Nat.div_mul_le_self v (entrySize (I + 1))
      have hs : (y + (v / entrySize (I + 1) - x)) * entrySize (I + 1) +
        (v - v / entrySize (I + 1) * entrySize (I + 1)) =
        entrySize (I + 1) * y + (v - entrySize (I + 1) * x) := by
        have hxl := Nat.mul_le_mul_right (entrySize (I + 1)) hx.le
        rw [add_mul, Nat.sub_mul, mul_comm y, mul_comm x] at *
        omega
      rw [if_neg h, ih (by omega) (Dvd.intro_left _ rfl) (Dvd.intro_left _ rfl)
        (by rw [Nat.mul_div_cancel _ hE]) hb (by rw [hs]; exact hbo), hs]

def Congruent (I vs v p : ℕ) : Prop :=
  ∀ J, 2 ≤ J → J ≤ I → v / entrySize J ≠ vs / entrySize J →
    vs % entrySize J = p % entrySize J

theorem congruent_succ_of_eq (h : v / entrySize (I + 1) = vs / entrySize (I + 1)) :
  Congruent (I + 1) vs v p ↔ Congruent I vs v p := by
  constructor
  · exact fun hc J h₂ hJ ↦ hc J h₂ (by omega)
  · intro hc J h₂ hJ hn
    rcases eq_or_lt_of_le hJ with rfl | hlt
    · exact absurd h hn
    · exact hc J h₂ (by omega) hn

theorem congruent_succ_of_ne (hs : pageSize ∣ vs) (hp : pageSize ∣ p)
  (h : v / entrySize (I + 1) ≠ vs / entrySize (I + 1)) :
  Congruent (I + 1) vs v p ↔ vs % entrySize (I + 1) = p % entrySize (I + 1) := by
  constructor
  · intro hc
    cases I with
    | zero => rw [entrySize_one, Nat.mod_eq_zero_of_dvd hs, Nat.mod_eq_zero_of_dvd hp]
    | succ I => exact hc (I + 2) (by omega) le_rfl h
  · intro he J _ hJ _
    rw [← Nat.mod_mod_of_dvd vs (entrySize_dvd hJ), he, Nat.mod_mod_of_dvd p (entrySize_dvd hJ)]

theorem physAt_crossed (hI : I + 1 ≤ 4) (hle : vs ≤ v) (hpa : pageSize ∣ v)
  (h : v / entrySize (I + 1) ≠ vs / entrySize (I + 1)) (hb : p + (v - vs) ≤ 2 ^ 52) :
  physAt (I + 1) vs p v + p % entrySize (I + 1) = p + (v - vs) + vs % entrySize (I + 1) := by
  have hE := entrySize_pos (I + 1)
  have hEb := entrySize_le_bound (by omega : I + 1 ≤ 5)
  have hm := lt_of_le_of_ne (Nat.div_le_div_right hle) (Ne.symm h)
  have hg := Nat.mul_le_mul_right (entrySize (I + 1)) hm.le
  have hv' := Nat.div_add_mod v (entrySize (I + 1))
  have hs' := Nat.div_add_mod vs (entrySize (I + 1))
  have hp' := Nat.div_add_mod p (entrySize (I + 1))
  have hlv := Nat.mod_lt v hE
  have hls := Nat.mod_lt vs hE
  rw [physAt_succ hI hle (by omega), if_neg h,
    physAt_aligned (by omega) (Dvd.intro_left _ rfl) (Dvd.intro_left _ rfl)
    (by rw [Nat.mul_div_cancel _ hE]) hpa (Nat.div_mul_le_self _ _) ?_]
  all_goals
    rw [add_mul, Nat.sub_mul]
    rw [mul_comm (entrySize (I + 1))] at hv' hs' hp'
    omega

variable (hI : I ≤ 4) (hvs : pageSize ∣ vs) (hp : pageSize ∣ p)
  (hv : v / entrySize (I + 1) = vs / entrySize (I + 1)) (hpa : pageSize ∣ v) (hle : vs ≤ v)
  (hb : p + (v - vs) ≤ 2 ^ 52)

include hI hvs hp hv hpa hle hb

theorem physAt_exact_iff : physAt I vs p v = p + (v - vs) ↔ Congruent I vs v p := by
  induction I with
  | zero =>
    have h : physAt 0 vs p v = p + (v - vs) :=
      physAt_aligned hI (entrySize_one ▸ hvs) (entrySize_one ▸ hp) hv hpa hle (by omega)
    exact ⟨fun _ J h₂ hJ ↦ by omega, fun _ ↦ h⟩
  | succ I ih =>
    by_cases h : v / entrySize (I + 1) = vs / entrySize (I + 1)
    · rw [physAt_succ hI hle (by omega), if_pos h, congruent_succ_of_eq h]
      exact ih (by omega) h
    · have hc := physAt_crossed hI hle hpa h hb
      rw [congruent_succ_of_ne hvs hp h]
      omega

theorem physAt_near :
  pageSize ∣ physAt I vs p v ∧ physAt I vs p v ≤ p + (v - vs) + 2 ^ 48 ∧
  p + (v - vs) ≤ physAt I vs p v + 2 ^ 48 := by
  induction I with
  | zero =>
    rw [physAt_aligned hI (entrySize_one ▸ hvs) (entrySize_one ▸ hp) hv hpa hle (by omega)]
    exact ⟨Nat.dvd_add hp (Nat.dvd_sub hpa hvs), by omega, by omega⟩
  | succ I ih =>
    by_cases h : v / entrySize (I + 1) = vs / entrySize (I + 1)
    · rw [physAt_succ hI hle (by omega), if_pos h]
      exact ih (by omega) h
    · have hc := physAt_crossed hI hle hpa h hb
      have hEb := entrySize_le_bound (by omega : I + 1 ≤ 5)
      have hls := Nat.mod_lt vs (entrySize_pos (I + 1))
      have hlp := Nat.mod_lt p (entrySize_pos (I + 1))
      have hd := pageSize_dvd_entrySize I
      refine ⟨?_, by omega, by omega⟩
      apply (Nat.dvd_add_left ((Nat.dvd_mod_iff hd).mpr hp)).mp
      rw [hc]
      exact Nat.dvd_add (Nat.dvd_add hp (Nat.dvd_sub hpa hvs)) ((Nat.dvd_mod_iff hd).mpr hvs)

end

def CanonicalHalf (start stop : ℕ) : Prop :=
  stop ≤ 2 ^ 47 ∨ 2 ^ 64 - 2 ^ 47 ≤ start ∧ stop ≤ 2 ^ 64

def OffsetExact (t : Pmlt 4) (start stop phys : ℕ) : Prop :=
  ∀ k, start + k * pageSize < stop →
    vmVirtToPhys 4 t (start + k * pageSize) = .ok (phys + k * pageSize)

/-- The range ends below the top of the address space, the frames fit 40 bits, and the start and the
physical address are congruent modulo every table entry size of which the range crosses a boundary.
-/
def OffsetsKept (start stop phys : ℕ) : Prop :=
  start < stop → stop < 2 ^ 64 ∧ phys + (stop - start) ≤ 2 ^ 52 ∧
    ∀ I, 2 ≤ I → I ≤ 4 → start / entrySize I ≠ (stop - 1) / entrySize I →
      start % entrySize I = phys % entrySize I

theorem andNot_page {x : ℕ} (hx : x < 2 ^ 64) (h : pageSize ∣ x) : andNot x (pageSize - 1) = x := by
  have hm := andNot_low_bits hx (by decide : 12 ≤ 64)
  exact hm.trans (Nat.div_mul_cancel h)

theorem mapLoop_done {T : Type} {I : ℕ}
  {b : Pmle T → ℕ → ℕ → ℕ → List ℕ → Except Fault (Pmle T × List ℕ)} (r : ℕ)
  (t : Fin 512 → Pmle T) {vs ve p : ℕ} (fs : List ℕ) (h : ¬ vs < ve) :
  mapLoop I b r t vs ve p fs = .ok (t, fs) := by
  cases r <;> simp only [mapLoop, if_neg h]

theorem getPhys_addressOf (p : ℕ) : getPhys (addressOf p) = p / pageSize % 2 ^ 40 * pageSize := by
  simp only [getPhys, addressOf, BitVec.toNat_ofNat, Nat.shiftLeft_eq, Nat.shiftRight_eq_div_pow]
  rfl

theorem getPhys_lt (a : BitVec 40) : getPhys a < 2 ^ 52 := by
  have := a.isLt
  simp only [getPhys, Nat.shiftLeft_eq]
  omega

theorem getPhys_injective : Function.Injective getPhys := by
  intro a b h
  simp only [getPhys, Nat.shiftLeft_eq] at h
  exact BitVec.eq_of_toNat_eq (by omega)

theorem getPhys_addressOf_of_lt {p : ℕ} (hp : p < 2 ^ 52) (h : pageSize ∣ p) :
  getPhys (addressOf p) = p := by
  rw [getPhys_addressOf, Nat.mod_eq_of_lt, Nat.div_mul_cancel h]
  simp only [pageSize]
  omega

section Range

variable {t : Pmlt 4} {start stop phys : ℕ}

theorem canonical_block (hlt : start < stop) (hh : CanonicalHalf start stop) :
  (stop - 1) / entrySize 5 = start / entrySize 5 := by
  have hE : entrySize 5 = 2 ^ 48 := by decide
  rw [hE]
  rcases hh with h | h <;> omega

theorem block_of_mem {v : ℕ} (hh : CanonicalHalf start stop) (hv : start ≤ v) (hv' : v < stop) :
  v / entrySize 5 = start / entrySize 5 :=
  div_eq_of_between rfl (canonical_block (by omega) hh) hv hv'

theorem size_eq (hle : start ≤ stop) (hh : CanonicalHalf start stop) :
  (stop % 2 ^ 64 + (2 ^ 64 - start)) % 2 ^ 64 = stop - start := by
  rcases hh with h | h <;> omega

theorem rounded_stop (h : start < stop) (hb : pageSize ∣ stop) :
  andNot ((start + (stop - start) + pageSize - 1) % 2 ^ 64) (pageSize - 1) = stop % 2 ^ 64 := by
  rw [show start + (stop - start) + pageSize - 1 = stop + (pageSize - 1) by
    simp only [pageSize]; omega]
  refine (andNot_low_bits (Nat.mod_lt _ (by decide)) (by decide : 12 ≤ 64)).trans ?_
  obtain ⟨x, rfl⟩ := hb
  simp only [pageSize] at *
  omega

theorem mapRange_eq_vmMap (bs : UserBits) (hl : start < stop) (hh : CanonicalHalf start stop)
  (ha : pageSize ∣ start) (hb : pageSize ∣ stop) (hp : phys < 2 ^ 64) (hpa : pageSize ∣ phys)
  (frames : List ℕ) : mapRange bs 1 pageSize t start (stop - start) phys frames =
  vmMap bs 1 4 t start (stop % 2 ^ 64) phys frames := by
  have hs : stop ≤ 2 ^ 64 := by rcases hh with h | h <;> omega
  simp only [mapRange]
  rw [if_neg (by omega), andNot_page (by omega) ha, andNot_page hp hpa, rounded_stop hl hb]

theorem mapRange_roundedPhys (bs : UserBits) (vi z : ℕ) (hp : phys < 2 ^ 64)
  (frames : List ℕ) : mapRange bs 1 pageSize t vi z phys frames =
  mapRange bs 1 pageSize t vi z (phys / pageSize * pageSize) frames := by
  have hd : andNot phys (pageSize - 1) = phys / pageSize * pageSize :=
    andNot_low_bits hp (by decide : 12 ≤ 64)
  have hr := andNot_page ((Nat.div_mul_le_self phys pageSize).trans_lt hp)
    (dvd_mul_left pageSize (phys / pageSize))
  simp only [mapRange, hd, hr]

theorem congruent_of_kept {v : ℕ} (hv : start ≤ v) (hs : v < stop)
  (h : ∀ I, 2 ≤ I → I ≤ 4 → start / entrySize I ≠ (stop - 1) / entrySize I →
  start % entrySize I = phys % entrySize I) : Congruent 4 start v phys := by
  intro J h₂ h₄ hne
  have hl := Nat.div_le_div_right (c := entrySize J) hv
  have hu : v / entrySize J ≤ (stop - 1) / entrySize J := Nat.div_le_div_right (by omega)
  exact h J h₂ h₄ (by omega)

theorem last_page_div {I : ℕ} (hb : pageSize ∣ stop) (hl : 0 < stop) :
  (stop - pageSize) / entrySize (I + 1) = (stop - 1) / entrySize (I + 1) := by
  obtain ⟨m, hm⟩ := pageSize_dvd_entrySize I
  obtain ⟨x, rfl⟩ := hb
  have hx := Nat.pos_of_mul_pos_left hl
  rw [hm, ← Nat.div_div_eq_div_mul, ← Nat.div_div_eq_div_mul]
  have h : (pageSize * x - pageSize) / pageSize = (pageSize * x - 1) / pageSize := by
    simp only [pageSize]
    omega
  rw [h]

theorem page_exact_iff {v : ℕ} (ha : pageSize ∣ start) (hpa : pageSize ∣ phys) (hv : pageSize ∣ v)
  (hdi : v / entrySize 5 = start / entrySize 5) (hle : start ≤ v)
  (hl : vmVirtToPhys 4 t v = .ok (getPhys (addressOf (physAt 4 start phys v)))) :
  vmVirtToPhys 4 t v = .ok (phys + (v - start)) ↔
  phys + (v - start) < 2 ^ 52 ∧ Congruent 4 start v phys := by
  rw [hl, Except.ok.injEq]
  constructor
  · intro he
    have hb : phys + (v - start) < 2 ^ 52 := he ▸ getPhys_lt _
    obtain ⟨⟨x, hx⟩, hup, hd⟩ := physAt_near le_rfl ha hpa hdi hv hle hb.le
    refine ⟨hb, (physAt_exact_iff le_rfl ha hpa hdi hv hle hb.le).mp ?_⟩
    rw [getPhys_addressOf] at he
    simp only [pageSize] at *
    omega
  · rintro ⟨hb, hc⟩
    have hx := (physAt_exact_iff le_rfl ha hpa hdi hv hle hb.le).mpr hc
    rw [hx, getPhys_addressOf_of_lt hb (Nat.dvd_add hpa (Nat.dvd_sub hv ha))]

theorem mapRange_offsets_of_lt (bs : UserBits) (hlt : start < stop)
  (hh : CanonicalHalf start stop) (ha : pageSize ∣ start) (hb : pageSize ∣ stop)
  (hp : phys < 2 ^ 64) (hpa : pageSize ∣ phys) (hv : Vacant (vmVirtToPhys 4 t) start stop)
  (fs : List ℕ) (hf : 3 * ((stop - start) / pageSize) ≤ fs.length) :
  ∃ t' xs, mapRange bs 1 pageSize t start (stop - start) phys fs = .ok (t', xs) ∧
  (OffsetExact t' start stop phys ↔ OffsetsKept start stop phys) := by
  rw [mapRange_eq_vmMap bs hlt hh ha hb hp hpa]
  have hs : stop ≤ 2 ^ 64 := by rcases hh with h | h <;> omega
  rcases eq_or_lt_of_le hs with ht | hbe
  · -- The end of the address space is the 64-bit zero, so nothing is mapped.
    rw [ht, Nat.mod_self]
    refine ⟨t, fs, mapLoop_done _ t fs (Nat.not_lt_zero start), ?_⟩
    constructor
    · intro h
      have h₀ := h 0 (by omega)
      rw [zero_mul, add_zero, hv start le_rfl (by omega)] at h₀
      cases h₀
    · exact fun h ↦ absurd (h (by omega)).1 (lt_irrefl _)
  · rw [Nat.mod_eq_of_lt hbe]
    obtain ⟨t', xs, hca, -, hl⟩ := vmMap_spec bs 3 le_rfl t start stop phys hlt
      hbe ha hb (canonical_block hlt hh) hv fs hf
    refine ⟨t', xs, hca, ?_⟩
    have hpg (k : ℕ) (hk : start + k * pageSize < stop) :
      vmVirtToPhys 4 t' (start + k * pageSize) = .ok (phys + k * pageSize) ↔
      phys + k * pageSize < 2 ^ 52 ∧ Congruent 4 start (start + k * pageSize) phys := by
      have hd := block_of_mem hh (Nat.le_add_right start (k * pageSize)) hk
      have hk' := page_exact_iff ha hpa (Nat.dvd_add ha (Dvd.intro_left k rfl)) hd
        (Nat.le_add_right _ _) (by rw [hl _ hd, if_pos ⟨Nat.le_add_right _ _, hk⟩])
      rwa [Nat.add_sub_cancel_left] at hk'
    obtain ⟨x, rfl⟩ := ha
    obtain ⟨y, rfl⟩ := hb
    constructor
    · intro h
      have hla : pageSize * x + (y - x - 1) * pageSize = pageSize * y - pageSize := by
        simp only [pageSize] at *
        omega
      obtain ⟨hbo, hc⟩ := (hpg (y - x - 1) (by simp only [pageSize] at *; omega)).mp
        (h _ (by simp only [pageSize] at *; omega))
      obtain ⟨z, rfl⟩ := hpa
      refine fun _ ↦ ⟨hbe, by simp only [pageSize] at *; omega, fun I h₂ h₄ hne ↦ ?_⟩
      obtain ⟨J, rfl⟩ : ∃ J, I = J + 1 := ⟨I - 1, by omega⟩
      apply hc (J + 1) h₂ h₄
      rw [hla, last_page_div (Dvd.intro _ rfl) (by omega)]
      exact Ne.symm hne
    · intro hke k hk
      obtain ⟨-, hbo, hc⟩ := hke hlt
      refine (hpg k hk).mpr ⟨?_, congruent_of_kept (Nat.le_add_right _ _) hk hc⟩
      simp only [pageSize] at *
      omega

theorem mapRange_offsets (bs : UserBits) (hl : start ≤ stop) (hh : CanonicalHalf start stop)
  (ha : pageSize ∣ start) (hb : pageSize ∣ stop) (hp : phys < 2 ^ 64) (hpa : pageSize ∣ phys)
  (hv : Vacant (vmVirtToPhys 4 t) start stop) (fs : List ℕ)
  (hf : 3 * ((stop - start) / pageSize) ≤ fs.length) :
  ∃ t' xs, mapRange bs 1 pageSize t start (stop - start) phys fs = .ok (t', xs) ∧
  (OffsetExact t' start stop phys ↔ OffsetsKept start stop phys) := by
  rcases eq_or_lt_of_le hl with rfl | hlt
  · refine ⟨t, fs, by simp only [mapRange, Nat.sub_self, if_true], ?_⟩
    exact ⟨fun _ h ↦ absurd h (lt_irrefl _), fun _ k hk ↦ by omega⟩
  · exact mapRange_offsets_of_lt bs hlt hh ha hb hp hpa hv fs hf

end Range

theorem map_offsets_exact_iff (t : Pmlt 4) (start stop phys : ℕ) (flags : Kernel.Vm.Flags)
    (frames : List ℕ) (hle : start ≤ stop) (hhalf : CanonicalHalf start stop)
    (ha : pageSize ∣ start) (hb : pageSize ∣ stop) (hp : phys < 2 ^ 64) (hpa : pageSize ∣ phys)
    (hvac : ∀ v, start ≤ v → v < stop → vmVirtToPhys 4 t v = .error (.unmapped v))
    (hframes : 3 * ((stop - start) / pageSize) ≤ frames.length) : (∃ t' rest,
      Kernel.Vm.mapPhysical t start (stop % 2 ^ 64) phys flags frames = .ok (t', rest) ∧
      (OffsetExact t' start stop phys ↔ OffsetsKept start stop phys)) ∧
    (∃ t' rest, Loader.vmMap t phys (stop - start) start frames = .ok (t', rest) ∧
      (OffsetExact t' start stop phys ↔ OffsetsKept start stop phys)) := by
  refine ⟨?_, mapRange_offsets _ hle hhalf ha hb hp hpa hvac frames hframes⟩
  simp only [Kernel.Vm.mapPhysical, size_eq hle hhalf]
  exact mapRange_offsets _ hle hhalf ha hb hp hpa hvac frames hframes

theorem map_offsets_exact_two_pages : (∃ t' rest,
  Kernel.Vm.mapPhysical (fun _ ↦ .absent false) 0x1ff000 (0x201000 % 2 ^ 64) 0x5000 {}
  [0, 1, 2, 3, 4, 5] = .ok (t', rest) ∧
  (OffsetExact t' 0x1ff000 0x201000 0x5000 ↔ OffsetsKept 0x1ff000 0x201000 0x5000)) ∧
  (∃ t' rest, Loader.vmMap (fun _ ↦ .absent false) 0x5000 (0x201000 - 0x1ff000) 0x1ff000
  [0, 1, 2, 3, 4, 5] = .ok (t', rest) ∧
  (OffsetExact t' 0x1ff000 0x201000 0x5000 ↔ OffsetsKept 0x1ff000 0x201000 0x5000)) :=
  map_offsets_exact_iff (fun _ ↦ .absent false) 0x1ff000 0x201000 0x5000 {} [0, 1, 2, 3, 4, 5]
    (by decide) (Or.inl (by decide)) (by decide) (by decide) (by decide) (by decide)
    (fun _ _ _ ↦ rfl) (by decide)

theorem map_offsets_not_exact : CanonicalHalf 0x1ff000 0x201000 ∧
    (∀ v, 0x1ff000 ≤ v → v < 0x201000 →
      vmVirtToPhys 4 (fun _ ↦ .absent false) v = .error (.unmapped v)) ∧
    (∃ t' rest,
      Kernel.Vm.mapPhysical (fun _ ↦ .absent false) 0x1ff000 0x201000 0 {} [1, 2, 3, 4, 5, 6] =
        .ok (t', rest) ∧
      vmVirtToPhys 4 t' 0x200000 = .ok 0x200000 ∧ ¬ OffsetExact t' 0x1ff000 0x201000 0) := by
  refine ⟨Or.inl (by decide), fun _ _ _ ↦ rfl, _, _, rfl, by decide, fun h ↦ ?_⟩
  have h₁ := h 1 (by decide)
  revert h₁
  decide

end ReaverOS.Paging
