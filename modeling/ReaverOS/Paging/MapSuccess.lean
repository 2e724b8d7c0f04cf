import Mathlib.Algebra.BigOperators.Fin
import ReaverOS.Foundation.Fallible
import ReaverOS.Paging.EntryRounds

namespace ReaverOS.Paging

open Foundation.Fallible

section Effects

section Loop

variable {T : Type} {I : ℕ}
  {body : Pmle T → ℕ → ℕ → ℕ → List ℕ → Except Fault (Pmle T × List ℕ)}

def LoopEffect (I : ℕ) (body : Pmle T → ℕ → ℕ → ℕ → List ℕ → Except Fault (Pmle T × List ℕ))
  (vs ve : ℕ) (j : Fin 512) (e e' : Pmle T) : Prop :=
  (e' = e ∧ ∀ x, vs ≤ x → x < ve → tableIndex I x ≠ j) ∨
  ∃ a b p frames frames', body e a b p frames = .ok (e', frames') ∧ vs ≤ a ∧ a < b ∧ b ≤ ve ∧
    tableIndex I a = j ∧ ∀ x, vs ≤ x → x < ve → tableIndex I x = j → a ≤ x ∧ x < b

theorem LoopEffect.extend {vs m ve : ℕ} {j : Fin 512} {e e' : Pmle T}
  (h : LoopEffect I body m ve j e e') (hl : vs ≤ m)
  (ho : ∀ x, vs ≤ x → x < m → tableIndex I x ≠ j) : LoopEffect I body vs ve j e e' := by
  rcases h with ⟨heq, hn⟩ | ⟨a, b, p, frames, frames', hbo, ha, hab, hb, hj, hal⟩
  · refine .inl ⟨heq, fun x hx hx' ↦ ?_⟩
    rcases lt_or_ge x m with hxm | hxm
    · exact ho x hx hxm
    · exact hn x hxm hx'
  · refine .inr ⟨a, b, p, frames, frames', hbo, hl.trans ha, hab, hb, hj, fun x hx hx' hxj ↦ ?_⟩
    refine hal x ?_ hx' hxj
    by_contra hlt
    exact ho x hx (by omega) hxj

theorem mapLoop_effect (hI : I ≤ 4) (r : ℕ) (t t' : Fin 512 → Pmle T) (vs ve p : ℕ)
  (fs fs' : List ℕ) (hve : ve < 2 ^ 64) (hd : vs < ve → vs / entrySize I % 512 + r = 512)
  (h : mapLoop I body r t vs ve p fs = .ok (t', fs')) (j : Fin 512) :
  LoopEffect I body vs ve j (t j) (t' j) ∧
  ((j : ℕ) + r < 512 → t' j = t j ∧ ∀ x, vs ≤ x → x < ve → tableIndex I x ≠ j) := by
  induction r generalizing t vs p fs with
  | zero =>
    rw [mapLoop] at h
    split at h
    next => cases h
    next hend =>
      cases h
      have hn : ∀ x, vs ≤ x → x < ve → tableIndex I x ≠ j := fun x hx hx' ↦ by omega
      exact ⟨.inl ⟨rfl, hn⟩, fun _ ↦ ⟨rfl, hn⟩⟩
  | succ r ih =>
    by_cases hlt : vs < ve
    · have hv := tableIndex_val I
      have hi := hd hlt
      have hr := round_entryVirtEnd hI hlt hve
      obtain ⟨index, hiv, hs⟩ : ∃ index : Fin 512, _ ∧
        mapLoop I body (r + 1) t vs ve p fs = _ := mapLoop_step r p t fs hlt
      rw [hs] at h
      obtain ⟨⟨e, f⟩, hb, hre⟩ := bind_eq_ok h
      generalize entryVirtEnd I vs ve = m at *
      have hlt' := hr.lt
      have hle := hr.le
      have hin : ∀ x, vs ≤ x → x < m → tableIndex I x = index := by
        intro x hx hx'
        refine Fin.ext ?_
        rw [hv, hr.inside x hx hx', hiv]
        omega
      obtain ⟨he, hk⟩ := ih (Function.update t index e) m (nextPhys I p) f (fun hm ↦ by
          cases r with
          | zero =>
            rw [mapLoop, if_pos hm] at hre
            cases hre
          | succ r =>
            rw [hr.next hm]
            omega) hre
      by_cases hj : j = index
      · subst hj
        obtain ⟨hq, hn⟩ := hk (by omega)
        rw [Function.update_self] at hq
        refine ⟨.inr ⟨vs, m, p, fs, f, hq ▸ hb, le_rfl, by omega, by omega,
          hin vs le_rfl (by omega), fun x hx hx' hxj ↦ ⟨hx, ?_⟩⟩, fun hl ↦ by omega⟩
        by_contra hge
        exact hn x (by omega) hx' hxj
      · rw [Function.update_of_ne hj] at he hk
        have ho : ∀ x, vs ≤ x → x < m → tableIndex I x ≠ j := fun x hx hx' hxj ↦
          hj (hxj.symm.trans (hin x hx hx'))
        refine ⟨he.extend (by omega) ho, fun hl ↦ ?_⟩
        obtain ⟨hq, hn⟩ := hk (by omega)
        refine ⟨hq, fun x hx hx' ↦ ?_⟩
        rcases lt_or_ge x m with hxm | hxm
        · exact ho x hx hxm
        · exact hn x hxm hx'
    · rw [mapLoop, if_neg hlt] at h
      cases h
      have hn : ∀ x, vs ≤ x → x < ve → tableIndex I x ≠ j := fun x hx hx' ↦ by omega
      exact ⟨.inl ⟨rfl, hn⟩, fun _ ↦ ⟨rfl, hn⟩⟩

end Loop

structure Mapped {A : Type} (look : A → ℕ → Except Fault ℕ) (t t' : A) (vs ve : ℕ) : Prop where
  vacant : ∀ x, vs ≤ x → x < ve → look t x = .error (.unmapped x)
  mapped : ∀ x, vs ≤ x → x < ve → ∃ phys, look t' x = .ok phys
  kept : ∀ x phys, look t x = .ok phys → look t' x = .ok phys

variable {bits : UserBits} {I : ℕ}

variable {p : ℕ} {frames frames' : List ℕ}

theorem mapPage_mapped {e e' : Pmle (Pmlt I)} {l a b : ℕ}
  (h : mapPage bits l e a p frames = .ok (e', frames')) : Mapped (lookup I) e e' a b := by
  cases e with
  | absent u =>
    cases h
    exact ⟨fun _ _ _ ↦ rfl, fun _ _ _ ↦ ⟨_, rfl⟩, fun _ _ hl ↦ nomatch hl⟩
  | table u ad nx => cases h
  | page u ad => cases h

theorem mapTable_mapped
  {d : Pmlt (I + 1) → ℕ → ℕ → ℕ → List ℕ → Except Fault (Pmlt (I + 1) × List ℕ)}
  {e e' : Pmle (Pmlt (I + 1))} {a b : ℕ}
  (hd : ∀ t t' frames frames', d t a b p frames = .ok (t', frames') →
  Mapped (vmVirtToPhys (I + 1)) t t' a b) (h : mapTable bits d e a b p frames = .ok (e', frames')) :
  Mapped (lookup (I + 1)) e e' a b := by
  cases e with
  | absent u =>
    cases frames with
    | nil => cases h
    | cons f frames =>
      rw [mapTable] at h
      obtain ⟨t, -, h⟩ := bind_eq_ok h
      obtain ⟨⟨t', xs⟩, hc, ho⟩ := bind_eq_ok h
      cases ho
      have hne := hd _ _ _ _ hc
      refine ⟨fun _ _ _ ↦ rfl, hne.mapped, fun _ _ hl ↦ ?_⟩
      cases hl
  | table u ad nx =>
    rw [mapTable] at h
    obtain ⟨⟨t', xs⟩, hc, ho⟩ := bind_eq_ok h
    cases ho
    have hn := hd _ _ _ _ hc
    exact ⟨hn.vacant, hn.mapped, hn.kept⟩
  | page u ad => cases h

variable {t t' : Pmlt (I + 1)} {vs ve : ℕ}

theorem Mapped.of_effect
  {bd : Pmle (Pmlt I) → ℕ → ℕ → ℕ → List ℕ → Except Fault (Pmle (Pmlt I) × List ℕ)}
  (hve : ve < 2 ^ 64)
  (hbo : ∀ e e' a b p frames frames', b < 2 ^ 64 → bd e a b p frames = .ok (e', frames') →
  Mapped (lookup I) e e' a b) (h : ∀ j, LoopEffect (I + 1) bd vs ve j (t j) (t' j)) :
  Mapped (vmVirtToPhys (I + 1)) t t' vs ve := by
  have hi (x : ℕ) (hx : vs ≤ x) (hx' : x < ve) : ∃ a b, a ≤ x ∧ x < b ∧
    Mapped (lookup I) (t (tableIndex (I + 1) x)) (t' (tableIndex (I + 1) x)) a b := by
    rcases h (tableIndex (I + 1) x) with ⟨-, hn⟩ | ⟨a, b, p, fs, fs', hok, -, -, hb, -, hal⟩
    · exact absurd rfl (hn x hx hx')
    · obtain ⟨hax, hxb⟩ := hal x hx hx' rfl
      exact ⟨a, b, hax, hxb, hbo _ _ _ _ _ _ _ (by omega) hok⟩
  refine ⟨fun x hx hx' ↦ ?_, fun x hx hx' ↦ ?_, fun x ps hl ↦ ?_⟩
  · obtain ⟨a, b, ha, hb, hm⟩ := hi x hx hx'
    exact hm.vacant x ha hb
  · obtain ⟨a, b, ha, hb, hm⟩ := hi x hx hx'
    exact hm.mapped x ha hb
  · rw [vmVirtToPhys_succ] at hl ⊢
    rcases h (tableIndex (I + 1) x) with ⟨heq, -⟩ | ⟨a, b, p, fs, fs', hok, -, -, hb, -, -⟩
    · rwa [heq]
    · exact (hbo _ _ _ _ _ _ _ (by omega) hok).kept x ps hl

theorem vmMap_effect {l : ℕ} (hI : I + 1 ≤ 4) (hv : ve < 2 ^ 64)
  (h : vmMap bits l (I + 1) t vs ve p frames = .ok (t', frames')) (j : Fin 512) :
  LoopEffect (I + 1) (fun e a b p fs ↦ if I + 1 = l then mapPage bits (I + 1) e a p fs
  else mapTable bits (vmMap bits l I) e a b p fs) vs ve j (t j) (t' j) :=
  (mapLoop_effect hI _ t t' vs ve p frames frames' hv (fun _ ↦ index_add_room (I + 1) vs) h j).1

theorem vmMap_mapped (hI : I + 1 ≤ 4) (hv : ve < 2 ^ 64)
  (h : vmMap bits 1 (I + 1) t vs ve p frames = .ok (t', frames')) :
  Mapped (vmVirtToPhys (I + 1)) t t' vs ve := by
  induction I generalizing vs ve p frames frames' with
  | zero =>
    refine .of_effect hv (fun e e' a b p fs fs' _ ho ↦ ?_) (vmMap_effect hI hv h)
    rw [if_pos rfl] at ho
    exact mapPage_mapped ho
  | succ I ih =>
    refine .of_effect hv (fun e e' a b p fs fs' hb ho ↦ ?_) (vmMap_effect hI hv h)
    rw [if_neg (by omega)] at ho
    exact mapTable_mapped (fun t t' fs fs' hc ↦ ih (by omega) hb hc) ho

end Effects

section Lookup

structure Leaf where
  level : ℕ
  user : Bool
  address : BitVec 40
  deriving DecidableEq

def leaf : (I : ℕ) → Pmlt I → ℕ → Option Leaf
  | 0, t, _ => nomatch t
  | I + 1, t, virt =>
    match t (tableIndex (I + 1) virt) with
    | .absent _ => none
    | .page user address => some ⟨I + 1, user, address⟩
    | .table _ _ next => leaf I next virt

def tableAt (J : ℕ) : (I : ℕ) → Pmlt I → ℕ → Option (BitVec 40)
  | 0, t, _ => nomatch t
  | I + 1, t, virt =>
    match t (tableIndex (I + 1) virt) with
    | .absent _ => none
    | .page _ _ => none
    | .table _ address next => if J = I then some address else tableAt J I next virt

def entryFrames {T : Type} (below : T → Multiset (BitVec 40)) : Pmle T → Multiset (BitVec 40)
  | .absent _ => 0
  | .page _ _ => 0
  | .table _ address next => address ::ₘ below next

def tableFrames : (I : ℕ) → Pmlt I → Multiset (BitVec 40)
  | 0, _ => 0
  | I + 1, t => ∑ i : Fin 512, entryFrames (tableFrames I) (t i)

theorem tableAt_of_table {J I x : ℕ} {t : Pmlt (I + 1)} {u : Bool} {ad : BitVec 40}
  {nx : Pmlt I} (h : t (tableIndex (I + 1) x) = .table u ad nx) :
  tableAt J (I + 1) t x = if J = I then some ad else tableAt J I nx x := by
  rw [tableAt, h]

section Congr

variable {I J x y : ℕ} (h : ∀ K, 1 ≤ K → K ≤ I → tableIndex K x = tableIndex K y)
include h

theorem leaf_congr (t : Pmlt I) : leaf I t x = leaf I t y := by
  induction I with
  | zero => exact nomatch t
  | succ I ih =>
    rw [leaf, leaf, h (I + 1) (by omega) le_rfl]
    cases t (tableIndex (I + 1) y) with
    | absent u => rfl
    | page u ad => rfl
    | table u ad nx => exact ih (fun K hK hK' ↦ h K hK (by omega)) nx

theorem tableAt_congr (t : Pmlt I) : tableAt J I t x = tableAt J I t y := by
  induction I with
  | zero => exact nomatch t
  | succ I ih =>
    rw [tableAt, tableAt, h (I + 1) (by omega) le_rfl]
    cases t (tableIndex (I + 1) y) with
    | absent u => rfl
    | page u ad => rfl
    | table u ad nx =>
      dsimp only
      rw [ih (fun K hK hK' ↦ h K hK (by omega)) nx]

end Congr

theorem vmVirtToPhys_eq_leaf (I : ℕ) (t : Pmlt I) (x : ℕ) : vmVirtToPhys I t x =
  (leaf I t x).elim (.error (.unmapped x)) fun l ↦ .ok (getPhys l.address) := by
  induction I with
  | zero => exact nomatch t
  | succ I ih =>
    rw [vmVirtToPhys, leaf]
    cases t (tableIndex (I + 1) x) with
    | absent u => rfl
    | page u ad => rfl
    | table u ad nx => exact ih nx

theorem leaf_eq_none_iff (I : ℕ) (t : Pmlt I) (x : ℕ) :
  leaf I t x = none ↔ vmVirtToPhys I t x = .error (.unmapped x) := by
  rw [vmVirtToPhys_eq_leaf]
  cases leaf I t x with
  | none => exact iff_of_true rfl rfl
  | some l => exact iff_of_false nofun nofun

def EntryEffect {T : Type} (E : ℕ) (treated : Pmle T → ℕ → ℕ → Pmle T → Prop) (vs ve x : ℕ)
  (e e' : Pmle T) : Prop :=
  (e' = e ∧ ∀ y, vs ≤ y → y < ve → y / E ≠ x / E) ∨
  ∃ a b, treated e a b e' ∧ a < b ∧ b ≤ ve ∧ a / E = x / E ∧ (b - 1) / E = x / E ∧
    ∀ y, y / E = x / E → (vs ≤ y ∧ y < ve ↔ a ≤ y ∧ y < b)

section Loop

variable {T : Type} {I : ℕ} {treated : Pmle T → ℕ → ℕ → Pmle T → Prop}

theorem EntryEffect.cons {E vs ve m x c : ℕ} {index : Fin 512} {t t' : Fin 512 → Pmle T}
  {e : Pmle T} (hr : Round E vs ve m) (hi : (index : ℕ) = vs / E % 512)
  (hvs : vs / E / 512 = c) (hx : x / E / 512 = c) {j : Fin 512} (hj : (j : ℕ) = x / E % 512)
  (hf : treated (t index) vs m e)
  (hre : EntryEffect E treated m ve x (Function.update t index e j) (t' j)) :
  EntryEffect E treated vs ve x (t j) (t' j) := by
  have hlt := hr.lt
  have hle := hr.le
  by_cases heq : x / E = vs / E
  · have hid : j = index := Fin.ext (by omega)
    subst hid
    rw [Function.update_self] at hre
    obtain ⟨hs, -⟩ | ⟨a, b, -, hab, hb, ha, -, hin⟩ := hre
    · refine .inr ⟨vs, m, hs ▸ hf, hlt, hle, heq.symm, ?_, fun y hy ↦ ?_⟩
      · exact (hr.inside (m - 1) (by omega) (by omega)).trans heq.symm
      · exact hr.mem_first (hy.trans heq)
    · have hin' := (hin a ha).mpr ⟨le_rfl, hab⟩
      exact absurd (ha.trans heq) (hr.beyond a hin'.1 hin'.2)
  · have hid : j ≠ index := by
      intro h
      have := congrArg Fin.val h
      omega
    rw [Function.update_of_ne hid] at hre
    have ho (y : ℕ) (hy : y / E = x / E) : vs ≤ y ∧ y < ve ↔ m ≤ y ∧ y < ve :=
      hr.mem_rest (hy ▸ heq)
    obtain ⟨hs, hn⟩ | ⟨a, b, ht, hab, hb, ha, hb', hin⟩ := hre
    · refine .inl ⟨hs, fun y hy hy' hyx ↦ ?_⟩
      obtain ⟨hm, hv⟩ := (ho y hyx).mp ⟨hy, hy'⟩
      exact hn y hm hv hyx
    · exact .inr ⟨a, b, ht, hab, hb, ha, hb', fun y hy ↦ (ho y hy).trans (hin y hy)⟩

theorem EntryEffect.refl {E vs ve x : ℕ} (e : Pmle T) (h : ¬ vs < ve) :
  EntryEffect E treated vs ve x e e :=
  .inl ⟨rfl, fun _ _ _ ↦ by omega⟩

end Loop

end Lookup

section Leaves

variable {bits : UserBits} {I : ℕ}

def Treated (bits : UserBits) (I : ℕ) (e : Pmle (Pmlt I)) (a b : ℕ) (e' : Pmle (Pmlt I)) : Prop :=
  pageSize ∣ a ∧ pageSize ∣ b ∧ ∃ p frames frames',
    (if I + 1 = 1 then mapPage bits (I + 1) e a p frames
      else mapTable bits (vmMap bits 1 I) e a b p frames) = .ok (e', frames')

theorem mapLoop_at {T : Type} {tr : Pmle T → ℕ → ℕ → Pmle T → Prop}
  {bd : Pmle T → ℕ → ℕ → ℕ → List ℕ → Except Fault (Pmle T × List ℕ)} (hI : I + 1 ≤ 4)
  (hbo : ∀ e a b p fs e' fs', pageSize ∣ a → pageSize ∣ b →
  bd e a b p fs = .ok (e', fs') → tr e a b e')
  (r : ℕ) {t t' : Fin 512 → Pmle T} {vs ve p c : ℕ} {fs fs' : List ℕ}
  (hv : ve < 2 ^ 64) (ha : pageSize ∣ vs) (hb : pageSize ∣ ve)
  (hi : vs < ve → vs / entrySize (I + 1) % 512 + r = 512)
  (hbl : vs < ve → vs / entrySize (I + 1) / 512 = c ∧ (ve - 1) / entrySize (I + 1) / 512 = c)
  (h : mapLoop (I + 1) bd r t vs ve p fs = .ok (t', fs')) {x : ℕ}
  (hx : x / entrySize (I + 1) / 512 = c) :
  EntryEffect (entrySize (I + 1)) tr vs ve x (t (tableIndex (I + 1) x))
  (t' (tableIndex (I + 1) x)) := by
  induction r generalizing t vs p fs with
  | zero =>
    rw [mapLoop] at h
    split at h
    next => cases h
    next hend =>
      cases h
      exact .refl _ hend
  | succ r ih =>
    by_cases hlt : vs < ve
    · have hr := round_entryVirtEnd hI hlt hv
      have hro := hi hlt
      obtain ⟨hvs, hv'⟩ := hbl hlt
      obtain ⟨i, hiv, hs⟩ : ∃ i : Fin 512, _ ∧
        mapLoop (I + 1) bd (r + 1) t vs ve p fs = _ := mapLoop_step r p t fs hlt
      rw [hs] at h
      obtain ⟨⟨e, f⟩, hf, hre⟩ := bind_eq_ok h
      have hm := hr.aligned (pageSize_dvd_entrySize I) hb
      generalize entryVirtEnd (I + 1) vs ve = m at *
      refine EntryEffect.cons hr (by omega) hvs hx (tableIndex_val (I + 1) x)
        (hbo _ _ _ _ _ _ _ ha hm hf) (ih hm (fun h ↦ ?_) (fun h ↦ ?_) hre)
      · exact (hr.index h hro hvs hv').1
      · exact ⟨(hr.index h hro hvs hv').2, hv'⟩
    · rw [mapLoop, if_neg hlt] at h
      cases h
      exact .refl _ hlt

variable {t t' : Pmlt (I + 1)} {vs ve p x : ℕ} {frames frames' : List ℕ}

theorem mapPage_ok {T : Type} {e e' : Pmle T} {l a : ℕ}
  (h : mapPage bits l e a p frames = .ok (e', frames')) :
  ∃ u, e = .absent u ∧ e' = .page (bits.leaf u) (addressOf p) ∧ frames' = frames := by
  cases e with
  | absent u =>
    cases h
    exact ⟨u, rfl, rfl, rfl⟩
  | table u ad nx => cases h
  | page u ad => cases h

theorem mapTable_ok {d : Pmlt (I + 1) → ℕ → ℕ → ℕ → List ℕ → Except Fault (Pmlt (I + 1) × List ℕ)}
  {e e' : Pmle (Pmlt (I + 1))} {a b : ℕ} (h : mapTable bits d e a b p frames = .ok (e', frames')) :
  ∃ u ad t₀ t₁ f, d t₀ a b p f = .ok (t₁, frames') ∧
  e' = .table (bits.table u) ad t₁ ∧ (e = .table u ad t₀ ∧ f = frames ∨
  e = .absent u ∧ (t₀ = fun _ ↦ .absent false) ∧ ∃ g, ad = addressOf g ∧ frames = g :: f) := by
  cases e with
  | absent u =>
    cases frames with
    | nil => cases h
    | cons g frames =>
      rw [mapTable] at h
      obtain ⟨t₀, hn, h⟩ := bind_eq_ok h
      obtain ⟨⟨t₁, xs⟩, hc, ho⟩ := bind_eq_ok h
      cases ho
      cases hn
      exact ⟨u, _, _, t₁, frames, hc, rfl, .inr ⟨rfl, rfl, g, rfl, rfl⟩⟩
  | table u ad nx =>
    rw [mapTable] at h
    obtain ⟨⟨t₁, xs⟩, hc, ho⟩ := bind_eq_ok h
    cases ho
    exact ⟨u, ad, nx, t₁, frames, hc, rfl, .inl ⟨rfl, rfl⟩⟩
  | page u ad => cases h

theorem mem_of_page {a b : ℕ} (ha : pageSize ∣ a) (hb : pageSize ∣ b) (hab : a < b)
  (hx : a / entrySize 1 = x / entrySize 1) : a ≤ x ∧ x < b := by
  obtain ⟨k, rfl⟩ := ha
  obtain ⟨m, rfl⟩ := hb
  rw [show entrySize 1 = pageSize by decide] at hx
  simp only [pageSize] at *
  omega

theorem div_entrySize_of_le {J K y : ℕ} (hj : J ≤ K) (h : y / entrySize J = x / entrySize J) :
  y / entrySize K = x / entrySize K := by
  obtain ⟨m, hm⟩ := entrySize_dvd hj
  rw [hm, ← Nat.div_div_eq_div_mul, ← Nat.div_div_eq_div_mul, h]

theorem tableAt_newTable (I J x : ℕ) :
  tableAt J (I + 1) (fun _ ↦ .absent false : Pmlt (I + 1)) x = none := rfl

section Walk

variable (hI : I + 1 ≤ 4) (hv : ve < 2 ^ 64) (ha : pageSize ∣ vs) (hb : pageSize ∣ ve)
  (hbl : vs < ve → (ve - 1) / entrySize (I + 2) = vs / entrySize (I + 2))
  (h : vmMap bits 1 (I + 1) t vs ve p frames = .ok (t', frames'))
  (hx : x / entrySize (I + 2) = vs / entrySize (I + 2))

include hI hv ha hb hbl h hx

theorem vmMap_at :
  EntryEffect (entrySize (I + 1)) (Treated bits I) vs ve x (t (tableIndex (I + 1) x))
  (t' (tableIndex (I + 1) x)) := by
  refine mapLoop_at hI (fun e a b p fs e' fs' ha hb ho ↦ ⟨ha, hb, p, fs, fs', ho⟩) _ hv ha hb
    (fun _ ↦ index_add_room (I + 1) vs) (fun hl ↦ ⟨div_entrySize_succ (I + 1) vs, ?_⟩) h ?_
  · rw [div_entrySize_succ, hbl hl]
  · rw [div_entrySize_succ, hx]

theorem vmMap_leaf :
  (vs ≤ x ∧ x < ve → ∃ u ad, leaf (I + 1) t' x = some ⟨1, bits.leaf u, ad⟩) ∧
  (¬ (vs ≤ x ∧ x < ve) → leaf (I + 1) t' x = leaf (I + 1) t x) := by
  induction I generalizing vs ve p frames frames' with
  | zero =>
    obtain ⟨hs, hn⟩ | ⟨a, b, ⟨ha', hb', q, fs, fs', hk⟩, hab, -, hax, -, hi⟩ :=
      vmMap_at hI hv ha hb hbl h hx
    · exact ⟨fun hm ↦ absurd rfl (hn x hm.1 hm.2), fun _ ↦ by rw [leaf, leaf, hs]⟩
    · rw [if_pos rfl] at hk
      obtain ⟨u, -, he', -⟩ := mapPage_ok hk
      have hm := (hi x rfl).mpr (mem_of_page ha' hb' hab hax)
      exact ⟨fun _ ↦ ⟨u, addressOf q, by rw [leaf, he']⟩, fun ho ↦ absurd hm ho⟩
  | succ I ih =>
    obtain ⟨hs, hn⟩ | ⟨a, b, ⟨ha', hb', q, fs, fs', hk⟩, hab, hbe, hax, hbx, hi⟩ :=
      vmMap_at hI hv ha hb hbl h hx
    · exact ⟨fun hm ↦ absurd rfl (hn x hm.1 hm.2), fun _ ↦ by rw [leaf, leaf, hs]⟩
    · rw [if_neg (by omega)] at hk
      obtain ⟨u, ad, t₀, t₁, f, hc, he', hbf⟩ := mapTable_ok hk
      have hl : leaf (I + 2) t x = leaf (I + 1) t₀ x := by
        obtain ⟨he, -⟩ | ⟨he, rfl, -⟩ := hbf
        · rw [leaf, he]
        · rw [leaf, he]
          rfl
      have hl' : leaf (I + 2) t' x = leaf (I + 1) t₁ x := by rw [leaf, he']
      rw [hi x rfl, hl, hl']
      exact ih (by omega) (by omega) ha' hb' (fun _ ↦ hbx.trans hax.symm) hc hax.symm

theorem vmMap_tableAt {J : ℕ} (hJ : 1 ≤ J) (hj : J ≤ I) :
  (∀ address, tableAt J (I + 1) t x = some address → tableAt J (I + 1) t' x = some address) ∧
  ((tableAt J (I + 1) t' x).isSome ↔ (tableAt J (I + 1) t x).isSome ∨
  ∃ y, vs ≤ y ∧ y < ve ∧ y / entrySize (J + 1) = x / entrySize (J + 1)) := by
  induction I generalizing vs ve p frames frames' with
  | zero => omega
  | succ I ih =>
    obtain ⟨hs, hn⟩ | ⟨a, b, ⟨ha', hb', q, fs, fs', ho⟩, hab, hbe, hax, hbx, hin⟩ :=
      vmMap_at hI hv ha hb hbl h hx
    · have hat : tableAt J (I + 2) t' x = tableAt J (I + 2) t x := by rw [tableAt, tableAt, hs]
      refine ⟨fun address ht ↦ hat.trans ht, ?_⟩
      rw [hat]
      refine ⟨.inl, Or.rec id ?_⟩
      rintro ⟨y, hy, hy', hyx⟩
      exact absurd (div_entrySize_of_le (by omega) hyx) (hn y hy hy')
    · rw [if_neg (by omega)] at ho
      obtain ⟨u, address, t₀, t₁, f, hc, he', hbf⟩ := mapTable_ok ho
      rcases Nat.eq_or_lt_of_le hj with rfl | hlt
      · have hat : tableAt (I + 1) (I + 2) t' x = some address := by
          rw [tableAt_of_table he', if_pos rfl]
        refine ⟨fun address' ht ↦ ?_, ?_⟩
        · obtain ⟨he, -⟩ | ⟨he, -⟩ := hbf
          · rw [hat, ← ht, tableAt_of_table he, if_pos rfl]
          · rw [tableAt, he] at ht
            cases ht
        · rw [hat]
          refine iff_of_true rfl (.inr ⟨a, ?_⟩)
          have hm := (hin a hax).mpr ⟨le_rfl, hab⟩
          exact ⟨hm.1, hm.2, hax⟩
      · have hat' : tableAt J (I + 2) t' x = tableAt J (I + 1) t₁ x := by
          rw [tableAt_of_table he', if_neg (by omega)]
        have hat : tableAt J (I + 2) t x = tableAt J (I + 1) t₀ x := by
          obtain ⟨he, -⟩ | ⟨he, rfl, -⟩ := hbf
          · rw [tableAt_of_table he, if_neg (by omega)]
          · rw [tableAt, he, tableAt_newTable]
        obtain ⟨hk, hi⟩ :=
          ih (by omega) (by omega) ha' hb' (fun _ ↦ hbx.trans hax.symm) hc hax.symm (by omega)
        rw [hat, hat']
        refine ⟨hk, hi.trans (or_congr_right (exists_congr fun y ↦ ?_))⟩
        -- The addresses under the same table of level `J` all lie under this entry.
        rw [← and_assoc, ← and_assoc]
        exact and_congr_left fun hy ↦ (hin y (div_entrySize_of_le (by omega) hy)).symm

end Walk

end Leaves

section TableFrames

variable {bits : UserBits} {I : ℕ} {t t' : Pmlt (I + 1)} {vs ve p : ℕ} {frames frames' : List ℕ}

section Frames

variable {T : Type} {below : T → Multiset (BitVec 40)}
  {body : Pmle T → ℕ → ℕ → ℕ → List ℕ → Except Fault (Pmle T × List ℕ)}

theorem sum_entryFrames_update (t : Fin 512 → Pmle T) (j : Fin 512) (e : Pmle T)
  {popped : Multiset (BitVec 40)} (he : entryFrames below e = entryFrames below (t j) + popped) :
  ∑ i, entryFrames below (Function.update t j e i) = (∑ i, entryFrames below (t i)) + popped := by
  have ho : ∑ i ∈ Finset.univ.erase j, entryFrames below (Function.update t j e i) =
    ∑ i ∈ Finset.univ.erase j, entryFrames below (t i) := by
    refine Finset.sum_congr rfl fun i hi ↦ ?_
    rw [Function.update_of_ne (Finset.ne_of_mem_erase hi)]
  rw [← Finset.add_sum_erase _ _ (Finset.mem_univ j), ho, Function.update_self, he,
    add_right_comm, Finset.add_sum_erase _ (fun i ↦ entryFrames below (t i)) (Finset.mem_univ _)]

theorem mapLoop_frames (hb : ∀ e a b p frames e' frames', body e a b p frames = .ok (e', frames') →
  ∃ po, frames = po ++ frames' ∧
  entryFrames below e' = entryFrames below e + (po.map addressOf : List (BitVec 40)))
  (r : ℕ) {t t' : Fin 512 → Pmle T} (h : mapLoop I body r t vs ve p frames = .ok (t', frames')) :
  ∃ po, frames = po ++ frames' ∧ ∑ i, entryFrames below (t' i) =
  (∑ i, entryFrames below (t i)) + (po.map addressOf : List (BitVec 40)) := by
  induction r generalizing t vs p frames with
  | zero =>
    rw [mapLoop] at h
    split at h
    next => cases h
    next =>
      cases h
      exact ⟨[], rfl, (add_zero _).symm⟩
  | succ r ih =>
    by_cases hlt : vs < ve
    · obtain ⟨j, -, hs⟩ : ∃ j : Fin 512, _ ∧
        mapLoop I body (r + 1) t vs ve p frames = _ := mapLoop_step r p t frames hlt
      rw [hs] at h
      obtain ⟨⟨e, f⟩, hfi, hr⟩ := bind_eq_ok h
      obtain ⟨po, hf, he⟩ := hb _ _ _ _ _ _ _ hfi
      obtain ⟨po', hf', ht⟩ := ih hr
      refine ⟨po ++ po', by rw [hf, List.append_assoc]; exact congrArg _ hf', ?_⟩
      rw [ht, sum_entryFrames_update t j e he, add_assoc, List.map_append, Multiset.coe_add]
    · rw [mapLoop, if_neg hlt] at h
      cases h
      exact ⟨[], rfl, (add_zero _).symm⟩

end Frames

theorem tableFrames_newTable (I : ℕ) :
  tableFrames (I + 1) (fun _ ↦ .absent false : Pmlt (I + 1)) = 0 :=
  Finset.sum_eq_zero fun _ _ ↦ rfl

theorem vmMap_frames (h : vmMap bits 1 (I + 1) t vs ve p frames = .ok (t', frames')) :
  ∃ po, frames = po ++ frames' ∧ tableFrames (I + 1) t' =
  tableFrames (I + 1) t + (po.map addressOf : List (BitVec 40)) := by
  induction I generalizing vs ve p frames frames' with
  | zero =>
    refine mapLoop_frames (fun e a b p fs e' fs' ho ↦ ?_) _ h
    rw [if_pos rfl] at ho
    obtain ⟨u, rfl, rfl, rfl⟩ := mapPage_ok ho
    exact ⟨[], rfl, rfl⟩
  | succ I ih =>
    refine mapLoop_frames (fun e a b p fs e' fs' ho ↦ ?_) _ h
    rw [if_neg (by omega)] at ho
    obtain ⟨u, ad, t₀, t₁, fs₀, hc, rfl, hb⟩ := mapTable_ok ho
    obtain ⟨po, hf, ht⟩ := ih hc
    obtain ⟨rfl, rfl⟩ | ⟨rfl, rfl, f, rfl, rfl⟩ := hb
    · exact ⟨po, hf, by rw [entryFrames, entryFrames, ht, Multiset.cons_add]⟩
    · refine ⟨f :: po, by rw [hf]; rfl, ?_⟩
      rw [entryFrames, entryFrames, ht, tableFrames_newTable, zero_add, zero_add]
      rfl

theorem mapLoop_settles {T : Type}
  {bd : Pmle T → ℕ → ℕ → ℕ → List ℕ → Except Fault (Pmle T × List ℕ)}
  (hb : ∀ e a b p, Settles .outOfFrames (bd e a b p)) (r : ℕ) (t : Fin 512 → Pmle T)
  (vs ve p : ℕ) : Settles .outOfFrames (mapLoop I bd r t vs ve p) := by
  induction r generalizing t vs p with
  | zero =>
    intro frames ex
    rw [mapLoop, mapLoop]
    split
    next => exact .inr rfl
    next => exact .inr rfl
  | succ r ih =>
    intro frames ex
    rw [mapLoop, mapLoop]
    split
    next => exact (hb _ _ _ _).bind (fun e ↦ ih (Function.update t _ e) _ _) frames ex
    next => exact .inr rfl

theorem mapPage_settles {T : Type} (bs : UserBits) (l : ℕ) (e : Pmle T) (a p : ℕ) :
  Settles .outOfFrames (mapPage bs l e a p) := by
  cases e with
  | absent u => exact .ok _
  | table u ad nx => exact .error _
  | page u ad => exact .error _

theorem mapTable_settles {d : Pmlt I → ℕ → ℕ → ℕ → List ℕ → Except Fault (Pmlt I × List ℕ)}
  (hd : ∀ t a b p, Settles .outOfFrames (d t a b p)) (e : Pmle (Pmlt I)) (a b p : ℕ) :
  Settles .outOfFrames (mapTable bits d e a b p) := by
  intro frames ex
  cases e with
  | absent u =>
    cases frames with
    | nil => exact .inl rfl
    | cons f frames =>
      cases hn : newTable I with
      | error fa => exact .inr (by simp only [List.cons_append, mapTable, hn]; rfl)
      | ok t =>
        have h := (hd t a b p).bind
          (fun t ↦ .ok (Pmle.table (bits.table u) (addressOf f) t)) frames ex
        simpa only [List.cons_append, mapTable, hn, ok_bind] using h
  | table u ad nx =>
    exact (hd nx a b p).bind (fun t ↦ .ok (Pmle.table (bits.table u) ad t)) frames ex
  | page u ad => exact .inr rfl

theorem vmMap_settles (bs : UserBits) (l I : ℕ) (t : Pmlt I) (vs ve p : ℕ) :
  Settles .outOfFrames (vmMap bs l I t vs ve p) := by
  induction I generalizing vs ve p with
  | zero => exact nomatch t
  | succ I ih =>
    refine mapLoop_settles (fun e a b p ↦ ?_) _ t vs ve p
    split
    next => exact mapPage_settles bs _ e a p
    next => exact mapTable_settles ih e a b p

end TableFrames

open List

def pages (start stop : ℕ) : List ℕ :=
  (List.range ((stop - start) / pageSize)).map fun k ↦ start + k * pageSize

section Pages

variable {a b m : ℕ}

theorem pages_of_le (h : b ≤ a) : pages a b = [] := by
  rw [pages, Nat.sub_eq_zero_of_le h, Nat.zero_div]
  rfl

theorem pages_append (ha : pageSize ∣ a) (hm : pageSize ∣ m) (h₁ : a ≤ m) (h₂ : m ≤ b) :
  pages a b = pages a m ++ pages m b := by
  rw [pages, page_count_split ha hm h₁ h₂, range_add, map_append, map_map]
  refine congrArg (_ ++ ·) (map_congr_left fun k _ ↦ ?_)
  obtain ⟨x, rfl⟩ := ha
  obtain ⟨y, rfl⟩ := hm
  simp only [Function.comp_apply, pageSize] at *
  omega

theorem pages_single (hb : b = a + pageSize) : pages a b = [a] := by
  rw [pages, hb, Nat.add_sub_cancel_left]
  rfl

theorem mem_pages {v : ℕ} (ha : pageSize ∣ a) (hb : pageSize ∣ b) :
  v ∈ pages a b ↔ pageSize ∣ v ∧ a ≤ v ∧ v < b := by
  obtain ⟨x, rfl⟩ := ha
  obtain ⟨y, rfl⟩ := hb
  simp only [pages, mem_map, mem_range]
  constructor
  · rintro ⟨k, hk, rfl⟩
    refine ⟨dvd_add (dvd_mul_right ..) (dvd_mul_left ..), ?_⟩
    simp only [pageSize] at *
    omega
  · rintro ⟨⟨z, rfl⟩, hxz, hzy⟩
    refine ⟨z - x, ?_⟩
    simp only [pageSize] at *
    omega

theorem nodup_pages (a b : ℕ) : (pages a b).Nodup := by
  refine nodup_range.map fun k k' h ↦ ?_
  simp only [pageSize] at h
  omega

end Pages

def entryLeaf (I : ℕ) (e : Pmle (Pmlt I)) (virt : ℕ) : Option Leaf :=
  match e with
  | .absent _ => none
  | .page user address => some ⟨I + 1, user, address⟩
  | .table _ _ next => leaf I next virt

theorem leaf_succ (I : ℕ) (t : Pmlt (I + 1)) (x : ℕ) :
  leaf (I + 1) t x = entryLeaf I (t (tableIndex (I + 1) x)) x := rfl

def Small (l : Option Leaf) : Prop := ∃ user address, l = some ⟨1, user, address⟩

def frameOf (l : Option Leaf) : ℕ := l.elim 0 fun l ↦ getPhys l.address

structure Unmaps {A : Type} (look : A → ℕ → Option Leaf) (free : Bool) (block c : ℕ) (t t' : A)
  (a b : ℕ) (out : Unmapped) : Prop where
  gone : ∀ x, a ≤ x → x < b → look t' x = none
  kept : ∀ x, x / block = c → ¬ (a ≤ x ∧ x < b) → look t' x = look t x
  pushed : out.pushed = if free then (pages a b).map fun x ↦ frameOf (look t x) else []
  invalidated : out.invalidated = pages a b

def Unmapping {A : Type} (look : A → ℕ → Option Leaf) (free : Bool) (block : ℕ)
  (call : A → ℕ → ℕ → Except Fault (A × Unmapped)) : Prop :=
  ∀ t a b, a < b → b < 2 ^ 64 → pageSize ∣ a → pageSize ∣ b → (b - 1) / block = a / block →
    (∀ x, a ≤ x → x < b → Small (look t x)) →
    ∃ t' out, call t a b = .ok (t', out) ∧ Unmaps look free block (a / block) t t' a b out

theorem tableIndex_eq_iff {I x y : ℕ} (h : x / entrySize (I + 1) = y / entrySize (I + 1)) :
  tableIndex I x = tableIndex I y ↔ x / entrySize I = y / entrySize I := by
  rw [← div_entrySize_succ, ← div_entrySize_succ] at h
  rw [Fin.ext_iff, tableIndex_val, tableIndex_val]
  omega

section Loop

variable {T : Type} {I : ℕ} {free : Bool} {look : Pmle T → ℕ → Option Leaf}
  {body : Pmle T → ℕ → ℕ → Except Fault (Pmle T × Unmapped)}

theorem unmapLoop_step (ro : ℕ) {vs ve : ℕ} (t : Fin 512 → Pmle T) (o : Unmapped)
  (h : vs < ve) : ∃ i : Fin 512, (i : ℕ) = 511 - ro ∧ unmapLoop I body (ro + 1) t vs ve o =
  (body (t i) vs (entryVirtEnd I vs ve) >>= fun r ↦
  unmapLoop I body ro (Function.update t i r.1) (entryVirtEnd I vs ve) ve (o.append r.2)) :=
  ⟨⟨511 - ro, by omega⟩, rfl, by simp only [unmapLoop, if_pos h]⟩

theorem unmapLoop_done (r : ℕ) {vs ve : ℕ} (t : Fin 512 → Pmle T) (o : Unmapped)
  (h : ¬ vs < ve) : unmapLoop I body r t vs ve o = .ok (t, o) := by
  cases r with
  | zero => rw [unmapLoop, if_neg h]
  | succ r => rw [unmapLoop, if_neg h]

theorem Unmaps.nil {A : Type} {l : A → ℕ → Option Leaf} {bk c a b : ℕ} (t : A) (h : b ≤ a) :
  Unmaps l free bk c t t a b {} := by
  refine ⟨fun x _ _ ↦ by omega, fun _ _ _ ↦ rfl, ?_, (pages_of_le h).symm⟩
  rw [pages_of_le h, map_nil, ite_self]

theorem update_of_beyond {vs ve m c x : ℕ} (hr : Round (entrySize (I + 1)) vs ve m)
  (hs : vs / entrySize (I + 2) = c) (hv : (ve - 1) / entrySize (I + 2) = c) (hx : m ≤ x)
  (hx' : x < ve) (t : Fin 512 → Pmle T) (e : Pmle T) :
  Function.update t (tableIndex (I + 1) vs) e (tableIndex (I + 1) x) =
  t (tableIndex (I + 1) x) := by
  have hlt := hr.lt
  have hb := div_eq_of_between hs hv (by omega : vs ≤ x) hx'
  refine Function.update_of_ne ?_ ..
  rw [Ne, tableIndex_eq_iff (hb.trans hs.symm)]
  exact hr.beyond x hx hx'

theorem Unmaps.cons {vs ve m c : ℕ} {t t' : Fin 512 → Pmle T} {e : Pmle T} {o o' : Unmapped}
  (hr : Round (entrySize (I + 1)) vs ve m) (ha : pageSize ∣ vs) (hb : pageSize ∣ ve)
  (hm : pageSize ∣ m) (hs : vs / entrySize (I + 2) = c) (hv : (ve - 1) / entrySize (I + 2) = c)
  (hf : Unmaps look free (entrySize (I + 1)) (vs / entrySize (I + 1))
  (t (tableIndex (I + 1) vs)) e vs m o)
  (hre : Unmaps (fun t x ↦ look (t (tableIndex (I + 1) x)) x) free (entrySize (I + 2)) c
  (Function.update t (tableIndex (I + 1) vs) e) t' m ve o') :
  Unmaps (fun t x ↦ look (t (tableIndex (I + 1) x)) x) free (entrySize (I + 2)) c t t' vs ve
  (o.append o') := by
  have hlt := hr.lt
  have hle := hr.le
  have hh (x : ℕ) (hx : x / entrySize (I + 1) = vs / entrySize (I + 1)) :
    tableIndex (I + 1) x = tableIndex (I + 1) vs :=
    (tableIndex_eq_iff (div_entrySize_of_le (by omega) hx)).mpr hx
  refine ⟨fun x hx hx' ↦ ?_, fun x hx ho ↦ ?_, ?_, ?_⟩
  · by_cases hxm : x < m
    · rw [hre.kept x (div_eq_of_between hs hv hx hx') (by omega),
        hh x (hr.inside x hx hxm), Function.update_self]
      exact hf.gone x hx hxm
    · exact hre.gone x (by omega) hx'
  · rw [hre.kept x hx (by omega)]
    by_cases hin : x / entrySize (I + 1) = vs / entrySize (I + 1)
    · rw [hh x hin, Function.update_self]
      exact hf.kept x hin (by omega)
    · rw [Function.update_of_ne]
      rwa [Ne, tableIndex_eq_iff (hx.trans hs.symm)]
  · have hfr : (pages vs m).map (fun x ↦ frameOf (look (t (tableIndex (I + 1) vs)) x)) =
      (pages vs m).map fun x ↦ frameOf (look (t (tableIndex (I + 1) x)) x) := by
      refine map_congr_left fun x hx ↦ ?_
      obtain ⟨-, hx, hxm⟩ := (mem_pages ha hm).mp hx
      rw [hh x (hr.inside x hx hxm)]
    have hba : (pages m ve).map (fun x ↦ frameOf (look (Function.update t
      (tableIndex (I + 1) vs) e (tableIndex (I + 1) x)) x)) =
      (pages m ve).map fun x ↦ frameOf (look (t (tableIndex (I + 1) x)) x) := by
      refine map_congr_left fun x hx ↦ ?_
      obtain ⟨-, hmx, hx'⟩ := (mem_pages hm hb).mp hx
      rw [update_of_beyond hr hs hv hmx hx']
    rw [Unmapped.append, hf.pushed, hre.pushed, hfr, hba, pages_append ha hm hlt.le hle, map_append]
    cases free <;> rfl
  · rw [Unmapped.append, hf.invalidated, hre.invalidated, ← pages_append ha hm hlt.le hle]

theorem Unmapped.append_assoc (x y z : Unmapped) :
  (x.append y).append z = x.append (y.append z) := by
  simp only [Unmapped.append, List.append_assoc]

theorem Unmapped.append_nil (x : Unmapped) : x.append {} = x := by
  simp only [Unmapped.append, List.append_nil]

theorem unmapLoop_spec (hI : I + 1 ≤ 4) (hbo : Unmapping look free (entrySize (I + 1)) body)
  (room : ℕ) (t : Fin 512 → Pmle T) {vs ve c : ℕ} (hve : ve < 2 ^ 64) (ha : pageSize ∣ vs)
  (hb : pageSize ∣ ve) (hi : vs < ve → vs / entrySize (I + 1) % 512 + room = 512)
  (hbl : vs < ve → vs / entrySize (I + 2) = c ∧ (ve - 1) / entrySize (I + 2) = c)
  (hs : ∀ x, vs ≤ x → x < ve → Small (look (t (tableIndex (I + 1) x)) x)) (out : Unmapped) :
  ∃ t' more, unmapLoop (I + 1) body room t vs ve out = .ok (t', out.append more) ∧
  Unmaps (fun t x ↦ look (t (tableIndex (I + 1) x)) x) free (entrySize (I + 2)) c t t' vs ve
  more := by
  induction room generalizing t vs out with
  | zero =>
    have hlt : ¬ vs < ve := by
      intro hlt
      have hmo := Nat.mod_lt (vs / entrySize (I + 1)) (by decide : 0 < 512)
      have hro := hi hlt
      omega
    exact ⟨t, {}, by rw [unmapLoop_done 0 t out hlt, Unmapped.append_nil], .nil t (by omega)⟩
  | succ room ih =>
    by_cases hlt : vs < ve
    · have hr := round_entryVirtEnd hI hlt hve
      have hro := hi hlt
      obtain ⟨hvs, hve'⟩ := hbl hlt
      obtain ⟨index, hiv, hst⟩ : ∃ index : Fin 512, _ ∧
        unmapLoop (I + 1) body (room + 1) t vs ve out = _ := unmapLoop_step room t out hlt
      obtain rfl : index = tableIndex (I + 1) vs := by
        apply Fin.ext
        rw [tableIndex_val]
        omega
      have hm := hr.aligned (pageSize_dvd_entrySize I) hb
      rw [hst]
      generalize entryVirtEnd (I + 1) vs ve = m at *
      have hvm := hr.lt
      have hmv := hr.le
      have hsa (x : ℕ) (hx : vs ≤ x) (hxm : x < m) :
        tableIndex (I + 1) x = tableIndex (I + 1) vs := by
        have hin := hr.inside x hx hxm
        exact (tableIndex_eq_iff (div_entrySize_of_le (by omega) hin)).mpr hin
      obtain ⟨e, first, hf, he⟩ := hbo (t (tableIndex (I + 1) vs)) vs m hvm (by omega) ha hm
        (hr.inside (m - 1) (by omega) (by omega)) fun x hx hxm ↦ hsa x hx hxm ▸ hs x hx (by omega)
      obtain ⟨t', rest, hc, ht'⟩ := ih (Function.update t (tableIndex (I + 1) vs) e) hm
        (fun h ↦ (hr.index h hro (div_entrySize_succ (I + 1) vs)
        ((div_entrySize_succ (I + 1) (ve - 1)).trans (hve'.trans hvs.symm))).1)
        (fun h ↦ ⟨div_eq_of_between hvs hve' hvm.le h, hve'⟩)
        (fun x hx hx' ↦ update_of_beyond hr hvs hve' hx hx' t e ▸ hs x (by omega) hx')
        (out.append first)
      refine ⟨t', first.append rest, ?_, .cons hr ha hb hm hvs hve' he ht'⟩
      rw [hf, ok_bind, hc, Unmapped.append_assoc]
    · exact ⟨t, {}, by rw [unmapLoop_done _ t out hlt, Unmapped.append_nil], .nil t (by omega)⟩

end Loop

theorem stop_of_page {a b : ℕ} (ha : pageSize ∣ a) (hb : pageSize ∣ b) (hab : a < b)
  (hbl : (b - 1) / entrySize 1 = a / entrySize 1) : b = a + pageSize := by
  obtain ⟨x, rfl⟩ := ha
  obtain ⟨y, rfl⟩ := hb
  rw [entrySize_one] at hbl
  simp only [pageSize] at *
  omega

theorem unmapPage_unmapping (fr : Bool) :
  Unmapping (entryLeaf 0) fr (entrySize 1) fun e a _ ↦ unmapPage fr e a := by
  intro e a b hab hb ha hb' hbl hsm
  have hs := stop_of_page ha hb' hab hbl
  obtain ⟨u, ad, he⟩ := hsm a le_rfl hab
  cases e with
  | absent u => cases he
  | table u ad nx => exact nomatch nx
  | page u' a' =>
    cases he
    refine ⟨_, _, rfl, fun _ _ _ ↦ rfl, fun x hx ho ↦ ?_, ?_, (pages_single hs).symm⟩
    · rw [entrySize_one] at hx
      obtain ⟨k, rfl⟩ := ha
      simp only [pageSize] at *
      omega
    · rw [pages_single hs]
      rfl

theorem unmapTable_unmapping {I : ℕ} {fr : Bool} {bk : ℕ}
  {d : Pmlt (I + 1) → ℕ → ℕ → Except Fault (Pmlt (I + 1) × Unmapped)}
  (hd : Unmapping (leaf (I + 1)) fr bk d) : Unmapping (entryLeaf (I + 1)) fr bk (unmapTable d) := by
  intro e a b hab hb ha hb' hbl hs
  obtain ⟨u, ad, he⟩ := hs a le_rfl hab
  cases e with
  | absent u => cases he
  | page u' ad' => cases he
  | table u' ad' nx =>
    obtain ⟨t', o, hc, ht'⟩ := hd nx a b hab hb ha hb' hbl hs
    exact ⟨.table u' ad' t', o, by rw [unmapTable, hc]; rfl, ht'.gone, ht'.kept,
      ht'.pushed, ht'.invalidated⟩

theorem vmUnmap_unmapping (free : Bool) {I : ℕ} (hI : I + 1 ≤ 4) :
  Unmapping (leaf (I + 1)) free (entrySize (I + 2)) (vmUnmap free (I + 1)) := by
  induction I with
  | zero =>
    intro t a b hab hb ha hb' hbl hs
    obtain ⟨t', out, hc, ht'⟩ := unmapLoop_spec hI (unmapPage_unmapping free) _ t hb ha hb'
      (fun _ ↦ index_add_room 1 a) (fun _ ↦ ⟨rfl, hbl⟩) hs {}
    exact ⟨t', out, hc, ht'⟩
  | succ I ih =>
    intro t a b hab hb ha hb' hbl hs
    obtain ⟨t', out, hc, ht'⟩ := unmapLoop_spec hI (unmapTable_unmapping (ih (by omega))) _ t hb
      ha hb' (fun _ ↦ index_add_room (I + 2) a) (fun _ ↦ ⟨rfl, hbl⟩) hs {}
    refine ⟨t', out, ?_, ht'⟩
    rw [vmUnmap]
    simp only [Nat.add_eq_right, Nat.add_eq_zero_iff, Nat.one_ne_zero, and_false, if_false]
    exact hc

end ReaverOS.Paging
