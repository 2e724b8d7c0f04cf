import ReaverOS.Foundation.TokenProgram

namespace ReaverOS.Foundation.TokenProgram

open List

variable {τ ε α β : Type}

def ofList (ending : Option ε) : Source (List τ) τ ε where
  current ts := ts.head?
  next ts :=
    match ending, ts.tail with
    | some e, [] => .error e
    | _, rest => .ok rest
  atEnd ts := ts.isEmpty

theorem next_ofList_cases (ending : Option ε) (t : τ) (rest : List τ) :
  (∃ e, ending = some e ∧ rest = [] ∧ (ofList ending).next (t :: rest) = .error e) ∨
  (ending = none ∨ rest ≠ []) ∧ (ofList ending).next (t :: rest) = .ok rest := by
  cases ending with
  | none => exact .inr ⟨.inl rfl, rfl⟩
  | some e =>
    cases rest with
    | nil => exact .inl ⟨e, rfl, rfl, rfl⟩
    | cons u rest => exact .inr ⟨.inr (cons_ne_nil u rest), rfl⟩

theorem next_ofList_cons_cons (ending : Option ε) (t u : τ) (rest : List τ) :
  (ofList ending).next (t :: u :: rest) = .ok (u :: rest) := by
  cases ending <;> rfl

section Rest

variable {ending : Option ε} {fuel : ℕ}

theorem next_ofList_eq_tail {ts rest : List τ} (h : (ofList ending).next ts = .ok rest) :
  rest = ts.tail := by
  simp only [ofList] at h
  split at h
  · cases h
  · exact (Except.ok.inj h).symm

theorem repeatWhile_suffix {cond : τ → Bool} {body : List τ → Verdict ε (β × List τ)}
  (hb : ∀ {ts b rest}, body ts = .done (b, rest) → rest <:+ ts) {k : ℕ} {ts rest : List τ}
  {bs : List β} (h : repeatWhile (ofList ending : Source (List τ) τ ε).current cond body k ts =
  .done (bs, rest)) : rest <:+ ts := by
  induction k generalizing ts bs with
  | zero => cases h
  | succ k ih =>
    simp only [repeatWhile] at h
    split at h
    · cases h
    · split at h
      · obtain ⟨x, hx, h⟩ := Verdict.bind_eq_done.1 h
        obtain ⟨xs, hxs, h⟩ := Verdict.bind_eq_done.1 h
        cases h
        exact (ih hxs).trans (hb hx)
      · cases h
        exact suffix_refl _

theorem run_suffix {p : Program τ ε α} {ts rest : List τ} {a : α}
  (h : run (ofList ending) fuel p ts = .done (a, rest)) : rest <:+ ts := by
  induction p generalizing ts rest with
  | pure a =>
    cases h
    exact suffix_refl _
  | bind p f ihp ihf =>
    obtain ⟨x, hx, h⟩ := Verdict.bind_eq_done.1 h
    exact (ihf x.1 h).trans (ihp hx)
  | token =>
    simp only [run] at h
    split at h
    · cases h
    · cases h
      exact suffix_refl _
  | advance =>
    simp only [run] at h
    split at h
    · cases h
    · rename_i s' hs'
      cases h
      rw [next_ofList_eq_tail hs']
      exact tail_suffix ts
  | fail e => cases h
  | whileDo cond body ih => exact repeatWhile_suffix ih h

theorem run_length_le {p : Program τ ε α} {ts rest : List τ} {a : α}
  (h : run (ofList ending) fuel p ts = .done (a, rest)) : rest.length ≤ ts.length :=
  (run_suffix h).length_le

theorem repeatWhile_of_fixed {cond : τ → Bool} {body : List τ → Verdict ε (β × List τ)} {t : τ}
  {ts : List τ} {b : β} (ht : ts.head? = some t) (hc : cond t = true)
  (hb : body ts = .done (b, ts)) (k : ℕ) :
  repeatWhile (ofList ending : Source (List τ) τ ε).current cond body k ts = .pending := by
  induction k with
  | zero => rfl
  | succ k ih =>
    have h : (ofList ending : Source (List τ) τ ε).current ts = some t := ht
    simp only [repeatWhile, h, if_pos hc, hb, Verdict.bind, ih]

theorem repeatWhile_stable {cond : τ → Bool} {body body' : List τ → Verdict ε (β × List τ)}
  (hbo : ∀ {ts b rest}, body ts = .done (b, rest) → rest <:+ ts) {k k' : ℕ} {ts : List τ}
  (hs : ∀ {ts' : List τ}, ts'.length ≤ ts.length → body ts' = body' ts') (hk : ts.length < k)
  (hk' : ts.length < k') :
  repeatWhile (ofList ending : Source (List τ) τ ε).current cond body k ts =
  repeatWhile (ofList ending : Source (List τ) τ ε).current cond body' k' ts := by
  induction k generalizing k' ts with
  | zero => exact absurd hk (Nat.not_lt_zero _)
  | succ k ih =>
    obtain ⟨k', rfl⟩ : ∃ j, k' = j + 1 := ⟨k' - 1, by omega⟩
    cases ts with
    | nil => rfl
    | cons t rest =>
      have ht : (ofList ending : Source (List τ) τ ε).current (t :: rest) = some t := rfl
      simp only [repeatWhile, ht]
      by_cases hc : cond t = true
      · rw [if_pos hc, if_pos hc, ← hs (Nat.le_refl _)]
        cases hb : body (t :: rest) with
        | failed e => rfl
        | pending => rfl
        | done x =>
          obtain ⟨b, rest'⟩ := x
          have hsu := hbo hb
          rcases Nat.lt_or_ge rest'.length (t :: rest).length with hlt | hge
          · simp only [Verdict.bind]
            rw [@ih k' rest' (fun h ↦ hs (Nat.le_of_lt (Nat.lt_of_le_of_lt h hlt))) (by omega)
              (by omega)]
          · obtain rfl := hsu.eq_of_length_le hge
            have hb' := hs (Nat.le_refl _) ▸ hb
            simp only [Verdict.bind]
            rw [repeatWhile_of_fixed rfl hc hb, repeatWhile_of_fixed rfl hc hb']
      · rw [if_neg hc, if_neg hc]

theorem run_stable {fuel fuel' : ℕ} (p : Program τ ε α) {ts : List τ} (h : ts.length < fuel)
  (h' : ts.length < fuel') : run (ofList ending) fuel p ts = run (ofList ending) fuel' p ts := by
  induction p generalizing ts with
  | pure a => rfl
  | bind p f ihp ihf =>
    simp only [run]
    rw [← ihp h h']
    cases hp : run (ofList ending) fuel p ts with
    | failed e => rfl
    | pending => rfl
    | done x =>
      have hle := run_length_le hp
      exact ihf x.1 (by omega) (by omega)
  | token => rfl
  | advance => rfl
  | fail e => rfl
  | whileDo cond body ih =>
    exact repeatWhile_stable run_suffix (fun hle ↦ ih (by omega) (by omega)) h h'

end Rest

def Advances (ending : Option ε) (p : Program τ ε α) : Prop :=
  ∀ ⦃fuel : ℕ⦄ ⦃ts rest : List τ⦄ ⦃a : α⦄,
    run (ofList ending) fuel p ts = .done (a, rest) → rest.length < ts.length

namespace Advances

variable {ending : Option ε}

theorem accept (wanted : τ → Bool) (refusal : τ → ε) : Advances ending (accept wanted refusal) := by
  intro fuel ts rest a h
  cases ts with
  | nil =>
    rw [TokenProgram.accept, run_token_bind_none rfl] at h
    cases h
  | cons t ts =>
    rw [run_accept rfl] at h
    split at h
    · split at h
      · cases h
      · rename_i s' hs'
        cases h
        rw [next_ofList_eq_tail hs']
        exact Nat.lt_succ_self _
    · cases h

theorem bind {p : Program τ ε β} (hp : Advances ending p) (f : β → Program τ ε α) :
  Advances ending (p >>= f) := by
  intro fuel ts rest a h
  obtain ⟨x, hx, h⟩ := Verdict.bind_eq_done.1 h
  exact Nat.lt_of_le_of_lt (run_length_le h) (hp hx)

theorem bind_right (p : Program τ ε β) {f : β → Program τ ε α} (hf : ∀ b, Advances ending (f b)) :
  Advances ending (p >>= f) := by
  intro fuel ts rest a h
  obtain ⟨x, hx, h⟩ := Verdict.bind_eq_done.1 h
  exact Nat.lt_of_lt_of_le (hf x.1 h) (run_length_le hx)

theorem run_single_ne_done {p : Program τ ε β} {f : β → Program τ ε α} (hp : Advances ending p)
  (hf : ∀ b, Advances ending (f b)) {fuel : ℕ} {t : τ} {x : α × List τ} :
  run (ofList ending) fuel (p >>= f) [t] ≠ .done x := by
  intro h
  obtain ⟨y, hy, h⟩ := Verdict.bind_eq_done.1 h
  have h₁ := hp hy
  have h₂ := hf y.1 h
  simp only [length_singleton] at h₁
  omega

end Advances

end ReaverOS.Foundation.TokenProgram

namespace ReaverOS.Foundation.TokenProgram

open List

variable {τ ε κ α β : Type} {label : τ → κ} {ls ls' : List κ} {next next' : Option κ → Prop}

def Reads (label : τ → κ) (p : Program τ ε α) (a : α) (ls : List κ) (next : Option κ → Prop) :
  Prop :=
  ∀ ⦃ts rest : List τ⦄ ⦃fuel : ℕ⦄, ts.map label = ls → next (rest.head?.map label) →
    (ts ++ rest).length < fuel → run (ofList none) fuel p (ts ++ rest) = .done (a, rest)

theorem head?_map_append {ts : List τ} (h : ts.map label = ls) (rest : List τ) :
  (ts ++ rest).head?.map label = ls.head?.or (rest.head?.map label) := by
  subst h
  cases ts <;> rfl

namespace Reads

theorem mono {p : Program τ ε α} {a : α} (h : Reads label p a ls next)
  (hn : ∀ o, next' o → next o) : Reads label p a ls next' :=
  fun _ _ _ hts hr hf ↦ h hts (hn _ hr) hf

theorem pure (a : α) : Reads label (pure a : Program τ ε α) a [] next := by
  intro ts rest fuel hts _ _
  rw [map_eq_nil_iff.1 hts]
  rfl

theorem bind {p : Program τ ε β} {f : β → Program τ ε α} {b : β} {a : α}
  (hp : Reads label p b ls next) (hf : Reads label (f b) a ls' next')
  (hn : ∀ o, next' o → next (ls'.head?.or o)) : Reads label (p >>= f) a (ls ++ ls') next' := by
  intro ts rest fuel hts hr hfu
  obtain ⟨ts₁, ts₂, rfl, hts₁, hts₂⟩ := map_eq_append_iff.1 hts
  rw [append_assoc] at hfu ⊢
  have hfr : next ((ts₂ ++ rest).head?.map label) := by
    rw [head?_map_append hts₂]
    exact hn _ hr
  rw [run_bind, hp hts₁ hfr hfu]
  rw [length_append] at hfu
  exact hf hts₂ hr (by omega)

theorem bind_pure {p : Program τ ε β} {b : β} (hp : Reads label p b ls next) (g : β → α) :
  Reads label (p >>= fun b ↦ Pure.pure (g b)) (g b) ls next := by
  intro ts rest fuel hts hr hf
  rw [run_bind, hp hts hr hf]
  rfl

theorem accept {wanted : τ → Bool} (refusal : τ → ε) {g : τ → α} {l : κ} {a : α}
  (h : ∀ t, label t = l → wanted t = true ∧ g t = a) :
  Reads label (accept wanted refusal >>= fun t ↦ Pure.pure (g t)) a [l] next := by
  intro ts rest fuel hts _ _
  obtain ⟨t, rfl, ht⟩ := map_eq_singleton_iff.1 hts
  obtain ⟨hw, ha⟩ := h t ht
  rw [run_bind, singleton_append, run_accept rfl, if_pos hw, ← ha]
  rfl

theorem choose_yes {test : τ → Bool} {p q : Program τ ε α} {a : α} {l : κ}
  (hte : ∀ t, label t = l → test t = true) (hp : Reads label p a (l :: ls) next) :
  Reads label (choose test p q) a (l :: ls) next := by
  intro ts rest fuel hts hr hf
  obtain ⟨t, ts, rfl, ht, hts'⟩ := map_eq_cons_iff.1 hts
  rw [cons_append, run_choose rfl, if_pos (hte t ht), ← cons_append]
  exact hp hts hr hf

theorem choose_no {test : τ → Bool} {p q : Program τ ε α} {a : α}
  (hte : ∀ o, next o → ∃ l, ls.head?.or o = some l ∧ ∀ t, label t = l → test t = false)
  (hq : Reads label q a ls next) : Reads label (choose test p q) a ls next := by
  intro ts rest fuel hts hr hf
  obtain ⟨l, hl, hte⟩ := hte _ hr
  rw [← head?_map_append hts, Option.map_eq_some_iff] at hl
  obtain ⟨t, ht, hl⟩ := hl
  rw [run_choose ht, if_neg (by simp [hte t hl])]
  exact hq hts hr hf

theorem whileDo_nil {cond : τ → Bool} {body : Program τ ε β}
  (hc : ∀ o, next o → ∃ l, o = some l ∧ ∀ t, label t = l → cond t = false) :
  Reads label (.whileDo cond body) [] [] next := by
  intro ts rest fuel hts hr hf
  obtain ⟨l, hl, hc⟩ := hc _ hr
  obtain ⟨t, ht, hl⟩ := Option.map_eq_some_iff.1 hl
  obtain ⟨fuel, rfl⟩ : ∃ k, fuel = k + 1 := ⟨fuel - 1, by omega⟩
  rw [map_eq_nil_iff.1 hts, nil_append]
  have hcu : (ofList none : Source (List τ) τ ε).current rest = some t := ht
  simp only [run, repeatWhile, hcu, hc t hl, Bool.false_eq_true, if_false]

theorem whileDo_cons {cond : τ → Bool} {body : Program τ ε β} {b : β} {bs : List β} {l : κ}
  (hco : ∀ t, label t = l → cond t = true) (hbo : Reads label body b (l :: ls) next)
  (hr : Reads label (.whileDo cond body) bs ls' next') (hn : ∀ o, next' o → next (ls'.head?.or o)) :
  Reads label (.whileDo cond body) (b :: bs) (l :: ls ++ ls') next' := by
  intro ts rest fuel hts hr' hf
  obtain ⟨ts₁, ts₂, rfl, hts₁, hts₂⟩ := map_eq_append_iff.1 hts
  obtain ⟨fuel, rfl⟩ : ∃ k, fuel = k + 1 := ⟨fuel - 1, by omega⟩
  rw [append_assoc] at hf ⊢
  have hfr : next ((ts₂ ++ rest).head?.map label) := by
    rw [head?_map_append hts₂]
    exact hn _ hr'
  have hb := hbo hts₁ hfr hf
  obtain ⟨t, ts₁, rfl, ht, -⟩ := map_eq_cons_iff.1 hts₁
  have hl : (ts₂ ++ rest).length < fuel := by
    rw [cons_append, length_cons, length_append] at hf
    omega
  have hta := hr hts₂ hr' (Nat.lt_succ_of_lt hl)
  -- the loop has one round less to go, which the tokens left do not need
  simp only [run] at hta
  rw [repeatWhile_stable run_suffix (fun _ ↦ rfl) (Nat.lt_succ_of_lt hl) hl] at hta
  have hc : (ofList none : Source (List τ) τ ε).current (t :: ts₁ ++ (ts₂ ++ rest)) =
      some t := rfl
  simp only [run, repeatWhile, hc, hco t ht, if_true, hb, Verdict.bind, hta]

end Reads

end ReaverOS.Foundation.TokenProgram
