import ReaverOS.Foundation.TokenList

namespace ReaverOS.Foundation.TokenProgram

section

open List

variable {σ τ ε α β : Type}

structure Feed (σ τ ε : Type) where
  source : Source σ τ ε
  last : τ
  ending : Option ε
  glued : Bool

namespace Feed

variable {F : Feed σ τ ε} {H P P' Q Q' R L L' M : Prop} {s : σ} {ts : List τ}

def Yields (F : Feed σ τ ε) : σ → List τ → Prop
  | s, [] => F.source.current s = some F.last ∧ F.source.next s = .ok s ∧ F.source.atEnd s = true
  | s, t :: rest =>
    F.source.current s = some t ∧ (rest = [] → t = F.last) ∧
      F.source.atEnd s = (rest.isEmpty && F.glued) ∧
      match (ofList F.ending).next (t :: rest) with
      | .error e => F.source.next s = .error e
      | .ok _ => ∃ s', F.source.next s = .ok s' ∧ F.Yields s' rest

def At (F : Feed σ τ ε) (P : Prop) (s : σ) (ts : List τ) : Prop :=
  F.Yields s ts ∧ (ts = [] → P)

def Ends (F : Feed σ τ ε) (H L : Prop) (r : Verdict ε (α × σ)) : Prop :=
  (∃ e, r = .failed e ∧ ¬H) ∨ (r = .pending ∧ H) ∨ ∃ a s, r = .done (a, s) ∧ F.At L s []

/-- The run over the list of the tokens and the run over the source agree as long as the first does
not wait for more tokens. -/
def Agrees (F : Feed σ τ ε) (H Q L : Prop) :
  Verdict ε (α × List τ) → Verdict ε (α × σ) → Prop
  | .done (a, rest), r => ∃ s, r = .done (a, s) ∧ F.At Q s rest
  | .failed e, r => r = .failed e
  | .pending, r => F.Ends H L r

/-- `P` holds of the last token if it was used before, and `Q` if the program uses it. A program
that has run on behind it leaves with `L`, or never if `H`. -/
def Cut (F : Feed σ τ ε) (H P : Prop) (p : Program τ ε α) (Q L : Prop) : Prop :=
  ∀ ⦃fuel : ℕ⦄ ⦃s : σ⦄ ⦃ts : List τ⦄, F.At P s ts → ts.length < fuel →
    F.Agrees H Q L (run (ofList F.ending) fuel p ts) (run F.source fuel p s) ∧
      (ts = [] → F.Ends H L (run F.source fuel p s))

theorem At.mono (hp : P → Q) (h : F.At P s ts) : F.At Q s ts :=
  ⟨h.1, fun hs ↦ hp (h.2 hs)⟩

theorem At.of_ne_nil (h : F.At P s ts) (hs : ts ≠ []) : F.At Q s ts :=
  ⟨h.1, fun h ↦ absurd h hs⟩

theorem Ends.mono (hl : L → M) {r : Verdict ε (α × σ)} (h : F.Ends H L r) : F.Ends H M r := by
  rcases h with h | h | ⟨a, s, hr, hs⟩
  · exact .inl h
  · exact .inr (.inl h)
  · exact .inr (.inr ⟨a, s, hr, hs.mono hl⟩)

theorem Ends.bind {r : Verdict ε (α × σ)} (h : F.Ends H L r) {f : α × σ → Verdict ε (β × σ)}
  (hf : ∀ a s, F.At L s [] → F.Ends H M (f (a, s))) : F.Ends H M (r.bind f) := by
  rcases h with ⟨e, rfl, hH⟩ | ⟨rfl, hH⟩ | ⟨a, s, rfl, hs⟩
  · exact .inl ⟨e, rfl, hH⟩
  · exact .inr (.inl ⟨rfl, hH⟩)
  · exact hf a s hs

theorem Agrees.bind {l : Verdict ε (β × List τ)} {r : Verdict ε (β × σ)} (h : F.Agrees H Q L l r)
  {g : β × List τ → Verdict ε (α × List τ)} {f : β × σ → Verdict ε (α × σ)}
  (hd : ∀ b xs s, l = .done (b, xs) → F.At Q s xs → F.Agrees H R M (g (b, xs)) (f (b, s)))
  (hl : ∀ b s, F.At L s [] → F.Ends H M (f (b, s))) : F.Agrees H R M (l.bind g) (r.bind f) := by
  cases l with
  | done x =>
    obtain ⟨s, rfl, hs⟩ := h
    exact hd x.1 x.2 s rfl hs
  | failed e =>
    obtain rfl := h
    rfl
  | pending => exact Ends.bind h hl

def Refuses (F : Feed σ τ ε) (p : Program τ ε α) : Prop :=
  ∀ fuel ⦃s⦄, F.Yields s [] → ∃ e, run F.source fuel p s = .failed e

def Repeats (F : Feed σ τ ε) (p : Program τ ε α) : Prop :=
  ∀ fuel ⦃s⦄, F.Yields s [] → ∃ a, run F.source fuel p s = .done (a, s)

theorem Refuses.bind {p : Program τ ε β} (hp : F.Refuses p) (f : β → Program τ ε α) :
  F.Refuses (p >>= f) := by
  intro fuel s hs
  obtain ⟨e, he⟩ := hp fuel hs
  exact ⟨e, by rw [run_bind, he]; rfl⟩

theorem refuses_accept {w : τ → Bool} (r : τ → ε) (h : w F.last = false) :
  F.Refuses (accept w r) := by
  intro fuel s hs
  refine ⟨r F.last, ?_⟩
  rw [run_accept hs.1, if_neg (by simp [h])]

theorem repeats_accept {w : τ → Bool} (r : τ → ε) (h : w F.last = true) :
  F.Repeats (accept w r) := by
  intro fuel s hs
  refine ⟨F.last, ?_⟩
  rw [run_accept hs.1, if_pos h, hs.2.1]

theorem Repeats.bind {p : Program τ ε β} (hp : F.Repeats p) {f : β → Program τ ε α}
  (hf : ∀ b, F.Repeats (f b)) : F.Repeats (p >>= f) := by
  intro fuel s hs
  obtain ⟨b, hb⟩ := hp fuel hs
  obtain ⟨a, ha⟩ := hf b fuel hs
  exact ⟨a, by rw [run_bind, hb]; exact ha⟩

theorem repeats_pure (a : α) : F.Repeats (pure a : Program τ ε α) := fun _ _ _ ↦ ⟨a, rfl⟩

section Loop

variable {c : τ → Bool} {bd : Program τ ε β} {fuel : ℕ}

theorem repeatWhile_of_repeats (h : F.Repeats bd) (hc : c F.last = true)
  (hs : F.Yields s []) (k : ℕ) :
  repeatWhile F.source.current c (run F.source fuel bd) k s = .pending := by
  induction k with
  | zero => rfl
  | succ k ih =>
    obtain ⟨b, hb⟩ := h fuel hs
    simp only [repeatWhile, hs.1, if_pos hc, hb, Verdict.bind, ih]

theorem ends_repeatWhile
  (hst : P → c F.last = true → ¬H ∧ F.Refuses bd ∨ H ∧ F.Repeats bd) (hs : F.At P s [])
  {k : ℕ} (hk : 0 < k) : F.Ends H (P ∧ c F.last = false)
  (repeatWhile F.source.current c (run F.source fuel bd) k s) := by
  obtain ⟨k, rfl⟩ : ∃ j, k = j + 1 := ⟨k - 1, by omega⟩
  by_cases hc : c F.last = true
  · rcases hst (hs.2 rfl) hc with ⟨hH, hb⟩ | ⟨hH, hb⟩
    · obtain ⟨e, he⟩ := hb fuel hs.1
      refine .inl ⟨e, ?_, hH⟩
      simp only [repeatWhile, hs.1.1, if_pos hc, he, Verdict.bind]
    · exact .inr (.inl ⟨repeatWhile_of_repeats hb hc hs.1 (k + 1), hH⟩)
  · refine .inr (.inr ⟨[], s, ?_, hs.mono fun h ↦ ⟨h, Bool.eq_false_iff.2 hc⟩⟩)
    simp only [repeatWhile, hs.1.1, if_neg hc]

end Loop

namespace Cut

theorem mono {p : Program τ ε α} (h : F.Cut H P p Q L) (hP : P' → P) (hQ : Q → Q') (hL : L → L') :
  F.Cut H P' p Q' L' := by
  intro fuel s ts hs hf
  obtain ⟨h₁, h₂⟩ := h (hs.mono hP) hf
  refine ⟨?_, fun ht ↦ (h₂ ht).mono hL⟩
  cases hl : run (ofList F.ending) fuel p ts with
  | done x =>
    rw [hl] at h₁
    obtain ⟨s', hr, hs'⟩ := h₁
    exact ⟨s', hr, hs'.mono hQ⟩
  | failed e =>
    rw [hl] at h₁
    exact h₁
  | pending =>
    rw [hl] at h₁
    exact Ends.mono hL h₁

theorem pure (a : α) (hQ : P → Q) (hL : P → L) : F.Cut H P (pure a) Q L := by
  intro fuel s ts hs _
  refine ⟨⟨s, rfl, hs.mono hQ⟩, ?_⟩
  rintro rfl
  exact .inr (.inr ⟨a, s, rfl, hs.mono hL⟩)

theorem fail (e : ε) (hH : P → ¬H) : F.Cut H P (.fail e : Program τ ε α) Q L := by
  intro fuel s ts hs _
  exact ⟨rfl, fun h ↦ .inl ⟨e, rfl, hH (hs.2 h)⟩⟩

theorem bind {p : Program τ ε β} {f : β → Program τ ε α} (hp : F.Cut H P p Q L) (hLQ : L → Q)
  (hf : ∀ b, F.Cut H Q (f b) R M) : F.Cut H P (p >>= f) R M := by
  intro fuel s ts hs hfu
  obtain ⟨h₁, h₂⟩ := hp hs hfu
  have hla : ∀ b s', F.At L s' [] → F.Ends H M (run F.source fuel (f b) s') := fun b s' hs' ↦
    (hf b (hs'.mono hLQ) (by simp only [length_nil]; omega)).2 rfl
  rw [run_bind, run_bind]
  refine ⟨h₁.bind (fun b rest s' hl hs' ↦ ?_) hla, fun hts ↦ (h₂ hts).bind hla⟩
  exact (hf b hs' (Nat.lt_of_le_of_lt (run_length_le hl) hfu)).1

theorem bind_pure {p : Program τ ε β} (hp : F.Cut H P p Q L) (g : β → α) (hQ : Q → R) (hL : L → M) :
  F.Cut H P (p >>= fun b ↦ Pure.pure (g b)) R M := by
  intro fuel s ts hs hf
  obtain ⟨h₁, h₂⟩ := hp hs hf
  have hl : ∀ b s', F.At L s' [] → F.Ends H M (run F.source fuel (Pure.pure (g b)) s') :=
    fun b s' hs' ↦ .inr (.inr ⟨g b, s', rfl, hs'.mono hL⟩)
  exact ⟨h₁.bind (fun b xs s' _ hs' ↦ ⟨s', rfl, hs'.mono hQ⟩) hl, fun h ↦ (h₂ h).bind hl⟩

theorem token_bind {f : τ → Program τ ε α} (hf : ∀ t, F.Cut H (P ∧ t = F.last) (f t) Q L) :
  F.Cut H P (.token >>= f) Q L := by
  intro fuel s ts hs hfu
  cases ts with
  | nil =>
    have h := (hf F.last ⟨hs.1, fun _ ↦ ⟨hs.2 rfl, rfl⟩⟩ hfu).2 rfl
    rw [run_token_bind_none rfl, run_token_bind hs.1.1]
    exact ⟨h, fun _ ↦ h⟩
  | cons t xs =>
    rw [run_token_bind hs.1.1, run_token_bind rfl]
    refine ⟨(hf t (hs.of_ne_nil (cons_ne_nil t xs)) hfu).1, fun h ↦ ?_⟩
    exact absurd h (cons_ne_nil t xs)

theorem choose {te : τ → Bool} {p q : Program τ ε α} (hp : F.Cut H (P ∧ te F.last = true) p Q L)
  (hq : F.Cut H (P ∧ te F.last = false) q Q L) : F.Cut H P (choose te p q) Q L := by
  refine token_bind fun t ↦ ?_
  by_cases ht : te t = true
  · rw [if_pos ht]
    refine hp.mono ?_ id id
    rintro ⟨h, rfl⟩
    exact ⟨h, ht⟩
  · rw [if_neg ht]
    refine hq.mono ?_ id id
    rintro ⟨h, rfl⟩
    exact ⟨h, Bool.eq_false_iff.2 ht⟩

theorem accept (w : τ → Bool) (r : τ → ε) (hH : P → w F.last = false → ¬H) :
  F.Cut H P (accept w r) (w F.last = true) (P ∧ w F.last = true) := by
  intro fuel s ts hs hf
  cases ts with
  | nil =>
    obtain ⟨⟨hc, hn, hen⟩, hP⟩ := hs
    have h : F.Ends H (P ∧ w F.last = true) (run F.source fuel (TokenProgram.accept w r) s) := by
      rw [run_accept hc, hn]
      by_cases hw : w F.last = true
      · rw [if_pos hw]
        exact .inr (.inr ⟨F.last, s, rfl, ⟨hc, hn, hen⟩, fun _ ↦ ⟨hP rfl, hw⟩⟩)
      · rw [if_neg hw]
        exact .inl ⟨_, rfl, hH (hP rfl) (Bool.eq_false_iff.2 hw)⟩
    refine ⟨?_, fun _ ↦ h⟩
    rw [TokenProgram.accept, run_token_bind_none rfl]
    exact h
  | cons t xs =>
    refine ⟨?_, fun h ↦ absurd h (cons_ne_nil t xs)⟩
    obtain ⟨⟨hc, hl, -, hn⟩, -⟩ := hs
    rw [run_accept hc, run_accept rfl]
    by_cases hw : w t = true
    · rw [if_pos hw, if_pos hw]
      rcases next_ofList_cases F.ending t xs with ⟨e, -, -, he⟩ | ⟨-, hr⟩
      · rw [he] at hn ⊢
        rw [hn]
        rfl
      · rw [hr] at hn ⊢
        obtain ⟨s', hs', hy⟩ := hn
        rw [hs']
        refine ⟨s', rfl, hy, fun h ↦ ?_⟩
        rw [← hl h]
        exact hw
    · rw [if_neg hw, if_neg hw]
      rfl

theorem whileDo {c : τ → Bool} {bd : Program τ ε β} (hb : F.Cut H False bd P L)
  (hLP : L → P) (ha : Advances F.ending bd)
  (hst : P → c F.last = true → ¬H ∧ F.Refuses bd ∨ H ∧ F.Repeats bd) :
  F.Cut H P (.whileDo c bd) (P ∧ c F.last = false) (P ∧ c F.last = false) := by
  intro fuel s ts hs hf
  have key : ∀ (k : ℕ) {s : σ} {ts : List τ}, F.At P s ts → ts.length < k → ts.length < fuel →
    F.Agrees H (P ∧ c F.last = false) (P ∧ c F.last = false)
    (repeatWhile (ofList F.ending).current c (run (ofList F.ending) fuel bd) k ts)
    (repeatWhile F.source.current c (run F.source fuel bd) k s) := by
    intro k
    -- along the rounds of the loop: each leaves fewer tokens
    induction k with
    | zero => intro s ts _ h; exact absurd h (Nat.not_lt_zero _)
    | succ k ih =>
      intro s ts hs hk hf
      cases ts with
      | nil => exact ends_repeatWhile hst hs k.succ_pos
      | cons t xs =>
        have hk' : 0 < k := by
          simp only [length_cons] at hk
          omega
        simp only [repeatWhile, hs.1.1, ofList, head?_cons]
        by_cases hc : c t = true
        · rw [if_pos hc, if_pos hc]
          refine (hb (hs.of_ne_nil (cons_ne_nil t xs)) hf).1.bind
            (fun b rest' s' hl hs' ↦ ?_) fun b s' hs' ↦ ?_
          · have hle := ha hl
            exact (ih hs' (by omega) (by omega)).bind (fun _ _ s'' _ hs'' ↦ ⟨s'', rfl, hs''⟩)
              fun bs s'' hs'' ↦ .inr (.inr ⟨b :: bs, s'', rfl, hs''⟩)
          · exact (ends_repeatWhile hst (hs'.mono hLP) hk').bind
              fun bs s'' hs'' ↦ .inr (.inr ⟨b :: bs, s'', rfl, hs''⟩)
        · rw [if_neg hc, if_neg hc]
          exact ⟨s, rfl, hs.of_ne_nil (cons_ne_nil t xs)⟩
  refine ⟨key fuel hs hf hf, ?_⟩
  rintro rfl
  exact ends_repeatWhile hst hs hf

end Cut

end Feed

end

variable {σ τ ε β γ : Type}

def readItems (src : Source σ τ ε) (item : Program τ ε β) (handle : β → γ → Except ε γ) (fuel : ℕ) :
  ℕ → σ → γ → Verdict ε γ
  | 0, _, _ => .pending
  | k + 1, s, c =>
    if src.atEnd s then .done c
    else
      (run src fuel item s).bind fun x ↦
        match handle x.1 c with
        | .error e => .failed e
        | .ok c' => readItems src item handle fuel k x.2 c'

inductive Items (ending : Option ε) (item : Program τ ε β) : List τ → List β → List τ → Prop
  | nil (ts : List τ) : Items ending item ts [] ts
  | cons {ts rest rest' : List τ} {b : β} {bs : List β}
      (h : run (ofList ending) (ts.length + 1) item ts = .done (b, rest))
      (hrest : Items ending item rest bs rest') : Items ending item ts (b :: bs) rest'

def handleAll (handle : β → γ → Except ε γ) : List β → γ → Except ε γ
  | [], c => .ok c
  | b :: bs, c =>
    match handle b c with
    | .error e => .error e
    | .ok c' => handleAll handle bs c'

section Mono

variable {src : Source σ τ ε} {item : Program τ ε β} {handle : β → γ → Except ε γ}

theorem readItems_mono {n n' k k' : ℕ} (hf : n ≤ n') (hk : k ≤ k') (s : σ) (c : γ)
  (h : readItems src item handle n k s c ≠ .pending) :
  readItems src item handle n' k' s c = readItems src item handle n k s c := by
  induction k generalizing k' s c with
  | zero => exact absurd rfl h
  | succ k ih =>
    obtain ⟨k', rfl⟩ : ∃ j, k' = j + 1 := ⟨k' - 1, by omega⟩
    simp only [readItems] at h ⊢
    by_cases he : src.atEnd s = true
    · rw [if_pos he, if_pos he]
    · rw [if_neg he] at h ⊢
      rw [if_neg he]
      have hne : run src n item s ≠ .pending := by
        intro hp
        rw [hp] at h
        exact h rfl
      rw [run_mono hf item s hne]
      cases hr : run src n item s with
      | pending => exact absurd hr hne
      | failed e => rfl
      | done x =>
        rw [hr] at h
        simp only [Verdict.bind] at h ⊢
        cases hh : handle x.1 c with
        | error e => rfl
        | ok c' =>
          rw [hh] at h
          exact ih (by omega) x.2 c' h

end Mono

section Items

variable {ending : Option ε} {item : Program τ ε β} {handle : β → γ → Except ε γ}
  {ts rest rest' : List τ} {bs bs' : List β} {c : γ}

theorem Items.linear (h : Items ending item ts bs rest) (h' : Items ending item ts bs' rest') :
  (∃ ds, Items ending item rest ds rest') ∨ ∃ ds, Items ending item rest' ds rest := by
  induction h generalizing bs' with
  | nil ts => exact .inl ⟨bs', h'⟩
  | cons hb hr ih =>
    cases h' with
    | nil => exact .inr ⟨_, .cons hb hr⟩
    | cons hb' hr' =>
      rw [hb] at hb'
      cases hb'
      exact ih hr'

theorem Items.length_le (h : Items ending item ts bs rest) : rest.length ≤ ts.length := by
  induction h with
  | nil ts => exact Nat.le_refl _
  | cons hb _ ih => exact Nat.le_trans ih (run_length_le hb)

def Unfinished (ending : Option ε) (item : Program τ ε β) (handle : β → γ → Except ε γ)
  (ts : List τ) (c : γ) : Prop :=
  ∃ bs c' rest, Items ending item ts bs rest ∧ handleAll handle bs c = .ok c' ∧ rest ≠ [] ∧
    run (ofList ending) (rest.length + 1) item rest = .pending

def LoneToken (ending : Option ε) (item : Program τ ε β) (handle : β → γ → Except ε γ)
  (ts : List τ) (c : γ) : Prop :=
  ∃ bs c' t, Items ending item ts bs [t] ∧ handleAll handle bs c = .ok c'

def Complete (ending : Option ε) (item : Program τ ε β) (handle : β → γ → Except ε γ)
  (ts : List τ) (c c' : γ) : Prop :=
  ∃ bs, Items ending item ts bs [] ∧ handleAll handle bs c = .ok c'

theorem handleAll_cons {b : β} {c₁ c' : γ} (hb : handle b c = .ok c₁)
  (hs : handleAll handle bs c₁ = .ok c') : handleAll handle (b :: bs) c = .ok c' := by
  simp only [handleAll, hb, hs]

end Items

namespace Feed

variable {F : Feed σ τ ε} {item : Program τ ε β} {handle : β → γ → Except ε γ} {H : Prop}
  {ts rest : List τ} {bs : List β} {c c' : γ} {s : σ} {fuel k : ℕ}

structure ReadsItems (F : Feed σ τ ε) (H : Prop) (item : Program τ ε β) : Prop where
  cut : F.Cut H False item True False
  advances : Advances F.ending item
  pair : ∀ t x, run (ofList F.ending) 2 item [t] ≠ .done x
  opening : H → run (ofList F.ending) 2 item [F.last] ≠ .pending

namespace ReadsItems

theorem atEnd_false (hi : F.ReadsItems H item) {b : β} (hs : F.Yields s ts)
  (h : run (ofList F.ending) (ts.length + 1) item ts = .done (b, rest)) :
  F.source.atEnd s = false := by
  cases ts with
  | nil => exact absurd (hi.advances h) (Nat.not_lt_zero _)
  | cons t ts =>
    cases ts with
    | nil => exact absurd h (hi.pair t (b, rest))
    | cons u ts => exact hs.2.2.1

theorem run_of_done (hi : F.ReadsItems H item) {b : β} (hs : F.Yields s ts) (hf : ts.length < fuel)
  (h : run (ofList F.ending) (ts.length + 1) item ts = .done (b, rest)) :
  ∃ s', run F.source fuel item s = .done (b, s') ∧ F.Yields s' rest := by
  have hne : ts ≠ [] := by
    rintro rfl
    exact absurd (hi.advances h) (Nat.not_lt_zero _)
  have hat : F.At False s ts := ⟨hs, fun h ↦ hne h⟩
  have ha := (hi.cut hat hf).1
  rw [run_stable item hf (Nat.lt_succ_self _), h] at ha
  obtain ⟨s', hr, hs'⟩ := ha
  exact ⟨s', hr, hs'.1⟩

theorem readItems_of_items (hi : F.ReadsItems H item) (h : Items F.ending item ts bs rest)
  (hha : handleAll handle bs c = .ok c') (hs : F.Yields s ts) (hf : ts.length < fuel) :
  ∃ s', F.Yields s' rest ∧ ∀ k, readItems F.source item handle fuel (k + bs.length) s c =
  readItems F.source item handle fuel k s' c' := by
  induction h generalizing s c with
  | nil ts =>
    cases hha
    exact ⟨s, hs, fun k ↦ rfl⟩
  | @cons ts rest rest' b bs hb hre ih =>
    obtain ⟨s₁, hr, hs₁⟩ := hi.run_of_done hs hf hb
    simp only [handleAll] at hha
    cases hh : handle b c with
    | error e =>
      rw [hh] at hha
      cases hha
    | ok c₁ =>
      rw [hh] at hha
      obtain ⟨s', hs', heq⟩ := ih hha hs₁ (Nat.lt_trans (hi.advances hb) hf)
      refine ⟨s', hs', fun k ↦ ?_⟩
      rw [← heq k, List.length_cons, ← Nat.add_assoc]
      simp only [readItems, hi.atEnd_false hs hb, Bool.false_eq_true, if_false, hr,
        Verdict.bind, hh]

theorem readItems_cases (hi : F.ReadsItems H item) (hs : F.Yields s ts)
  (hf : ts.length < fuel) (hk : ts.length < k) :
  (∃ c', readItems F.source item handle fuel k s c = .done c' ∧
  Complete F.ending item handle ts c c') ∨ (F.glued = true ∧ LoneToken F.ending item handle ts c) ∨
  (∃ e, readItems F.source item handle fuel k s c = .failed e) ∨
  H ∧ Unfinished F.ending item handle ts c := by
  induction k generalizing s ts c with
  | zero => exact absurd hk (Nat.not_lt_zero _)
  | succ k ih =>
    cases ts with
    | nil =>
      refine .inl ⟨c, ?_, [], .nil [], rfl⟩
      simp only [readItems, hs.2.2, if_true]
    | cons t rest =>
      by_cases hen : F.source.atEnd s = true
      · have hgl := hs.2.2.1.symm.trans hen
        rw [Bool.and_eq_true, List.isEmpty_iff] at hgl
        obtain ⟨rfl, hgl⟩ := hgl
        exact .inr (.inl ⟨hgl, [], c, t, .nil [t], rfl⟩)
      · have hat : F.At False s (t :: rest) := ⟨hs, fun h ↦ absurd h (List.cons_ne_nil t rest)⟩
        have ha := (hi.cut hat hf).1
        simp only [readItems, if_neg hen]
        have hst : run (ofList F.ending) fuel item (t :: rest) =
          run (ofList F.ending) ((t :: rest).length + 1) item (t :: rest) :=
          run_stable item hf (Nat.lt_succ_self _)
        cases hl : run (ofList F.ending) fuel item (t :: rest) with
        | failed e =>
          rw [hl] at ha
          rw [show run F.source fuel item s = .failed e from ha]
          exact .inr (.inr (.inl ⟨e, rfl⟩))
        | pending =>
          rw [hl] at ha
          rcases ha with ⟨e, hr, -⟩ | ⟨-, hH⟩ | ⟨a, s', -, -, hfa⟩
          · rw [hr]
            exact .inr (.inr (.inl ⟨e, rfl⟩))
          · exact .inr (.inr (.inr ⟨hH, [], c, t :: rest, .nil _, rfl, List.cons_ne_nil t rest,
              hst ▸ hl⟩))
          · exact (hfa rfl).elim
        | done x =>
          obtain ⟨b, rest'⟩ := x
          rw [hl] at ha
          obtain ⟨s', hr, hs'⟩ := ha
          have hle := hi.advances hl
          have hb := hst ▸ hl
          rw [hr]
          simp only [Verdict.bind]
          cases hh : handle b c with
          | error e => exact .inr (.inr (.inl ⟨e, rfl⟩))
          | ok c₁ =>
            rcases ih (c := c₁) hs'.1 (by omega) (by omega) with
              ⟨c', hc', bs, hbs, hal⟩ | ⟨hg, bs, c', u, hbs, hal⟩ | ⟨e, he⟩ |
              ⟨hH, bs, c', rest'', hbs, hal, hne, hp⟩
            · exact .inl ⟨c', hc', b :: bs, .cons hb hbs, handleAll_cons hh hal⟩
            · exact .inr (.inl ⟨hg, b :: bs, c', u, .cons hb hbs, handleAll_cons hh hal⟩)
            · exact .inr (.inr (.inl ⟨e, he⟩))
            · exact .inr (.inr (.inr ⟨hH, b :: bs, c', rest'', .cons hb hbs,
                handleAll_cons hh hal, hne, hp⟩))

theorem readItems_step_pending (hi : F.ReadsItems H item) (hH : H) (hs : F.Yields s rest)
  (h : rest ≠ []) (hp : run (ofList F.ending) (rest.length + 1) item rest = .pending)
  (hf : rest.length < fuel) (k : ℕ) : readItems F.source item handle fuel k s c = .pending := by
  cases k with
  | zero => rfl
  | succ k =>
    have he : F.source.atEnd s = false := by
      cases rest with
      | nil => exact absurd rfl h
      | cons t rest =>
        cases rest with
        | nil =>
          rw [hs.2.1 rfl] at hp
          exact absurd hp (hi.opening hH)
        | cons u rest => exact hs.2.2.1
    have hat : F.At False s rest := ⟨hs, h⟩
    have ha := (hi.cut hat hf).1
    rw [run_stable item hf (Nat.lt_succ_self _), hp] at ha
    rcases ha with ⟨e, -, hnH⟩ | ⟨hr, -⟩ | ⟨a, s', -, -, hfa⟩
    · exact absurd hH hnH
    · simp only [readItems, he, Bool.false_eq_true, if_false, hr, Verdict.bind]
    · exact (hfa rfl).elim

theorem readItems_pending (hi : F.ReadsItems H item) (hH : H)
  (h : Unfinished F.ending item handle ts c) (hs : F.Yields s ts) (n : ℕ) :
  readItems F.source item handle n n s c = .pending := by
  obtain ⟨bs, c', rest, hb, ha, hne, hp⟩ := h
  by_cases hn : readItems F.source item handle n n s c = .pending
  · exact hn
  · have hf : ts.length < n + ts.length + 1 := by omega
    obtain ⟨s', hs', he⟩ := hi.readItems_of_items hb ha hs hf
    have hl := hb.length_le
    rw [← readItems_mono (by omega : n ≤ n + ts.length + 1) (Nat.le_add_right n bs.length) s c hn,
      he n]
    exact hi.readItems_step_pending hH hs' hne hp (by omega) n

theorem readItems_loneToken (hi : F.ReadsItems H item) (hg : F.glued = true)
  (h : LoneToken F.ending item handle ts c) (hs : F.Yields s ts) {n : ℕ}
  (hn : readItems F.source item handle n n s c ≠ .pending) :
  ∃ c', readItems F.source item handle n n s c = .done c' := by
  obtain ⟨bs, c', t, hb, ha⟩ := h
  have hf : ts.length < n + ts.length + 1 := by omega
  obtain ⟨s', hs', hq⟩ := hi.readItems_of_items hb ha hs hf
  refine ⟨c', ?_⟩
  rw [← readItems_mono (by omega : n ≤ n + ts.length + 1) (by omega : n ≤ n + 1 + bs.length) s c hn,
    hq (n + 1)]
  have he := hs'.2.2.1.trans hg
  simp only [readItems, he, if_true]

theorem not_complete_of_loneToken (hi : F.ReadsItems H item)
  (h : LoneToken F.ending item handle ts c) : ¬Complete F.ending item handle ts c c' := by
  obtain ⟨bs, -, t, hbs, -⟩ := h
  rintro ⟨bs', hbs', -⟩
  rcases hbs.linear hbs' with ⟨ds, hds⟩ | ⟨ds, hds⟩
  · cases hds with
    | cons hb _ => exact hi.pair t _ hb
  · cases hds with
    | cons hb _ => exact absurd (hi.advances hb) (Nat.not_lt_zero _)

theorem readItems_iff (hi : F.ReadsItems H item) (hs : F.Yields s ts)
  (hd : β → γ → Except ε γ) (c : γ) : (∃ n, readItems F.source item hd n n s c ≠ .pending ∧
  ∀ c', readItems F.source item hd n n s c = .done c' → Complete F.ending item hd ts c c') ↔
  ¬(H ∧ Unfinished F.ending item hd ts c) ∧
  ¬(F.glued = true ∧ LoneToken F.ending item hd ts c) := by
  constructor
  · rintro ⟨n, hn, hco⟩
    refine ⟨fun h ↦ hn (hi.readItems_pending h.1 h.2 hs n), fun h ↦ ?_⟩
    obtain ⟨c', hc'⟩ := hi.readItems_loneToken h.1 h.2 hs hn
    exact hi.not_complete_of_loneToken h.2 (hco c' hc')
  · rintro ⟨hu, hl⟩
    have hlt := Nat.lt_succ_self ts.length
    refine ⟨ts.length + 1, ?_⟩
    rcases hi.readItems_cases hs hlt hlt with ⟨c', hc', hco⟩ | h | ⟨e, he⟩ | h
    · rw [hc']
      refine ⟨by simp, fun c'' h ↦ ?_⟩
      cases h
      exact hco
    · exact absurd h hl
    · rw [he]
      exact ⟨by simp, by simp⟩
    · exact absurd h hu

end ReadsItems

end Feed

end ReaverOS.Foundation.TokenProgram
