import Mathlib.Data.List.Basic

namespace ReaverOS.Foundation.TokenProgram

variable {σ τ ε α β γ : Type}

inductive Verdict (ε α : Type)
  | done (a : α)
  | failed (e : ε)
  | pending
  deriving DecidableEq

def Verdict.bind (r : Verdict ε α) (f : α → Verdict ε β) : Verdict ε β :=
  match r with
  | done a => f a
  | failed e => failed e
  | pending => pending

inductive Program (τ ε : Type) : Type → Type 1
  | pure {α : Type} (a : α) : Program τ ε α
  | bind {α β : Type} (p : Program τ ε β) (f : β → Program τ ε α) : Program τ ε α
  | token : Program τ ε τ
  | advance : Program τ ε Unit
  | fail {α : Type} (e : ε) : Program τ ε α
  | whileDo {β : Type} (cond : τ → Bool) (body : Program τ ε β) : Program τ ε (List β)

instance instMonadProgram : Monad (Program τ ε) where
  pure := .pure
  bind := .bind

/-- Where tokens come from. A source that has no token in front leaves the program waiting. -/
structure Source (σ τ ε : Type) where
  current : σ → Option τ
  next : σ → Except ε σ
  atEnd : σ → Bool

def repeatWhile (current : σ → Option τ) (cond : τ → Bool) (body : σ → Verdict ε (β × σ)) :
  ℕ → σ → Verdict ε (List β × σ)
  | 0, _ => .pending
  | fuel + 1, s =>
    match current s with
    | none => .pending
    | some t =>
      if cond t then
        (body s).bind fun x ↦
          (repeatWhile current cond body fuel x.2).bind fun xs ↦ .done (x.1 :: xs.1, xs.2)
      else .done ([], s)

def run (src : Source σ τ ε) (fuel : ℕ) : {α : Type} → Program τ ε α → σ → Verdict ε (α × σ)
  | _, .pure a, s => .done (a, s)
  | _, .bind p f, s => (run src fuel p s).bind fun x ↦ run src fuel (f x.1) x.2
  | _, .token, s =>
    match src.current s with
    | none => .pending
    | some t => .done (t, s)
  | _, .advance, s =>
    match src.next s with
    | .error e => .failed e
    | .ok s' => .done ((), s')
  | _, .fail e, _ => .failed e
  | _, .whileDo cond body, s => repeatWhile src.current cond (run src fuel body) fuel s

def accept (wanted : τ → Bool) (refusal : τ → ε) : Program τ ε τ := do
  let t ← .token
  if wanted t then
    .advance
    return t
  else .fail (refusal t)

def choose (test : τ → Bool) (p q : Program τ ε α) : Program τ ε α := do
  let t ← .token
  if test t then p else q

theorem Verdict.bind_eq_done {r : Verdict ε α} {f : α → Verdict ε β} {b : β} :
  r.bind f = .done b ↔ ∃ a, r = .done a ∧ f a = .done b := by
  cases r <;> simp [Verdict.bind]

section Run

variable {src : Source σ τ ε} {fuel : ℕ} {s : σ}

theorem run_bind (p : Program τ ε β) (f : β → Program τ ε α) :
  run src fuel (p >>= f) s = (run src fuel p s).bind fun x ↦ run src fuel (f x.1) x.2 := rfl

theorem run_token {t : τ} (h : src.current s = some t) :
  run src fuel (.token : Program τ ε τ) s = .done (t, s) := by
  simp only [run, h]

theorem run_token_bind {t : τ} (h : src.current s = some t) (f : τ → Program τ ε α) :
  run src fuel (.token >>= f) s = run src fuel (f t) s := by
  rw [run_bind, run_token h]
  rfl

theorem run_token_bind_none (h : src.current s = none) (f : τ → Program τ ε α) :
  run src fuel (.token >>= f) s = .pending := by
  simp only [run_bind, run, h, Verdict.bind]

theorem run_choose {t : τ} (h : src.current s = some t) (te : τ → Bool) (p q : Program τ ε α) :
  run src fuel (choose te p q) s = run src fuel (if te t then p else q) s :=
  run_token_bind h _

theorem run_accept {t : τ} (h : src.current s = some t) (w : τ → Bool) (r : τ → ε) :
  run src fuel (accept w r) s =
  if w t then
  match src.next s with
  | .error e => .failed e
  | .ok s' => .done (t, s')
  else .failed (r t) := by
  rw [accept, run_token_bind h]
  by_cases hw : w t = true
  · rw [if_pos hw, if_pos hw, run_bind]
    simp only [run]
    cases src.next s <;> rfl
  · rw [if_neg hw, if_neg hw]
    rfl

end Run

section Mono

variable {src : Source σ τ ε}

theorem repeatWhile_mono {c : τ → Bool} {b b' : σ → Verdict ε (β × σ)}
  (hbo : ∀ s, b s ≠ .pending → b' s = b s) {n n' : ℕ} (hle : n ≤ n')
  (s : σ) (h : repeatWhile src.current c b n s ≠ .pending) :
  repeatWhile src.current c b' n' s = repeatWhile src.current c b n s := by
  induction n generalizing n' s with
  | zero => exact absurd rfl h
  | succ n ih =>
    obtain ⟨n', rfl⟩ : ∃ k, n' = k + 1 := ⟨n' - 1, by omega⟩
    simp only [repeatWhile] at h ⊢
    cases hc : src.current s with
    | none => rfl
    | some t =>
      simp only [hc] at h ⊢
      by_cases ht : c t = true
      · rw [if_pos ht] at h ⊢
        rw [if_pos ht]
        cases hb : b s with
        | pending =>
          rw [hb] at h
          exact absurd rfl h
        | failed e => rw [hbo s (by simp [hb]), hb]; rfl
        | done x =>
          rw [hb] at h
          rw [hbo s (by simp [hb]), hb]
          simp only [Verdict.bind] at h ⊢
          rw [ih (by omega) x.2 (fun hp ↦ h (by rw [hp]))]
      · rw [if_neg ht, if_neg ht]

theorem run_mono {n n' : ℕ} (hl : n ≤ n') (p : Program τ ε α) (s : σ)
  (h : run src n p s ≠ .pending) : run src n' p s = run src n p s := by
  induction p generalizing s with
  | pure a => rfl
  | bind p f i ihf =>
    simp only [run] at h ⊢
    cases hp : run src n p s with
    | pending =>
      rw [hp] at h
      exact absurd rfl h
    | failed e => rw [i s (by simp [hp]), hp]; rfl
    | done x =>
      rw [hp] at h
      rw [i s (by simp [hp]), hp]
      exact ihf x.1 x.2 h
  | token => rfl
  | advance => rfl
  | fail e => rfl
  | whileDo c b ih => exact repeatWhile_mono (fun s ↦ ih s) hl s h

end Mono

end ReaverOS.Foundation.TokenProgram
