import Mathlib.Data.List.Forall2

namespace ReaverOS.Foundation.Fallible

universe u v

variable {ε : Type u} {α β : Type v}

@[simp]
theorem ok_bind (a : α) (f : α → Except ε β) : (Except.ok a >>= f) = f a :=
  rfl

@[simp]
theorem error_bind (e : ε) (f : α → Except ε β) : (Except.error e >>= f) = .error e :=
  rfl

theorem bind_eq_ok {x : Except ε α} {f : α → Except ε β} {b : β} (h : (x >>= f) = .ok b) :
  ∃ a, x = .ok a ∧ f a = .ok b := by
  cases x with
  | error e => cases h
  | ok a => exact ⟨a, rfl, h⟩

theorem bind_eq_error {x : Except ε α} {f : α → Except ε β} {e : ε} (h : (x >>= f) = .error e) :
  x = .error e ∨ ∃ a, x = .ok a ∧ f a = .error e := by
  cases x with
  | error e' =>
    cases h
    exact .inl rfl
  | ok a => exact .inr ⟨a, rfl, h⟩

section Supply

variable {σ : Type v} {short : ε}

def Settles (short : ε) (call : List σ → Except ε (α × List σ)) : Prop :=
  ∀ supply extra, call supply = .error short ∨
    call (supply ++ extra) = (call supply).map (Prod.map id (· ++ extra))

theorem Settles.ok (a : α) : Settles short fun supply : List σ ↦ .ok (a, supply) :=
  fun _ _ ↦ .inr rfl

theorem Settles.error (e : ε) : Settles short fun _ : List σ ↦ (.error e : Except ε (α × List σ)) :=
  fun _ _ ↦ .inr rfl

theorem Settles.bind {c : List σ → Except ε (α × List σ)}
  {nx : α → List σ → Except ε (β × List σ)} (h : Settles short c)
  (hn : ∀ a, Settles short (nx a)) : Settles short fun s ↦ c s >>= fun r ↦ nx r.1 r.2 := by
  intro s ex
  dsimp only
  rcases h s ex with hs | hsa
  · exact .inl (by rw [hs]; rfl)
  · rw [hsa]
    cases c s with
    | error e => exact .inr rfl
    | ok r => exact hn r.1 r.2 ex

theorem Settles.returns {c : List σ → Except ε (α × List σ)} (h : Settles short c)
  {s ex : List σ} {r : α × List σ} (ho : c (s ++ ex) = .ok r)
  (hs : c s ≠ .error short) : ∃ r', c s = .ok r' := by
  rcases h s ex with h' | h'
  · exact absurd h' hs
  · cases hc : c s with
    | error e =>
      rw [ho, hc] at h'
      cases h'
    | ok r' => exact ⟨r', rfl⟩

end Supply

end ReaverOS.Foundation.Fallible

namespace ReaverOS.Foundation.Stateful

open Fallible

variable {σ ε γ α β : Type} {f : σ → γ}

def Preserves (f : σ → γ) (m : StateT σ (Except ε) α) : Prop :=
  ∀ s a t, m s = .ok (a, t) → f t = f s

theorem Preserves.pure (a : α) : Preserves f (Pure.pure a : StateT σ (Except ε) α) := by
  rintro s b t ⟨⟩
  rfl

theorem Preserves.throw (e : ε) : Preserves f (throw e : StateT σ (Except ε) α) := by
  rintro s a t ⟨⟩

theorem Preserves.get : Preserves f (get : StateT σ (Except ε) σ) := by
  rintro s a t ⟨⟩
  rfl

theorem Preserves.modify {g : σ → σ} (h : ∀ s, f (g s) = f s) :
  Preserves f (modify g : StateT σ (Except ε) PUnit) := by
  rintro s a t ⟨⟩
  exact h s

variable {m : StateT σ (Except ε) α}

theorem Preserves.ite {p : Prop} [Decidable p] {n : StateT σ (Except ε) α} (hm : Preserves f m)
  (hn : Preserves f n) : Preserves f (if p then m else n) := by
  split
  · exact hm
  · exact hn

variable {k : α → StateT σ (Except ε) β}

theorem bind_apply_eq_ok {s t : σ} {b : β} (h : (m >>= k) s = .ok (b, t)) :
  ∃ a u, m s = .ok (a, u) ∧ k a u = .ok (b, t) := by
  obtain ⟨⟨a, u⟩, hm, hk⟩ := bind_eq_ok h
  exact ⟨a, u, hm, hk⟩

theorem Preserves.bind (hm : Preserves f m) (hk : ∀ a, Preserves f (k a)) :
  Preserves f (m >>= k) := by
  intro s b t h
  obtain ⟨a, u, hs, hr⟩ := bind_apply_eq_ok h
  exact (hk a u b t hr).trans (hm s a u hs)

theorem Preserves.mapM (hk : ∀ a, Preserves f (k a)) (as : List α) : Preserves f (as.mapM k) := by
  induction as with
  | nil => exact Preserves.pure _
  | cons a as ih =>
    rw [List.mapM_cons]
    exact (hk a).bind fun b ↦ ih.bind fun bs ↦ Preserves.pure _

theorem forall₂_of_mapM_eq_ok {R : α → β → Prop} {s t : σ} (hf : ∀ a, Preserves f (k a))
  (hk : ∀ a u b v, f u = f s → k a u = .ok (b, v) → R a b) {as : List α} {bs : List β}
  (h : as.mapM k s = .ok (bs, t)) : List.Forall₂ R as bs := by
  induction as generalizing bs s with
  | nil =>
    cases h
    exact .nil
  | cons a as ih =>
    rw [List.mapM_cons] at h
    obtain ⟨b, u, hh, h⟩ := bind_apply_eq_ok h
    obtain ⟨xs, v, ht, h⟩ := bind_apply_eq_ok h
    cases h
    have hke := hf a s b u hh
    exact .cons (hk a s b u rfl hh) (ih (fun a w b v hw ↦ hk a w b v (hw.trans hke)) ht)

def Avoids (P : ε → Prop) (m : StateT σ (Except ε) α) : Prop :=
  ∀ s e, m s = .error e → ¬ P e

variable {P : ε → Prop}

theorem Avoids.pure (a : α) : Avoids P (Pure.pure a : StateT σ (Except ε) α) := by
  rintro s e ⟨⟩

theorem Avoids.throw {e : ε} (he : ¬ P e) : Avoids P (throw e : StateT σ (Except ε) α) := by
  rintro s e' ⟨⟩
  exact he

theorem Avoids.get : Avoids P (get : StateT σ (Except ε) σ) := by
  rintro s e ⟨⟩

theorem Avoids.modify (g : σ → σ) : Avoids P (modify g : StateT σ (Except ε) PUnit) := by
  rintro s e ⟨⟩

theorem Avoids.ite {p : Prop} [Decidable p] {n : StateT σ (Except ε) α} (hm : Avoids P m)
  (hn : Avoids P n) : Avoids P (if p then m else n) := by
  split
  · exact hm
  · exact hn

theorem Avoids.bind (hm : Avoids P m) (hk : ∀ s a t, m s = .ok (a, t) → Avoids P (k a)) :
  Avoids P (m >>= k) := by
  intro s e h
  obtain hs | ⟨r, hs, hr⟩ := bind_eq_error h
  · exact hm s e hs
  · exact hk s r.1 r.2 hs r.2 e hr

theorem Avoids.mapM (hk : ∀ a, Avoids P (k a)) (as : List α) : Avoids P (as.mapM k) := by
  induction as with
  | nil => exact Avoids.pure _
  | cons a as ih =>
    rw [List.mapM_cons]
    exact (hk a).bind fun _ b _ _ ↦ ih.bind fun _ bs _ _ ↦ Avoids.pure _

end ReaverOS.Foundation.Stateful
