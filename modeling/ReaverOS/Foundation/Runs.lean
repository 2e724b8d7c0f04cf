import Mathlib.Logic.Relation

namespace ReaverOS.Foundation.Runs

variable {σ α : Type*} {step : σ → α → Option σ} {allowed : σ → α → Prop} {s t : σ}

def Reachable (step : σ → α → Option σ) (allowed : σ → α → Prop) : σ → σ → Prop :=
  Relation.ReflTransGen fun s t ↦ ∃ a, allowed s a ∧ step s a = some t

def Unrestricted : σ → α → Prop := fun _ _ ↦ True

def exec (step : σ → α → Option σ) : σ → List α → Option σ
  | s, [] => some s
  | s, a :: as => (step s a).bind fun t ↦ exec step t as

theorem Reachable.refl (st : σ → α → Option σ) (a : σ → α → Prop) (s : σ) :
  Reachable st a s s :=
  Relation.ReflTransGen.refl

theorem Reachable.head {u : σ} (a : α) (ha : allowed s a) (hs : step s a = some u)
  (h : Reachable step allowed u t) : Reachable step allowed s t :=
  Relation.ReflTransGen.head ⟨a, ha, hs⟩ h

theorem Reachable.trans {u : σ} (h : Reachable step allowed s t) (h' : Reachable step allowed t u) :
  Reachable step allowed s u :=
  Relation.ReflTransGen.trans h h'

theorem Reachable.invariant {I : σ → Prop} (h : Reachable step allowed s t) (hs : I s)
  (hst : ∀ s a t, I s → allowed s a → step s a = some t → I t) : I t := by
  induction h with
  | refl => exact hs
  | tail _ hl ih =>
    obtain ⟨a, ha, hl⟩ := hl
    exact hst _ a _ ih ha hl

theorem exec_append (as bs : List α) :
  exec step s (as ++ bs) = (exec step s as).bind fun t ↦ exec step t bs := by
  induction as generalizing s with
  | nil => rfl
  | cons a as ih =>
    rw [List.cons_append, exec, exec, Option.bind_assoc]
    exact congrArg _ (funext fun _ ↦ ih)

theorem Reachable.of_exec {as : List α} (hl : ∀ a ∈ as, ∀ s, allowed s a)
  (h : exec step s as = some t) : Reachable step allowed s t := by
  induction as generalizing s with
  | nil =>
    cases h
    exact Reachable.refl _ _ _
  | cons a as ih =>
    obtain ⟨ha, hl⟩ := List.forall_mem_cons.mp hl
    obtain ⟨u, hs, hr⟩ := Option.bind_eq_some_iff.mp h
    exact Reachable.head a (ha s) hs (ih hl hr)

theorem Reachable.of_exec_split {as bs : List α} {a : α} (has : ∀ b ∈ as, ∀ s, allowed s b)
  (ha : ∀ u, exec step s as = some u → allowed u a) (hb : ∀ b ∈ bs, ∀ s, allowed s b)
  (h : exec step s (as ++ a :: bs) = some t) : Reachable step allowed s t := by
  rw [exec_append] at h
  obtain ⟨u, hu, hr⟩ := Option.bind_eq_some_iff.mp h
  obtain ⟨v, hs, hr⟩ := Option.bind_eq_some_iff.mp hr
  exact (Reachable.of_exec has hu).trans (Reachable.head a (ha u hu) hs (Reachable.of_exec hb hr))

theorem Reachable.of_any {as : List α} {p : σ → Bool} (h : (exec step s as).any p = true) :
  ∃ t, Reachable step Unrestricted s t ∧ p t = true := by
  obtain ⟨t, he, hp⟩ := (Option.any_eq_true _ _).mp h
  exact ⟨t, Reachable.of_exec (fun _ _ _ ↦ trivial) he, hp⟩

end ReaverOS.Foundation.Runs
