import Mathlib.Data.List.Nodup
import Mathlib.Logic.Relation

namespace ReaverOS.Foundation.DepthFirst

open List

variable {α : Type} {succ : α → List α} {seen : List α} {x y : α}

inductive Entry (α : Type)
  | first (a : α)
  | again (a : α)
  deriving DecidableEq

def firsts : List (Entry α) → List α
  | [] => []
  | .first a :: es => a :: firsts es
  | .again _ :: es => firsts es

@[simp]
theorem firsts_append (es es' : List (Entry α)) : firsts (es ++ es') = firsts es ++ firsts es' := by
  induction es with
  | nil => rfl
  | cons e es ih => cases e <;> simp [firsts, ih]

structure Explores (succ : α → List α) (seen row : List α) (es : List (Entry α)) : Prop where
  nodup : seen.Nodup → (seen ++ firsts es).Nodup
  row_subset : row ⊆ seen ++ firsts es
  closed : ∀ y ∈ firsts es, succ y ⊆ seen ++ firsts es
  reached : ∀ z ∈ firsts es, ∃ y ∈ row, Relation.ReflTransGen (fun a b ↦ b ∈ succ a) y z

theorem Explores.again (h : y ∈ seen) : Explores succ seen [y] [.again y] where
  nodup := by
    intro hn
    simpa [firsts] using hn
  row_subset := by simpa [firsts] using h
  closed := by simp [firsts]
  reached := by simp [firsts]

theorem Explores.append {ys : List α} {es es' : List (Entry α)} (h : Explores succ seen [y] es)
  (h' : Explores succ (seen ++ firsts es) ys es') : Explores succ seen (y :: ys) (es ++ es') where
  nodup := by
    intro hn
    rw [firsts_append, ← List.append_assoc]
    exact h'.nodup (h.nodup hn)
  row_subset := by
    rw [firsts_append, ← List.append_assoc]
    apply cons_subset.mpr
    refine ⟨?_, h'.row_subset⟩
    exact mem_append_left _ (h.row_subset mem_cons_self)
  closed := by
    intro z hz
    rw [firsts_append, ← List.append_assoc]
    rw [firsts_append] at hz
    obtain hz | hz := mem_append.mp hz
    · exact subset_append_of_subset_left _ (h.closed z hz)
    · exact h'.closed z hz
  reached := by
    intro z hz
    rw [firsts_append] at hz
    obtain hz | hz := mem_append.mp hz
    · obtain ⟨w, hw, hr⟩ := h.reached z hz
      exact ⟨w, mem_cons.mpr (.inl (mem_singleton.mp hw)), hr⟩
    · obtain ⟨w, hw, hr⟩ := h'.reached z hz
      exact ⟨w, mem_cons_of_mem _ hw, hr⟩

theorem Explores.first {es : List (Entry α)} (hx : x ∉ seen)
  (h : Explores succ (seen ++ [x]) (succ x) es) :
  Explores succ seen [x] (.first x :: es) where
  nodup := by
    intro hn
    have := h.nodup (hn.append (nodup_singleton x) (by simpa using hx))
    simpa [firsts] using this
  row_subset := by simp [firsts]
  closed := by
    intro y hy
    have hs : seen ++ firsts (.first x :: es) = seen ++ [x] ++ firsts es := by simp [firsts]
    rw [hs]
    obtain rfl | hy := mem_cons.mp hy
    · exact h.row_subset
    · exact h.closed y hy
  reached := by
    intro z hz
    refine ⟨x, mem_cons_self, ?_⟩
    obtain rfl | hz := mem_cons.mp hz
    · exact .refl
    · obtain ⟨y, hy, hr⟩ := h.reached z hz
      exact .head hy hr

variable [DecidableEq α]

def block (visit : List α → α → Option (List (Entry α))) (seen : List α) (y : α) :
  Option (List (Entry α)) :=
  if y ∈ seen then some [.again y] else visit seen y

def blocks (visit : List α → α → Option (List (Entry α))) :
  List α → List α → Option (List (List (Entry α)))
  | _, [] => some []
  | seen, y :: ys =>
    (block visit seen y).bind fun es ↦
      (blocks visit (seen ++ firsts es) ys).map fun rest ↦ es :: rest

def visit (succ : α → List α) : ℕ → List α → α → Option (List (Entry α))
  | 0, _, _ => none
  | n + 1, seen, x =>
    (blocks (visit succ n) (seen ++ [x]) (succ x)).map fun bs ↦ .first x :: bs.flatten

theorem blocks_cons_eq_some {v : List α → α → Option (List (Entry α))} {ys : List α}
  {bs : List (List (Entry α))} :
  blocks v seen (y :: ys) = some bs ↔ ∃ es rest, block v seen y = some es ∧
  blocks v (seen ++ firsts es) ys = some rest ∧ bs = es :: rest := by
  rw [blocks, Option.bind_eq_some_iff]
  constructor
  · rintro ⟨es, hes, h⟩
    obtain ⟨rest, hr, rfl⟩ := Option.map_eq_some_iff.mp h
    exact ⟨es, rest, hes, hr, rfl⟩
  · rintro ⟨es, rest, hes, hr, rfl⟩
    exact ⟨es, hes, Option.map_eq_some_iff.mpr ⟨rest, hr, rfl⟩⟩

theorem block_of_mem {v : List α → α → Option (List (Entry α))} (h : y ∈ seen) :
  block v seen y = some [.again y] :=
  if_pos h

theorem block_of_not_mem {v : List α → α → Option (List (Entry α))} (h : y ∉ seen) :
  block v seen y = v seen y :=
  if_neg h

theorem visit_succ_eq_some {n : ℕ} {es : List (Entry α)} :
  visit succ (n + 1) seen x = some es ↔ ∃ bs,
  blocks (visit succ n) (seen ++ [x]) (succ x) = some bs ∧ es = .first x :: bs.flatten := by
  rw [visit, Option.map_eq_some_iff]
  exact exists_congr fun bs ↦ and_congr_right fun _ ↦ eq_comm

end ReaverOS.Foundation.DepthFirst
