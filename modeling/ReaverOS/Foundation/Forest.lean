import Mathlib.Data.List.Basic

namespace ReaverOS.Foundation

open List

inductive Forest (α β : Type)
  | nil
  | tree (label : α) (children rest : Forest α β)
  | link (target : β) (rest : Forest α β)
  deriving DecidableEq

namespace Forest

variable {α β : Type}

def nodes : Forest α β → List (α × Forest α β)
  | nil => []
  | tree a c r => (a, c) :: (c.nodes ++ r.nodes)
  | link _ r => r.nodes

def labels : Forest α β → List α
  | nil => []
  | tree a c r => a :: (c.labels ++ r.labels)
  | link _ r => r.labels

def links : Forest α β → List β
  | nil => []
  | tree _ c r => c.links ++ r.links
  | link t r => t :: r.links

def row (key : α → β) : Forest α β → List β
  | nil => []
  | tree a _ r => key a :: r.row key
  | link t r => t :: r.row key

def level : Forest α β → ℕ → List (α × Forest α β)
  | nil, _ => []
  | tree a c r, 0 => (a, c) :: r.level 0
  | tree _ c r, n + 1 => c.level n ++ r.level (n + 1)
  | link _ r, n => r.level n

def height : Forest α β → ℕ
  | nil => 0
  | tree _ c r => max (c.height + 1) r.height
  | link _ r => r.height

def append : Forest α β → Forest α β → Forest α β
  | nil, f => f
  | tree a c r, f => tree a c (r.append f)
  | link t r, f => link t (r.append f)

theorem append_nil (f : Forest α β) : f.append nil = f := by
  induction f with
  | nil => rfl
  | tree a c r _ i => rw [append, i]
  | link t r ih => rw [append, ih]

theorem append_assoc (f g h : Forest α β) : (f.append g).append h = f.append (g.append h) := by
  induction f with
  | nil => rfl
  | tree a c r _ i => rw [append, append, append, i]
  | link t r ih => rw [append, append, append, ih]

theorem labels_eq_map_nodes (f : Forest α β) : f.labels = f.nodes.map Prod.fst := by
  induction f with
  | nil => rfl
  | tree a c r i ihr => simp [labels, nodes, i, ihr]
  | link t r ih => exact ih

variable {f : Forest α β}

theorem level_eq_nil {n : ℕ} (h : f.height ≤ n) : f.level n = [] := by
  induction f generalizing n with
  | nil => rfl
  | tree a c r ihc ihr =>
    obtain ⟨hc, hr⟩ := Nat.max_le.mp h
    cases n with
    | zero => omega
    | succ n => rw [level, ihc (by omega), ihr hr, List.append_nil]
  | link t r ih => exact ih h

variable {p : α × Forest α β}

theorem mem_nodes_iff : p ∈ f.nodes ↔ ∃ n, p ∈ f.level n := by
  induction f with
  | nil => simp [nodes, level]
  | tree a c r i ihr =>
    rw [nodes, mem_cons, mem_append, i, ihr]
    constructor
    · intro h
      obtain h | ⟨n, h⟩ | ⟨n, h⟩ := h
      · exact ⟨0, by simp [level, h]⟩
      · exact ⟨n + 1, by simp [level, h]⟩
      · refine ⟨n, ?_⟩
        cases n <;> simp [level, h]
    · rintro ⟨n, h⟩
      cases n with
      | zero =>
        obtain h | h := mem_cons.mp h
        · exact .inl h
        · exact .inr (.inr ⟨0, h⟩)
      | succ n =>
        obtain h | h := mem_append.mp h
        · exact .inr (.inl ⟨n, h⟩)
        · exact .inr (.inr ⟨n + 1, h⟩)
  | link t r ih => exact ih

theorem mem_flatMap_level_iff {h : ℕ} (hf : f.height ≤ h) :
  p ∈ (List.range h).flatMap f.level ↔ p ∈ f.nodes := by
  rw [mem_nodes_iff, mem_flatMap]
  constructor
  · rintro ⟨n, -, hp⟩
    exact ⟨n, hp⟩
  · rintro ⟨n, hp⟩
    refine ⟨n, mem_range.mpr ?_, hp⟩
    by_contra hn
    rw [level_eq_nil (by omega)] at hp
    cases hp

theorem mem_row_of_mem_labels (key : α → β) {a : α} (h : a ∈ f.labels) :
  key a ∈ f.row key ∨ ∃ p ∈ f.nodes, key a ∈ p.2.row key := by
  induction f with
  | nil => cases h
  | tree b c r i ihr =>
    obtain h | h := mem_cons.mp h
    · exact .inl (by simp [row, h])
    · obtain h | h := mem_append.mp h
      · right
        obtain h | ⟨p, hp, h⟩ := i h
        · exact ⟨(b, c), by simp [nodes], h⟩
        · exact ⟨p, by simp [nodes, hp], h⟩
      · obtain h | ⟨p, hp, h⟩ := ihr h
        · exact .inl (by simp [row, h])
        · exact .inr ⟨p, by simp [nodes, hp], h⟩
  | link t r ih =>
    obtain h | ⟨p, hp, h⟩ := ih h
    · exact .inl (by simp [row, h])
    · exact .inr ⟨p, hp, h⟩

theorem mem_of_mem_row (k : α → β) {b : β} (h : b ∈ f.row k) :
  b ∈ f.labels.map k ∨ b ∈ f.links := by
  induction f with
  | nil => cases h
  | tree a c r _ i =>
    obtain h | h := mem_cons.mp h
    · exact .inl (by simp [labels, h])
    · exact (i h).imp (by simp +contextual [labels]) (by simp +contextual [links])
  | link t r ih =>
    obtain h | h := mem_cons.mp h
    · exact .inr (by simp [links, h])
    · exact (ih h).imp id (by simp +contextual [links])

theorem nodes_sub (h : p ∈ f.nodes) : p.2.nodes ⊆ f.nodes ∧ p.2.links ⊆ f.links := by
  induction f with
  | nil => cases h
  | tree a c r i ihr =>
    obtain h | h := mem_cons.mp h
    · subst h
      exact ⟨fun x hx ↦ by simp [nodes, hx], fun x hx ↦ by simp [links, hx]⟩
    · obtain h | h := mem_append.mp h
      · obtain ⟨hl, hk⟩ := i h
        exact ⟨fun x hx ↦ by simp [nodes, hl hx], fun x hx ↦ by simp [links, hk hx]⟩
      · obtain ⟨hl, hk⟩ := ihr h
        exact ⟨fun x hx ↦ by simp [nodes, hl hx], fun x hx ↦ by simp [links, hk hx]⟩
  | link t r ih =>
    obtain ⟨hl, hk⟩ := ih h
    exact ⟨hl, fun x hx ↦ by simp [links, hk hx]⟩

theorem key_mem_row_of_mem_level_zero (key : α → β) (h : p ∈ f.level 0) : key p.1 ∈ f.row key := by
  induction f with
  | nil => cases h
  | tree a c r _ i =>
    obtain h | h := mem_cons.mp h
    · subst h
      exact mem_cons_self
    · exact mem_cons_of_mem _ (i h)
  | link t r ih => exact mem_cons_of_mem _ (ih h)

theorem exists_mem_level_zero {n : ℕ} (h : p ∈ f.level (n + 1)) :
  ∃ q ∈ f.level 0, p ∈ q.2.level n := by
  induction f with
  | nil => cases h
  | tree a c r _ i =>
    obtain h | h := mem_append.mp h
    · exact ⟨(a, c), mem_cons_self, h⟩
    · obtain ⟨q, hq, h⟩ := i h
      exact ⟨q, mem_cons_of_mem _ hq, h⟩
  | link t r ih => exact ih h

theorem height_le_length (f : Forest α β) : f.height ≤ f.labels.length := by
  induction f with
  | nil => exact Nat.le_refl _
  | tree a c r ihc ihr =>
    rw [height, labels, length_cons, length_append]
    omega
  | link t r ih => exact ih

end Forest

end ReaverOS.Foundation
