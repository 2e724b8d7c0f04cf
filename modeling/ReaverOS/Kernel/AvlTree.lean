import Mathlib.Order.Lattice
import ReaverOS.Foundation.SearchTree

namespace ReaverOS.Kernel.AvlTree

open Foundation.SearchTree

section

/-- `util::avl_tree`: every node is tagged with its balance factor. A path of crumbs stands for the
parent links of a node, and `none` for a null pointer dereferenced. -/
abbrev Avl (α : Type) := Tree ℤ α

variable {α : Type}

def setBalanceFactor (factor : ℤ) : Avl α → Option (Avl α)
  | .nil => none
  | .node _ l a r => some (.node factor l a r)

def balanceFactor : Avl α → Option ℤ
  | .nil => none
  | .node factor _ _ _ => some factor

def rotateLeft : Avl α → Option (Avl α)
  | .node f l a (.node g rl b rr) => some (.node g (.node f l a rl) b rr)
  | _ => none

def rotateRight : Avl α → Option (Avl α)
  | .node f (.node g ll b lr) a r => some (.node g ll b (.node f lr a r))
  | _ => none

def rebalanceLeft : Avl α → Option (Avl α)
  | .node _ l a right => do
    if (← balanceFactor right) = 0 then rotateLeft (.node 1 l a (← setBalanceFactor (-1) right))
    else rotateLeft (.node 0 l a (← setBalanceFactor 0 right))
  | .nil => none

def rebalanceRight : Avl α → Option (Avl α)
  | .node _ left a r => do
    if (← balanceFactor left) = 0 then rotateRight (.node (-1) (← setBalanceFactor 1 left) a r)
    else rotateRight (.node 0 (← setBalanceFactor 0 left) a r)
  | .nil => none

def rebalanceLeftRight : Avl α → Option (Avl α)
  | .node _ (.node _ ll b lr) a r => do
    let bf ← balanceFactor lr
    let node := if bf = 0 then 0 else if bf < 0 then 1 else 0
    let left := if bf = 0 then 0 else if bf < 0 then 0 else -1
    let l ← rotateLeft (.node left ll b lr)
    let ret ← rotateRight (.node node l a r)
    setBalanceFactor 0 ret
  | _ => none

def rebalanceRightLeft : Avl α → Option (Avl α)
  | .node _ l a (.node _ rl b rr) => do
    let bf ← balanceFactor rl
    let node := if bf = 0 then 0 else if bf > 0 then -1 else 0
    let right := if bf = 0 then 0 else if bf > 0 then 0 else 1
    let r ← rotateRight (.node right rl b rr)
    let ret ← rotateLeft (.node node l a r)
    setBalanceFactor 0 ret
  | _ => none

def insertRebalance (current : Avl α) : List (Crumb ℤ α) → Option (Avl α)
  | [] => some current
  | .right factor l a :: path => do
    if factor > 0 then
      let parent : Avl α := .node factor l a current
      let t ← if (← balanceFactor current) < 0 then rebalanceRightLeft parent
        else rebalanceLeft parent
      some (fill path t)
    else if factor < 0 then some (fill path (.node 0 l a current))
    else insertRebalance (.node 1 l a current) path
  | .left factor a r :: path => do
    if factor < 0 then
      let parent : Avl α := .node factor current a r
      let t ← if (← balanceFactor current) > 0 then rebalanceLeftRight parent
        else rebalanceRight parent
      some (fill path t)
    else if factor > 0 then some (fill path (.node 0 current a r))
    else insertRebalance (.node (-1) current a r) path

def way (less greater : α → Bool) (a : α) : Ordering :=
  if less a then .lt else if greater a then .gt else .eq

def insert (comp : α → α → Bool) (x : α) (t : Avl α) : Option (Avl α × Bool) :=
  match vacancy (way (comp x) (comp · x)) t [] with
  | none => some (t, false)
  | some path => (insertRebalance (.node 0 .nil x .nil) path).map fun t ↦ (t, true)

def find (less greater : α → Bool) (t : Avl α) : Option α :=
  t.search (way less greater)

end

open Option

section

variable {α : Type}

def height : Avl α → ℕ
  | .nil => 0
  | .node _ l _ r => max (height l) (height r) + 1

def Balanced : Avl α → Prop
  | .nil => True
  | .node factor l _ r =>
    factor = height r - height l ∧ -1 ≤ factor ∧ factor ≤ 1 ∧ Balanced l ∧ Balanced r

def PathBalanced : ℕ → List (Crumb ℤ α) → Prop
  | _, [] => True
  | h, .left factor _ r :: path =>
    (factor = height r - h ∧ -1 ≤ factor ∧ factor ≤ 1 ∧ Balanced r) ∧
      PathBalanced (max h (height r) + 1) path
  | h, .right factor l _ :: path =>
    (factor = h - height l ∧ -1 ≤ factor ∧ factor ≤ 1 ∧ Balanced l) ∧
      PathBalanced (max (height l) h + 1) path

theorem balanced_fill (p : List (Crumb ℤ α)) {t : Avl α} (ht : Balanced t)
  (hp : PathBalanced (height t) p) : Balanced (fill p t) := by
  induction p generalizing t with
  | nil => exact ht
  | cons c p ih =>
    cases c with
    | left factor a r =>
      obtain ⟨⟨hf, h, hh, hr⟩, hp⟩ := hp
      exact ih ⟨hf, h, hh, ht, hr⟩ hp
    | right factor l a =>
      obtain ⟨⟨hf, h, hh, hl⟩, hp⟩ := hp
      exact ih ⟨hf, h, hh, hl, ht⟩ hp

theorem balanced_of_fill (path : List (Crumb ℤ α)) {t : Avl α} (h : Balanced (fill path t)) :
  Balanced t ∧ PathBalanced (height t) path := by
  induction path generalizing t with
  | nil => exact ⟨h, trivial⟩
  | cons c path ih =>
    obtain ⟨hc, hp⟩ := ih h
    cases c with
    | left factor a r =>
      obtain ⟨hf, hlo, hh, ht, hr⟩ := hc
      exact ⟨ht, ⟨hf, hlo, hh, hr⟩, hp⟩
    | right factor l a =>
      obtain ⟨hf, hlo, hh, hl, ht⟩ := hc
      exact ⟨ht, ⟨hf, hlo, hh, hl⟩, hp⟩

theorem pathBalanced_append (p : List (Crumb ℤ α)) {p' : List (Crumb ℤ α)} {t : Avl α}
  (h : PathBalanced (height t) p) (h' : PathBalanced (height (fill p t)) p') :
  PathBalanced (height t) (p ++ p') := by
  induction p generalizing t with
  | nil => exact h'
  | cons c p ih =>
    cases c with
    | left factor a r =>
      obtain ⟨hc, hp⟩ := h
      exact ⟨hc, @ih (.node factor t a r) hp h'⟩
    | right factor l a =>
      obtain ⟨hc, hp⟩ := h
      exact ⟨hc, @ih (.node factor l a t) hp h'⟩

theorem pathBalanced_vacancy {w : α → Ordering} {t : Avl α} {p path' : List (Crumb ℤ α)}
  (ht : Balanced t) (hp : PathBalanced (height t) p)
  (h : vacancy w t p = some path') : PathBalanced 0 path' := by
  induction t generalizing p with
  | nil =>
    cases h
    exact hp
  | node factor l a r ih i =>
    obtain ⟨hf, hlo, hh, hl, hr⟩ := ht
    rw [vacancy] at h
    split at h
    next => cases h
    next =>
      have hle : PathBalanced (height l) (.left factor a r :: p) := ⟨⟨hf, hlo, hh, hr⟩, hp⟩
      exact ih hl hle h
    next =>
      have hri : PathBalanced (height r) (.right factor l a :: p) := ⟨⟨hf, hlo, hh, hl⟩, hp⟩
      exact i hr hri h

def Rebalances (t : Option (Avl α)) (l : Avl α) (a : α) (r : Avl α) (h : ℕ) : Prop :=
  ∃ t', t = some t' ∧ Balanced t' ∧ height t' = h ∧ t'.toList = l.toList ++ a :: r.toList

variable {l r : Avl α} {a : α} {factor : ℤ}

theorem rebalanceLeft_spec {g : ℤ} {n : ℕ} (hl : Balanced l) (hr : Balanced r)
  (hf : balanceFactor r = some g) (hlo : 0 ≤ g) (hh : height r = height l + 2)
  (hn : (n : ℤ) = height r + 1 - g) : Rebalances (rebalanceLeft (.node factor l a r)) l a r n := by
  cases r with
  | nil => cases hf
  | node g rl b rr =>
    cases hf
    obtain ⟨hg, -, hhi, h, hrr⟩ := hr
    simp only [height] at hh hn
    obtain rfl | rfl : g = 0 ∨ g = 1 := by omega
    · refine ⟨.node (-1) (.node 1 l a rl) b rr, rfl, ⟨?_, by decide, by decide,
        ⟨?_, by decide, by decide, hl, h⟩, hrr⟩, ?_, by simp [Tree.toList]⟩
      all_goals first | omega | (simp only [height]; omega)
    · refine ⟨.node 0 (.node 0 l a rl) b rr, rfl, ⟨?_, by decide, by decide,
        ⟨?_, by decide, by decide, hl, h⟩, hrr⟩, ?_, by simp [Tree.toList]⟩
      all_goals first | omega | (simp only [height]; omega)

theorem rebalanceRight_spec {g : ℤ} {n : ℕ} (hl : Balanced l) (hr : Balanced r)
  (hf : balanceFactor l = some g) (hhi : g ≤ 0) (hh : height l = height r + 2)
  (hn : (n : ℤ) = height l + 1 + g) : Rebalances (rebalanceRight (.node factor l a r)) l a r n := by
  cases l with
  | nil => cases hf
  | node g ll b lr =>
    cases hf
    obtain ⟨hg, hlo, -, hll, h⟩ := hl
    simp only [height] at hh hn
    obtain rfl | rfl : g = 0 ∨ g = -1 := by omega
    · refine ⟨.node 1 ll b (.node (-1) lr a r), rfl, ⟨?_, by decide, by decide, hll,
        ?_, by decide, by decide, h, hr⟩, ?_, by simp [Tree.toList]⟩
      all_goals first | omega | (simp only [height]; omega)
    · refine ⟨.node 0 ll b (.node 0 lr a r), rfl, ⟨?_, by decide, by decide, hll,
        ?_, by decide, by decide, h, hr⟩, ?_, by simp [Tree.toList]⟩
      all_goals first | omega | (simp only [height]; omega)

theorem balanced_double {t₁ t₂ t₃ t₄ : Avl α} {f g : ℤ} {b c : α} {n : ℕ}
  (h₁ : Balanced t₁) (h₂ : Balanced t₂) (h₃ : Balanced t₃) (h₄ : Balanced t₄)
  (hn₁ : height t₁ = n) (hn₄ : height t₄ = n) (hn : max (height t₂) (height t₃) = n)
  (hf : f = height t₂ - n) (hg : g = n - height t₃) (h : -1 ≤ f) (hgh : g ≤ 1) :
  Balanced (.node 0 (.node f t₁ b t₂) a (.node g t₃ c t₄)) ∧
  height (.node 0 (.node f t₁ b t₂) a (.node g t₃ c t₄)) = n + 2 := by
  refine ⟨⟨?_, by decide, by decide, ⟨?_, ?_, ?_, h₁, h₂⟩, ?_, ?_, ?_, h₃, h₄⟩, ?_⟩
  all_goals first | omega | (simp only [height]; omega)

theorem rebalanceRightLeft_spec (hl : Balanced l) (hr : Balanced r)
  (hf : balanceFactor r = some (-1)) (hh : height r = height l + 2) :
  Rebalances (rebalanceRightLeft (.node factor l a r)) l a r (height r) := by
  rw [hh]
  cases r with
  | nil => cases hf
  | node g rl b rr =>
    obtain rfl : g = -1 := some.inj hf
    obtain ⟨hg, -, -, hrl, hrr⟩ := hr
    cases rl with
    | nil =>
      simp only [height] at hg
      omega
    | node k rll c rlr =>
      obtain ⟨hk, hlo, hhi, h, hrlr⟩ := hrl
      simp only [height] at hh hg
      have hd (f g : ℤ) (hf : f = height rll - height l) (hg : g = height l - height rlr) :=
        @balanced_double _ c l rll rlr rr f g a b (height l) hl h hrlr hrr rfl (by omega)
          (by omega) hf hg (by omega) (by omega)
      obtain rfl | rfl | rfl : k = -1 ∨ k = 0 ∨ k = 1 := by omega
      · obtain ⟨hb, hhe⟩ := hd 0 1 (by omega) (by omega)
        exact ⟨_, rfl, hb, hhe, by simp [Tree.toList]⟩
      · obtain ⟨hb, hhe⟩ := hd 0 0 (by omega) (by omega)
        exact ⟨_, rfl, hb, hhe, by simp [Tree.toList]⟩
      · obtain ⟨hb, hhe⟩ := hd (-1) 0 (by omega) (by omega)
        exact ⟨_, rfl, hb, hhe, by simp [Tree.toList]⟩

theorem rebalanceLeftRight_spec (hl : Balanced l) (hr : Balanced r)
  (hf : balanceFactor l = some 1) (hh : height l = height r + 2) :
  Rebalances (rebalanceLeftRight (.node factor l a r)) l a r (height l) := by
  rw [hh]
  cases l with
  | nil => cases hf
  | node g ll b lr =>
    obtain rfl : g = 1 := some.inj hf
    obtain ⟨hg, -, -, hll, hlr⟩ := hl
    cases lr with
    | nil =>
      simp only [height] at hg
      omega
    | node k lrl c lrr =>
      obtain ⟨hk, hlo, hhi, h, hlrr⟩ := hlr
      simp only [height] at hh hg
      have hd (f g : ℤ) (hf : f = height lrl - height r) (hg : g = height r - height lrr) :=
        @balanced_double _ c ll lrl lrr r f g b a (height r) hll h hlrr hr (by omega) rfl
          (by omega) hf hg (by omega) (by omega)
      obtain rfl | rfl | rfl : k = -1 ∨ k = 0 ∨ k = 1 := by omega
      · obtain ⟨hb, hhe⟩ := hd 0 1 (by omega) (by omega)
        exact ⟨_, rfl, hb, hhe, by simp [Tree.toList]⟩
      · obtain ⟨hb, hhe⟩ := hd 0 0 (by omega) (by omega)
        exact ⟨_, rfl, hb, hhe, by simp [Tree.toList]⟩
      · obtain ⟨hb, hhe⟩ := hd (-1) 0 (by omega) (by omega)
        exact ⟨_, rfl, hb, hhe, by simp [Tree.toList]⟩

theorem balanceFactor_of_balanced {t : Avl α} {h : ℕ} (ht : Balanced t) (hh : height t = h + 1) :
  ∃ f, balanceFactor t = some f ∧ -1 ≤ f ∧ f ≤ 1 := by
  cases t with
  | nil => cases hh
  | node f l a r => exact ⟨f, rfl, ht.2.1, ht.2.2.1⟩

def Settles (t : Option (Avl α)) (path : List (Crumb ℤ α)) (as : List α) : Prop :=
  ∃ t', t = some t' ∧ Balanced t' ∧ t'.toList = before path ++ (as ++ after path)

theorem settles_fill {u : Avl α} {p : List (Crumb ℤ α)} (hu : Balanced u)
  (hp : PathBalanced (height u) p) : Settles (some (fill p u)) p u.toList :=
  ⟨_, rfl, balanced_fill p hu hp, toList_fill p u⟩

theorem Rebalances.settles {u : Option (Avl α)} {h : ℕ} {p : List (Crumb ℤ α)}
  (hu : Rebalances u l a r h) (hp : PathBalanced h p) :
  Settles (u.map (fill p)) p (l.toList ++ a :: r.toList) := by
  obtain ⟨t, rfl, ht, rfl, hl⟩ := hu
  rw [← hl]
  exact settles_fill ht hp

theorem settles_right {t : Option (Avl α)} {p : List (Crumb ℤ α)} {as : List α}
  (h : Settles t p (l.toList ++ a :: as)) : Settles t (.right factor l a :: p) as := by
  obtain ⟨t', ht, hb, hl⟩ := h
  exact ⟨t', ht, hb, by simp [hl, before, after]⟩

theorem settles_left {t : Option (Avl α)} {p : List (Crumb ℤ α)} {as : List α}
  (h : Settles t p (as ++ a :: r.toList)) : Settles t (.left factor a r :: p) as := by
  obtain ⟨t', ht, hb, hl⟩ := h
  exact ⟨t', ht, hb, by simp [hl, before, after]⟩

theorem insertRebalance_right {t : Avl α} {p : List (Crumb ℤ α)} {f : ℤ}
  (hf : balanceFactor t = some f) : insertRebalance t (.right 1 l a :: p) =
  (if f < 0 then rebalanceRightLeft (.node 1 l a t)
  else rebalanceLeft (.node 1 l a t)).map (fill p) := by
  rw [insertRebalance, if_pos (by decide), hf]
  rcases lt_or_ge f 0 with hn | hn
  · simp only [bind_eq_bind, bind_some, if_pos hn]
    exact map_eq_bind.symm
  · simp only [bind_eq_bind, bind_some, if_neg (not_lt.mpr hn)]
    exact map_eq_bind.symm

theorem insertRebalance_left {t : Avl α} {p : List (Crumb ℤ α)} {f : ℤ}
  (hf : balanceFactor t = some f) : insertRebalance t (.left (-1) a r :: p) =
  (if f > 0 then rebalanceLeftRight (.node (-1) t a r)
  else rebalanceRight (.node (-1) t a r)).map (fill p) := by
  rw [insertRebalance, if_pos (by decide), hf]
  rcases lt_or_ge 0 f with hp | hp
  · simp only [bind_eq_bind, bind_some, if_pos hp]
    exact map_eq_bind.symm
  · simp only [bind_eq_bind, bind_some, if_neg (not_lt.mpr hp)]
    exact map_eq_bind.symm

theorem insertRebalance_settles (p : List (Crumb ℤ α)) {t : Avl α} {h : ℕ} (ht : Balanced t)
  (hh : height t = h + 1) (hz : balanceFactor t = some 0 → h = 0)
  (hp : PathBalanced h p) : Settles (insertRebalance t p) p t.toList := by
  induction p generalizing t h with
  | nil => exact ⟨t, rfl, ht, by simp [before, after]⟩
  | cons c p ih =>
    obtain ⟨f, hf, hlo, hhi⟩ := balanceFactor_of_balanced ht hh
    have hs : h ≠ 0 → f = -1 ∨ f = 1 := by
      intro hn
      have : f ≠ 0 := fun h ↦ hn (hz (h ▸ hf))
      omega
    cases c with
    | right factor l a =>
      obtain ⟨⟨hfa, hfl, hfh, hl⟩, hp⟩ := hp
      apply settles_right
      obtain rfl | rfl | rfl : factor = 1 ∨ factor = -1 ∨ factor = 0 := by omega
      · rw [insertRebalance_right hf]
        rw [max_eq_right (by omega), ← hh] at hp
        obtain rfl | rfl := hs (by omega)
        · rw [if_pos (by decide)]
          exact (rebalanceRightLeft_spec hl ht hf (by omega)).settles hp
        · rw [if_neg (by decide)]
          exact (rebalanceLeft_spec hl ht hf (by decide) (by omega) (by omega)).settles hp
      · refine settles_fill ⟨by omega, by decide, by decide, hl, ht⟩ ?_
        rw [max_eq_left (by omega)] at hp
        rwa [height, max_eq_left (by omega)]
      · refine ih ⟨by omega, by decide, by decide, hl, ht⟩ ?_ (fun h ↦ by cases h) hp
        rw [height]
        omega
    | left factor a r =>
      obtain ⟨⟨hfa, hfl, hfh, hr⟩, hp⟩ := hp
      apply settles_left
      obtain rfl | rfl | rfl : factor = -1 ∨ factor = 1 ∨ factor = 0 := by omega
      · rw [insertRebalance_left hf]
        rw [max_eq_left (by omega), ← hh] at hp
        obtain rfl | rfl := hs (by omega)
        · rw [if_neg (by decide)]
          exact (rebalanceRight_spec ht hr hf (by decide) (by omega) (by omega)).settles hp
        · rw [if_pos (by decide)]
          exact (rebalanceLeftRight_spec ht hr hf (by omega)).settles hp
      · refine settles_fill ⟨by omega, by decide, by decide, ht, hr⟩ ?_
        rw [max_eq_right (by omega)] at hp
        rwa [height, max_eq_right (by omega)]
      · refine ih ⟨by omega, by decide, by decide, ht, hr⟩ ?_ (fun h ↦ by cases h) hp
        rw [height]
        omega

theorem insert_spec (comp : α → α → Bool) (x : α) {t : Avl α} (ht : Balanced t)
  (hfi : find (comp x) (comp · x) t = none) :
  ∃ t' path, insert comp x t = some (t', true) ∧ Balanced t' ∧
  vacancy (way (comp x) (comp · x)) t [] = some path ∧
  t.toList = before path ++ after path ∧ t'.toList = before path ++ x :: after path := by
  obtain ⟨path, hp⟩ : ∃ path, vacancy (way (comp x) (comp · x)) t [] = some path :=
    vacancy_isSome hfi
  have hr : PathBalanced (height t) ([] : List (Crumb ℤ α)) := trivial
  obtain ⟨t', ht', hb, hl⟩ := insertRebalance_settles path (t := .node 0 .nil x .nil)
    ⟨rfl, by decide, by decide, trivial, trivial⟩ rfl (fun _ ↦ rfl) (pathBalanced_vacancy ht hr hp)
  refine ⟨t', path, ?_, hb, hp, ?_, hl⟩
  · rw [insert, hp]
    simp only [ht', map_some]
  · have hf := congrArg Tree.toList (fill_vacancy hp)
    rw [toList_fill] at hf
    exact hf.symm

end

variable {α : Type}

def eraseRebalance (t : Avl α) : List (Crumb ℤ α) → Option (Avl α)
  | [] => some t
  | .left factor a r :: path =>
    if factor > 0 then
      (balanceFactor r).bind fun b ↦
        (if b < 0 then rebalanceRightLeft (.node factor t a r)
          else rebalanceLeft (.node factor t a r)).bind fun current ↦
            if b = 0 then some (fill path current) else eraseRebalance current path
    else if factor = 0 then some (fill path (.node 1 t a r))
    else eraseRebalance (.node 0 t a r) path
  | .right factor l a :: path =>
    if factor < 0 then
      (balanceFactor l).bind fun b ↦
        (if b > 0 then rebalanceLeftRight (.node factor l a t)
          else rebalanceRight (.node factor l a t)).bind fun current ↦
            if b = 0 then some (fill path current) else eraseRebalance current path
    else if factor = 0 then some (fill path (.node (-1) l a t))
    else eraseRebalance (.node 0 l a t) path

def eraseRoot (factor : ℤ) (l : Avl α) (a : α) (rr : Avl α) : Option (Avl α) :=
  if factor < 0 then rebalanceRight (.node (factor - 1) l a rr)
  else some (.node (factor - 1) l a rr)

variable {l r : Avl α} {a : α} {factor : ℤ}

theorem Rebalances.settles_onward {u : Option (Avl α)} {h : ℕ} {b : ℤ} {p : List (Crumb ℤ α)}
  (hu : Rebalances u l a r h) (hb : b ≠ 0) (hp : ∀ {t : Avl α}, Balanced t → height t = h →
  Settles (eraseRebalance t p) p t.toList) : Settles (u.bind fun c ↦ if b = 0 then some (fill p c)
  else eraseRebalance c p) p (l.toList ++ a :: r.toList) := by
  obtain ⟨t, rfl, ht, hh, hl⟩ := hu
  rw [bind_some, if_neg hb, ← hl]
  exact hp ht hh

theorem Rebalances.settles_stop {u : Option (Avl α)} {h : ℕ} {p : List (Crumb ℤ α)}
  (hu : Rebalances u l a r h) (hp : PathBalanced h p) :
  Settles (u.bind fun c ↦ if (0 : ℤ) = 0 then some (fill p c)
  else eraseRebalance c p) p (l.toList ++ a :: r.toList) := by
  obtain ⟨t, rfl, ht, rfl, hl⟩ := hu
  rw [bind_some, if_pos rfl, ← hl]
  exact settles_fill ht hp

theorem eraseRebalance_settles (p : List (Crumb ℤ α)) {t : Avl α} {h : ℕ} (ht : Balanced t)
  (hh : height t = h) (hp : PathBalanced (h + 1) p) : Settles (eraseRebalance t p) p t.toList := by
  induction p generalizing t h with
  | nil => exact ⟨t, rfl, ht, by simp [before, after]⟩
  | cons c p ih =>
    cases c with
    | left factor a r =>
      obtain ⟨⟨hf, hfl, hfh, hr⟩, hp⟩ := hp
      apply settles_left
      rw [eraseRebalance]
      obtain rfl | rfl | rfl : factor = 1 ∨ factor = 0 ∨ factor = -1 := by omega
      · obtain ⟨b, hb, hbl, hbh⟩ := balanceFactor_of_balanced (h := h + 1) hr (by omega)
        rw [if_pos (by decide), hb, bind_some]
        rw [max_eq_right (by omega)] at hp
        obtain rfl | rfl | rfl : b = -1 ∨ b = 0 ∨ b = 1 := by omega
        · rw [if_pos (by decide)]
          exact (rebalanceRightLeft_spec ht hr hb (by omega)).settles_onward (by decide)
            fun ht' hh' ↦ ih ht' hh' hp
        · rw [if_neg (by decide)]
          exact (rebalanceLeft_spec ht hr hb le_rfl (by omega) (by omega)).settles_stop hp
        · rw [if_neg (by decide)]
          exact (rebalanceLeft_spec ht hr hb (by decide) (by omega) (by omega)).settles_onward
            (by decide) fun ht' hh' ↦ ih ht' hh' hp
      · rw [if_neg (by decide), if_pos rfl]
        refine settles_fill ⟨by omega, by decide, by decide, ht, hr⟩ ?_
        rw [height, hh, max_eq_right (by omega)]
        rwa [max_eq_right (by omega)] at hp
      · rw [if_neg (by decide), if_neg (by decide)]
        rw [max_eq_left (by omega)] at hp
        refine ih ⟨by omega, by decide, by decide, ht, hr⟩ ?_ hp
        rw [height]
        omega
    | right factor l a =>
      obtain ⟨⟨hf, hfl, hfh, hl⟩, hp⟩ := hp
      apply settles_right
      rw [eraseRebalance]
      obtain rfl | rfl | rfl : factor = -1 ∨ factor = 0 ∨ factor = 1 := by omega
      · obtain ⟨b, hb, hbl, hbh⟩ := balanceFactor_of_balanced (h := h + 1) hl (by omega)
        rw [if_pos (by decide), hb, bind_some]
        rw [max_eq_left (by omega)] at hp
        obtain rfl | rfl | rfl : b = 1 ∨ b = 0 ∨ b = -1 := by omega
        · rw [if_pos (by decide)]
          exact (rebalanceLeftRight_spec hl ht hb (by omega)).settles_onward (by decide)
            fun ht' hh' ↦ ih ht' hh' hp
        · rw [if_neg (by decide)]
          exact (rebalanceRight_spec hl ht hb le_rfl (by omega) (by omega)).settles_stop hp
        · rw [if_neg (by decide)]
          exact (rebalanceRight_spec hl ht hb (by decide) (by omega) (by omega)).settles_onward
            (by decide) fun ht' hh' ↦ ih ht' hh' hp
      · rw [if_neg (by decide), if_pos rfl]
        refine settles_fill ⟨by omega, by decide, by decide, hl, ht⟩ ?_
        rw [height, hh, max_eq_left (by omega)]
        rwa [max_eq_left (by omega)] at hp
      · rw [if_neg (by decide), if_neg (by decide)]
        rw [max_eq_right (by omega)] at hp
        refine ih ⟨by omega, by decide, by decide, hl, ht⟩ ?_ hp
        rw [height]
        omega

theorem not_balanced_rebalanceRight {t : Avl α} (hl : Balanced l) (hf : balanceFactor l = some 1)
  (hh : height l = height r + 2) (ht : rebalanceRight (.node factor l a r) = some t) :
  t.toList = l.toList ++ a :: r.toList ∧ ¬ Balanced t := by
  cases l with
  | nil => cases hf
  | node g ll b lr =>
    obtain rfl : g = 1 := some.inj hf
    obtain ⟨hg, -, -, -, -⟩ := hl
    cases ht
    refine ⟨by simp [Tree.toList], fun h ↦ ?_⟩
    obtain ⟨hr, -, -, -, -⟩ := h
    simp only [height] at hh hg hr
    omega

theorem eraseRoot_spec {e n : α} {g : ℤ} {rr : Avl α}
  (h : Balanced (.node factor l e (.node g .nil n rr))) :
  ∃ t, eraseRoot factor l n rr = some t ∧ t.toList = l.toList ++ n :: rr.toList ∧
  (Balanced t ↔ ¬ (factor = -1 ∧ balanceFactor l = some 1)) := by
  obtain ⟨hf, hlo, hhi, hbl, -, -, -, -, hrr⟩ := h
  simp only [height] at hf
  rw [eraseRoot]
  by_cases hn : factor < 0
  · obtain rfl : factor = -1 := by omega
    have hh : height l = height rr + 2 := by omega
    obtain ⟨b, hb, hbw, hbh⟩ := balanceFactor_of_balanced hbl hh
    rw [if_pos hn, hb]
    obtain rfl | hb' : b = 1 ∨ b ≤ 0 := by omega
    · cases hr : rebalanceRight (.node (-1 - 1) l n rr) with
      | none =>
        cases l with
        | nil => cases hb
        | node k ll c lr =>
          cases hb
          cases hr
      | some t =>
        obtain ⟨hl, hno⟩ := not_balanced_rebalanceRight hbl hb hh hr
        exact ⟨t, rfl, hl, by simp [hno]⟩
    · have hs : Rebalances (rebalanceRight (.node (-1 - 1) l n rr)) l n rr
        (height l + 1 + b).toNat := rebalanceRight_spec hbl hrr hb hb' hh (by omega)
      obtain ⟨t, ht, hba, -, hl⟩ := hs
      exact ⟨t, ht, hl, iff_of_true hba fun h ↦ by cases h.2; omega⟩
  · rw [if_neg hn]
    refine ⟨_, rfl, rfl, iff_of_true ?_ (by omega)⟩
    exact ⟨by omega, by omega, by omega, hbl, hrr⟩

end ReaverOS.Kernel.AvlTree
