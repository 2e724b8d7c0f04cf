import Mathlib.Data.List.Induction
import Mathlib.Data.List.Nodup
import Mathlib.Tactic.Ring
import ReaverOS.Foundation.BinaryHeap
import ReaverOS.Kernel.TreeHeap

namespace ReaverOS.Kernel.TreeHeap

open Function Foundation.BinaryHeap

section

section Fields

variable {α : Type*} [DecidableEq α] (h : TreeHeap α) (x y : α) (v : Option α)

@[simp] theorem setPrev_prev : (h.setPrev x v).prev y = if y = x then v else h.prev y :=
  update_apply ..

@[simp] theorem setPrev_next : (h.setPrev x v).next = h.next := rfl

@[simp] theorem setPrev_treeParent : (h.setPrev x v).treeParent = h.treeParent := rfl

@[simp] theorem setPrev_top : (h.setPrev x v).top = h.top := rfl

@[simp] theorem setPrev_size : (h.setPrev x v).size = h.size := rfl

@[simp] theorem setNext_next : (h.setNext x v).next y = if y = x then v else h.next y :=
  update_apply ..

@[simp] theorem setNext_prev : (h.setNext x v).prev = h.prev := rfl

@[simp] theorem setNext_treeParent : (h.setNext x v).treeParent = h.treeParent := rfl

@[simp] theorem setNext_top : (h.setNext x v).top = h.top := rfl

@[simp] theorem setNext_size : (h.setNext x v).size = h.size := rfl

@[simp] theorem setTreeParent_treeParent :
  (h.setTreeParent x v).treeParent y = if y = x then v else h.treeParent y :=
  update_apply ..

@[simp] theorem setTreeParent_prev : (h.setTreeParent x v).prev = h.prev := rfl

@[simp] theorem setTreeParent_next : (h.setTreeParent x v).next = h.next := rfl

@[simp] theorem setTreeParent_top : (h.setTreeParent x v).top = h.top := rfl

@[simp] theorem setTreeParent_size : (h.setTreeParent x v).size = h.size := rfl

@[simp] theorem adopt_treeParent :
  (h.adopt v x).treeParent y = if v = some y then some x else h.treeParent y := by
  cases v with
  | none => simp [adopt]
  | some c => simp [adopt, eq_comm]

@[simp] theorem adopt_prev : (h.adopt v x).prev = h.prev := by
  cases v <;> rfl

@[simp] theorem adopt_next : (h.adopt v x).next = h.next := by
  cases v <;> rfl

@[simp] theorem adopt_top : (h.adopt v x).top = h.top := by
  cases v <;> rfl

@[simp] theorem adopt_size : (h.adopt v x).size = h.size := by
  cases v <;> rfl

end Fields

variable {α : Type*} {h : TreeHeap α} {p c : α} {n i j k : ℕ} {f : ℕ → α}

def place (n : ℕ) (f : ℕ → α) (i : ℕ) : Option α := if 1 ≤ i ∧ i ≤ n then some (f i) else none

structure Arranged (h : TreeHeap α) (n : ℕ) (f : ℕ → α) : Prop where
  top : h.top = place n f 1
  inj : ∀ i j, 1 ≤ i → i ≤ n → 1 ≤ j → j ≤ n → f i = f j → i = j
  prev : ∀ i, 1 ≤ i → i ≤ n → h.prev (f i) = place n f (2 * i)
  next : ∀ i, 1 ≤ i → i ≤ n → h.next (f i) = place n f (2 * i + 1)
  treeParent : ∀ i, 1 ≤ i → i ≤ n → h.treeParent (f i) = place n f (i / 2)

def Among (n : ℕ) (f : ℕ → α) (x : α) : Prop := ∃ i, 1 ≤ i ∧ i ≤ n ∧ f i = x

def Frame (n : ℕ) (f : ℕ → α) (h h' : TreeHeap α) : Prop :=
  ∀ x, ¬ Among n f x →
    h'.prev x = h.prev x ∧ h'.next x = h.next x ∧ h'.treeParent x = h.treeParent x

theorem place_of_le (hi : 1 ≤ i) (hn : i ≤ n) : place n f i = some (f i) := if_pos ⟨hi, hn⟩

theorem place_eq_none (hi : i = 0 ∨ n < i) : place n f i = none := if_neg (by omega)

theorem exists_of_place {x : α} (hx : place n f i = some x) : 1 ≤ i ∧ i ≤ n ∧ f i = x := by
  rw [place] at hx
  split at hx
  next hi => exact ⟨hi.1, hi.2, Option.some.inj hx⟩
  next => cases hx

theorem Arranged.place_eq_some (a : Arranged h n f) (hk : 1 ≤ k) (hkn : k ≤ n) :
  place n f i = some (f k) ↔ i = k := by
  refine ⟨fun he ↦ ?_, ?_⟩
  · obtain ⟨hi, hin, hf⟩ := exists_of_place he
    exact a.inj i k hi hin hk hkn hf
  · rintro rfl
    exact place_of_le hk hkn

theorem place_swap (hi : 1 ≤ i) (hn : i ≤ n) (hj : 1 ≤ j) (hjn : j ≤ n) :
  place n (f ∘ Equiv.swap i j) k =
  if k = i then some (f j) else if k = j then some (f i) else place n f k := by
  rcases eq_or_ne k i with rfl | hki
  · rw [place_of_le hi hn, swap_left, if_pos rfl]
  rw [if_neg hki]
  rcases eq_or_ne k j with rfl | hkj
  · rw [place_of_le hj hjn, swap_right, if_pos rfl]
  · rw [if_neg hkj, place, place, swap_of_ne hki hkj]

theorem swap_mem_range (hi : 1 ≤ i) (hin : i ≤ n) (hj : 1 ≤ j) (hjn : j ≤ n) (hk : 1 ≤ k)
  (hkn : k ≤ n) : 1 ≤ Equiv.swap i j k ∧ Equiv.swap i j k ≤ n := by
  rw [Equiv.swap_apply_def]
  split_ifs <;> omega

theorem among_swap {x : α} (hi : 1 ≤ i) (hn : i ≤ n) (hj : 1 ≤ j) (hjn : j ≤ n) :
  Among n (f ∘ Equiv.swap i j) x ↔ Among n f x := by
  refine ⟨fun ⟨k, hk, hkn, hx⟩ ↦ ?_, fun ⟨k, hk, hkn, hx⟩ ↦ ?_⟩
  all_goals obtain ⟨hl, hg⟩ := swap_mem_range hi hn hj hjn hk hkn
  · exact ⟨_, hl, hg, hx⟩
  · exact ⟨_, hl, hg, by rw [comp_apply, Equiv.swap_apply_self, hx]⟩

theorem Arranged.ne (a : Arranged h n f) (hi : 1 ≤ i) (hn : i ≤ n) (hj : 1 ≤ j) (hjn : j ≤ n)
  (hij : i ≠ j) : f i ≠ f j :=
  fun he ↦ hij (a.inj i j hi hn hj hjn he)

variable [DecidableEq α]

theorem lower_prev (x : α) : (h.lower p c).prev x = if x = p then h.prev c else h.prev x := by
  simp [lower]

theorem lower_next (x : α) : (h.lower p c).next x = if x = p then h.next c else h.next x := by
  simp [lower]

theorem lower_treeParent (hp : h.prev c ≠ some p) (hn : h.next c ≠ some p) (x : α) :
  (h.lower p c).treeParent x = if x = p then some c else if x = c then h.treeParent p
  else if h.prev c = some x ∨ h.next c = some x then some p else h.treeParent x := by
  simp only [lower, setTreeParent_treeParent, adopt_treeParent, setNext_treeParent,
    setPrev_treeParent, adopt_next, setNext_prev, setNext_next, setPrev_prev, setPrev_next]
  grind

theorem lift_prev (pp pn : Option α) (x : α) : (h.lift pp pn p c).prev x =
  if x = c then (if pp = some c then some p else pp) else h.prev x := by
  rw [lift]
  split_ifs <;> simp_all

theorem lift_next (pp pn : Option α) (x : α) : (h.lift pp pn p c).next x =
  if x = c then (if pp = some c then pn else some p) else h.next x := by
  rw [lift]
  split_ifs <;> simp_all

theorem lift_treeParent (pp pn : Option α) (x : α) : (h.lift pp pn p c).treeParent x =
  if (if pp = some c then pn else pp) = some x then some c else h.treeParent x := by
  rw [lift]
  split_ifs <;> simp_all

theorem relink_prev (pp : Option α) (x : α) : (h.relink pp p c).prev x =
  if pp = some x ∧ h.prev x = some p then some c else h.prev x := by
  cases pp with
  | none => simp [relink]
  | some g => grind [relink, setPrev_prev, setNext_prev]

theorem relink_next (pp : Option α) (x : α) : (h.relink pp p c).next x =
  if pp = some x ∧ h.prev x ≠ some p then some c else h.next x := by
  cases pp with
  | none => simp [relink]
  | some g => grind [relink, setPrev_next, setNext_next]

theorem relink_treeParent (pp : Option α) : (h.relink pp p c).treeParent = h.treeParent := by
  cases pp with
  | none => rfl
  | some g => grind [relink, setPrev_treeParent, setNext_treeParent]

theorem relink_top (pp : Option α) : (h.relink pp p c).top = h.top := by
  cases pp with
  | none => rfl
  | some g => grind [relink, setPrev_top, setNext_top]

theorem relink_size (pp : Option α) : (h.relink pp p c).size = h.size := by
  cases pp with
  | none => rfl
  | some g => grind [relink, setPrev_size, setNext_size]

theorem exists_swap_eq (h : TreeHeap α) (p c : α) : ∃ top, h.swap p c =
    { ((h.lower p c).lift (h.prev p) (h.next p) p c).relink (h.treeParent p) p c with top } := by
  rw [swap]
  split_ifs <;> exact ⟨_, rfl⟩

theorem swap_prev (hg : ∀ g, h.treeParent p = some g → g ≠ p ∧ g ≠ c) (x : α) :
  (h.swap p c).prev x =
  if x = c then (if h.prev p = some c then some p else h.prev p)
  else if x = p then h.prev c
  else if h.treeParent p = some x ∧ h.prev x = some p then some c else h.prev x := by
  obtain ⟨_, hl⟩ := exists_swap_eq h p c
  simp only [hl, relink_prev, lift_prev, lower_prev]
  grind

theorem swap_next (hg : ∀ g, h.treeParent p = some g → g ≠ p ∧ g ≠ c) (x : α) :
  (h.swap p c).next x =
  if x = c then (if h.prev p = some c then h.next p else some p)
  else if x = p then h.next c
  else if h.treeParent p = some x ∧ h.prev x ≠ some p then some c else h.next x := by
  obtain ⟨_, hl⟩ := exists_swap_eq h p c
  simp only [hl, relink_next, lift_next, lift_prev, lower_next, lower_prev]
  grind

theorem swap_treeParent (hp : h.prev c ≠ some p) (hn : h.next c ≠ some p) (x : α) :
  (h.swap p c).treeParent x =
  if (if h.prev p = some c then h.next p else h.prev p) = some x then some c
  else if x = p then some c
  else if x = c then h.treeParent p
  else if h.prev c = some x ∨ h.next c = some x then some p else h.treeParent x := by
  obtain ⟨_, hl⟩ := exists_swap_eq h p c
  simp only [hl, relink_treeParent, lift_treeParent, lower_treeParent hp hn]

theorem swap_top :
  (h.swap p c).top = if (h.swap p c).treeParent c = none then some c else h.top := by
  have hr : (((h.lower p c).lift (h.prev p) (h.next p) p c).relink (h.treeParent p) p c).top =
    h.top := by
    rw [relink_top, lift]
    split_ifs <;> simp [lower]
  grind [swap]

theorem swap_size : (h.swap p c).size = h.size := by
  have hr : (((h.lower p c).lift (h.prev p) (h.next p) p c).relink (h.treeParent p) p c).size =
    h.size := by
    rw [relink_size, lift]
    split_ifs <;> simp [lower]
  grind [swap]

section Swap

variable (a : Arranged h n f) (hi : 1 ≤ i) (hin : i ≤ n) (hj1 : 1 ≤ j) (hjn : j ≤ n)
  (hj : j = 2 * i ∨ j = 2 * i + 1)

include a hi hin hj1 hjn hj

omit [DecidableEq α] in
theorem Arranged.swap_grand (g : α) (hg : h.treeParent (f i) = some g) : g ≠ f i ∧ g ≠ f j := by
  rw [a.treeParent i hi hin] at hg
  obtain ⟨hk, hkn, rfl⟩ := exists_of_place hg
  exact ⟨a.ne hk hkn hi hin (by omega), a.ne hk hkn hj1 hjn (by omega)⟩

theorem Arranged.swap_prev (hk : 1 ≤ k) (hkn : k ≤ n) :
  (h.swap (f i) (f j)).prev ((f ∘ Equiv.swap i j) k) = place n (f ∘ Equiv.swap i j) (2 * k) := by
  rw [TreeHeap.swap_prev (a.swap_grand hi hin hj1 hjn hj), place_swap hi hin hj1 hjn]
  rcases eq_or_ne k i with rfl | hki
  · rw [swap_left, if_pos rfl, a.prev k hk hkn]
    simp only [a.place_eq_some hj1 hjn]
    grind
  rcases eq_or_ne k j with rfl | hkj
  · rw [swap_right, if_neg (a.ne hi hin hk hkn hki.symm), if_pos rfl, a.prev k hk hkn,
      if_neg (by omega), if_neg (by omega)]
  · rw [swap_of_ne hki hkj, if_neg (a.ne hk hkn hj1 hjn hkj), if_neg (a.ne hk hkn hi hin hki),
      a.prev k hk hkn, a.treeParent i hi hin]
    simp only [a.place_eq_some hk hkn, a.place_eq_some hi hin]
    grind

theorem Arranged.swap_next (hk : 1 ≤ k) (hkn : k ≤ n) :
  (h.swap (f i) (f j)).next ((f ∘ Equiv.swap i j) k) =
  place n (f ∘ Equiv.swap i j) (2 * k + 1) := by
  rw [TreeHeap.swap_next (a.swap_grand hi hin hj1 hjn hj), place_swap hi hin hj1 hjn]
  rcases eq_or_ne k i with rfl | hki
  · rw [swap_left, if_pos rfl, a.prev k hk hkn, a.next k hk hkn]
    simp only [a.place_eq_some hj1 hjn]
    grind
  rcases eq_or_ne k j with rfl | hkj
  · rw [swap_right, if_neg (a.ne hi hin hk hkn hki.symm), if_pos rfl, a.next k hk hkn,
      if_neg (by omega), if_neg (by omega)]
  · rw [swap_of_ne hki hkj, if_neg (a.ne hk hkn hj1 hjn hkj), if_neg (a.ne hk hkn hi hin hki),
      a.prev k hk hkn, a.next k hk hkn, a.treeParent i hi hin]
    simp only [ne_eq, a.place_eq_some hk hkn, a.place_eq_some hi hin]
    grind

omit [DecidableEq α] in
theorem Arranged.swap_child : h.prev (f j) ≠ some (f i) ∧ h.next (f j) ≠ some (f i) := by
  rw [a.prev j hj1 hjn, a.next j hj1 hjn, ne_eq, ne_eq, a.place_eq_some hi hin,
    a.place_eq_some hi hin]
  omega

theorem Arranged.swap_treeParent (hk : 1 ≤ k) (hkn : k ≤ n) :
  (h.swap (f i) (f j)).treeParent ((f ∘ Equiv.swap i j) k) =
  place n (f ∘ Equiv.swap i j) (k / 2) := by
  obtain ⟨hp, hn⟩ := a.swap_child hi hin hj1 hjn hj
  rw [TreeHeap.swap_treeParent hp hn, place_swap hi hin hj1 hjn, a.prev i hi hin,
    a.next i hi hin, a.prev j hj1 hjn, a.next j hj1 hjn, a.treeParent i hi hin]
  simp only [a.place_eq_some hj1 hjn]
  rcases eq_or_ne k i with rfl | hki
  · rw [swap_left, if_neg (a.ne hj1 hjn hk hkn (by omega)), if_pos rfl]
    simp only [apply_ite (· = some (f j)), a.place_eq_some hj1 hjn]
    grind
  rcases eq_or_ne k j with rfl | hkj
  · rw [swap_right, if_pos rfl]
    grind
  · rw [swap_of_ne hki hkj, if_neg (a.ne hk hkn hi hin hki), if_neg (a.ne hk hkn hj1 hjn hkj),
      a.treeParent k hk hkn]
    simp only [apply_ite (· = some (f k)), a.place_eq_some hk hkn]
    grind

theorem Arranged.swap_top : (h.swap (f i) (f j)).top = place n (f ∘ Equiv.swap i j) 1 := by
  have hp := a.swap_treeParent hi hin hj1 hjn hj hi hin
  rw [swap_left, place_swap hi hin hj1 hjn] at hp
  rw [TreeHeap.swap_top, hp, place_swap hi hin hj1 hjn, a.top]
  rcases eq_or_ne i 1 with rfl | hi1
  · have hr : place n f (1 / 2) = none := place_eq_none (.inl rfl)
    rw [if_neg (by omega : 1 / 2 ≠ 1), if_neg (by omega : 1 / 2 ≠ j), hr, if_pos rfl, if_pos rfl]
  · rw [if_neg (by omega : i / 2 ≠ i), if_neg (by omega : i / 2 ≠ j),
      place_of_le (by omega : 1 ≤ i / 2) (by omega), if_neg (by simp), if_neg (by omega),
      if_neg (by omega)]

theorem Arranged.swap : Arranged (h.swap (f i) (f j)) n (f ∘ Equiv.swap i j) ∧
  Frame n f h (h.swap (f i) (f j)) := by
  refine ⟨⟨a.swap_top hi hin hj1 hjn hj, fun k m hk hkn hm hmn he ↦ ?_,
    fun k hk hkn ↦ a.swap_prev hi hin hj1 hjn hj hk hkn,
    fun k hk hkn ↦ a.swap_next hi hin hj1 hjn hj hk hkn,
    fun k hk hkn ↦ a.swap_treeParent hi hin hj1 hjn hj hk hkn⟩, fun x hx ↦ ?_⟩
  · obtain ⟨hk, hkn⟩ := swap_mem_range hi hin hj1 hjn hk hkn
    obtain ⟨hm, hmn⟩ := swap_mem_range hi hin hj1 hjn hm hmn
    exact (Equiv.swap i j).injective (a.inj _ _ hk hkn hm hmn he)
  · have ho (m : ℕ) : place n f m ≠ some x := fun hm ↦ by
      exact hx ⟨m, exists_of_place hm⟩
    obtain ⟨hp, hn⟩ := a.swap_child hi hin hj1 hjn hj
    rw [TreeHeap.swap_prev (a.swap_grand hi hin hj1 hjn hj),
      TreeHeap.swap_next (a.swap_grand hi hin hj1 hjn hj), TreeHeap.swap_treeParent hp hn,
      a.prev i hi hin, a.next i hi hin, a.prev j hj1 hjn, a.next j hj1 hjn, a.treeParent i hi hin]
    have hxi : x ≠ f i := fun he ↦ hx ⟨i, hi, hin, he.symm⟩
    have hxj : x ≠ f j := fun he ↦ hx ⟨j, hj1, hjn, he.symm⟩
    grind

end Swap

end

open Option

section

variable {α : Type*} {less : α → α → Bool} {h h' : TreeHeap α} {n i j k : ℕ}
  {f f' : ℕ → α} {x : α}

/-- A complete binary tree: `f` lists its nodes in level order. -/
structure LevelOrder (h : TreeHeap α) (n : ℕ) (f : ℕ → α) : Prop where
  top : h.top = place n f 1
  prev : ∀ i, 1 ≤ i → i ≤ n → h.prev (f i) = place n f (2 * i)
  next : ∀ i, 1 ≤ i → i ≤ n → h.next (f i) = place n f (2 * i + 1)

theorem LevelOrder.descend (a : LevelOrder h n f) {ls r : ℕ} {rounds m x i : ℕ}
  (hi : 1 ≤ i) (hx : x ≤ r) (hr : r < x + 2 ^ rounds)
  (hn : i * 2 ^ rounds + (r - x) ≤ n) (hm : 1 ≤ m) (hl : ls = 2 ^ (m + rounds - 1)) :
  h.descend ls (r + 1) rounds m x (place n f i) = place n f (i * 2 ^ rounds + (r - x)) := by
  induction rounds generalizing m x i with
  | zero =>
    have : i * 2 ^ 0 + (r - x) = i := by omega
    rw [this, TreeHeap.descend]
  | succ rounds ih =>
    have hp : 2 ^ (rounds + 1) = 2 * 2 ^ rounds := Nat.pow_succ'
    have hh : ls / (1 <<< m) = 2 ^ rounds := by
      rw [hl, Nat.one_shiftLeft, Nat.pow_div (by omega) (by omega)]
      congr 1
      omega
    have hin : i ≤ n := by
      have := Nat.le_mul_of_pos_right i (Nat.two_pow_pos (rounds + 1))
      omega
    have ht : i * 2 ^ (rounds + 1) = 2 * (i * 2 ^ rounds) := by ring
    have hle : 2 * i * 2 ^ rounds = 2 * (i * 2 ^ rounds) := by ring
    have hri : (2 * i + 1) * 2 ^ rounds = 2 * (i * 2 ^ rounds) + 2 ^ rounds := by ring
    rw [place_of_le hi hin, TreeHeap.descend, bind_some, hh, a.next i hi hin, a.prev i hi hin]
    dsimp only
    split_ifs with hy
    · rw [ih (by omega) (by omega) (by omega) (by omega) (by omega) (hl.trans (by congr 1; omega))]
      congr 1
      omega
    · rw [ih (by omega) hx (by omega) (by omega) (by omega) (hl.trans (by congr 1; omega))]
      congr 1
      omega

theorem LevelOrder.getNth (a : LevelOrder h n f) (hi : 1 ≤ i) (hin : i ≤ n) :
  h.getNth i = some (f i) := by
  have hl : 2 ^ Nat.log2 i ≤ i := Nat.log2_self_le (by omega)
  have hh : i < 2 ^ (Nat.log2 i + 1) := Nat.lt_log2_self
  have hp : 2 ^ (Nat.log2 i + 1) = 2 * 2 ^ Nat.log2 i := Nat.pow_succ'
  have hpo := Nat.two_pow_pos (Nat.log2 i)
  have hn : i - (2 ^ Nat.log2 i - 1) = i - 2 ^ Nat.log2 i + 1 := by omega
  have hd : h.descend (2 ^ Nat.log2 i) (i - 2 ^ Nat.log2 i + 1) (Nat.log2 i) 1 0
    (place n f 1) = place n f (1 * 2 ^ Nat.log2 i + (i - 2 ^ Nat.log2 i - 0)) :=
    a.descend le_rfl (Nat.zero_le _) (by omega) (by omega) le_rfl (by congr 1; omega)
  rw [TreeHeap.getNth, Nat.add_sub_cancel, Nat.one_shiftLeft, hn, a.top, hd,
    place_of_le (by omega) (by omega)]
  congr 2
  omega

theorem Arranged.getNth (a : Arranged h n f) (hi : 1 ≤ i) (hin : i ≤ n) : h.getNth i = some (f i) :=
  LevelOrder.getNth ⟨a.top, a.prev, a.next⟩ hi hin

theorem getNth_levelOrder (a : LevelOrder h n f) : (∀ i, 1 ≤ i → i ≤ n → h.getNth i = some (f i)) ∧
      (h.size = n → 1 ≤ n → h.rightmostFull = some (f n) ∧
        h.parentOfLeftmostEmpty = some (f ((n + 1) / 2))) := by
  refine ⟨fun i ↦ a.getNth, fun hs hn ↦ ⟨?_, ?_⟩⟩
  · rw [rightmostFull, hs]
    exact a.getNth hn le_rfl
  · rw [parentOfLeftmostEmpty, hs]
    exact a.getNth (by omega) (by omega)

def fiveNodes : TreeHeap ℕ where
  prev i := place 5 id (2 * i)
  next i := place 5 id (2 * i + 1)
  top := some 1
  size := 5

theorem fiveNodes_levelOrder : LevelOrder fiveNodes 5 id :=
  ⟨rfl, fun _ _ _ ↦ rfl, fun _ _ _ ↦ rfl⟩

theorem getNth_levelOrder_five : fiveNodes.getNth 5 = some 5 :=
  (getNth_levelOrder fiveNodes_levelOrder).1 5 (by omega) le_rfl

theorem place_eq_none_iff : place n f i = none ↔ i = 0 ∨ n < i := by
  rw [place]
  split_ifs with hi
  · simp only [false_iff]
    omega
  · simp only [true_iff]
    omega

theorem place_update : place (n + 1) (update f (n + 1) x) i =
  if i = n + 1 then some x else place n f i := by
  rcases eq_or_ne i (n + 1) with rfl | hi
  · rw [place_of_le (by omega) le_rfl, update_self, if_pos rfl]
  · rw [if_neg hi, place, place, update_of_ne hi]
    grind

variable [DecidableEq α] {p : α}

theorem attach_prev (hp : p ≠ x) (y : α) : (h.attach p x).prev y =
  if y = p ∧ h.prev p = none then some x else if y = x then none else h.prev y := by
  cases hpr : h.prev p <;> simp [attach, hp, hpr]

theorem attach_next (hp : p ≠ x) (y : α) : (h.attach p x).next y =
  if y = p ∧ h.prev p ≠ none then some x else if y = x then none else h.next y := by
  cases hpr : h.prev p <;> simp [attach, hp, hpr]

theorem attach_treeParent (y : α) : (h.attach p x).treeParent y =
  if y = x then some p else h.treeParent y := by
  rw [attach]
  split <;> simp

theorem attach_top : (h.attach p x).top = h.top := by
  grind [attach, setPrev_top, setNext_top, setTreeParent_top]

theorem attach_size : (h.attach p x).size = h.size := by
  grind [attach, setPrev_size, setNext_size, setTreeParent_size]

theorem Arranged.attach (a : Arranged h n f) (hn : 1 ≤ n) (hx : ¬ Among n f x) :
  Arranged (h.attach (f ((n + 1) / 2)) x) (n + 1) (update f (n + 1) x) := by
  have hne {i : ℕ} (hi : 1 ≤ i) (hin : i ≤ n) : f i ≠ x := fun he ↦ hx ⟨i, hi, hin, he⟩
  have hpa : 1 ≤ (n + 1) / 2 ∧ (n + 1) / 2 ≤ n := by omega
  have hp := hne hpa.1 hpa.2
  have ho {i : ℕ} (hin : i ≤ n) : update f (n + 1) x i = f i := update_of_ne (by omega) ..
  refine ⟨?_, fun i j hi hin hj hjn he ↦ ?_, fun i hi hin ↦ ?_, fun i hi hin ↦ ?_,
    fun i hi hin ↦ ?_⟩
  · rw [attach_top, a.top, place_update, if_neg (by omega)]
  · rcases eq_or_ne i (n + 1) with rfl | hi'
    · rcases eq_or_ne j (n + 1) with rfl | hj'
      · rfl
      · rw [update_self, ho (by omega)] at he
        exact absurd he.symm (hne hj (by omega))
    · rcases eq_or_ne j (n + 1) with rfl | hj'
      · rw [update_self, ho (by omega)] at he
        exact absurd he (hne hi (by omega))
      · rw [ho (by omega), ho (by omega)] at he
        exact a.inj i j hi (by omega) hj (by omega) he
  · rw [attach_prev hp, place_update, a.prev _ hpa.1 hpa.2]
    simp only [place_eq_none_iff]
    rcases eq_or_ne i (n + 1) with rfl | hi'
    · rw [update_self, if_neg fun h ↦ hp h.1.symm, if_pos rfl, if_neg (by omega),
        place_eq_none (by omega)]
    · have hi' : i ≤ n := by omega
      rw [ho hi', if_neg (hne hi hi'), a.prev i hi hi']
      refine if_congr ⟨fun h ↦ ?_, fun h ↦ ?_⟩ rfl rfl
      · have := a.inj _ _ hi hi' hpa.1 hpa.2 h.1
        omega
      · have : i = (n + 1) / 2 := by omega
        exact ⟨congrArg f this, by omega⟩
  · rw [attach_next hp, place_update, a.prev _ hpa.1 hpa.2]
    simp only [ne_eq, place_eq_none_iff]
    rcases eq_or_ne i (n + 1) with rfl | hi'
    · rw [update_self, if_neg fun h ↦ hp h.1.symm, if_pos rfl, if_neg (by omega),
        place_eq_none (by omega)]
    · have hi' : i ≤ n := by omega
      rw [ho hi', if_neg (hne hi hi'), a.next i hi hi']
      refine if_congr ⟨fun h ↦ ?_, fun h ↦ ?_⟩ rfl rfl
      · have := a.inj _ _ hi hi' hpa.1 hpa.2 h.1
        omega
      · have : i = (n + 1) / 2 := by omega
        exact ⟨congrArg f this, by omega⟩
  · rw [attach_treeParent, place_update, if_neg (by omega : i / 2 ≠ n + 1)]
    rcases eq_or_ne i (n + 1) with rfl | hi'
    · rw [update_self, if_pos rfl, place_of_le hpa.1 hpa.2]
    · have hi' : i ≤ n := by omega
      rw [ho hi', if_neg (hne hi hi'), a.treeParent i hi hi']

theorem frame_attach (hn : 1 ≤ n) (hx : ¬ Among n f x) :
  Frame (n + 1) (update f (n + 1) x) h (h.attach (f ((n + 1) / 2)) x) := by
  intro y hy
  have hpa : 1 ≤ (n + 1) / 2 ∧ (n + 1) / 2 ≤ n := by omega
  have hp : f ((n + 1) / 2) ≠ x := fun he ↦ hx ⟨_, hpa.1, hpa.2, he⟩
  have hyx : y ≠ x := fun he ↦ hy ⟨n + 1, by omega, le_rfl, by rw [update_self, he]⟩
  have hyp : y ≠ f ((n + 1) / 2) := fun he ↦
    hy ⟨(n + 1) / 2, hpa.1, by omega, by rw [update_of_ne (by omega), he]⟩
  rw [attach_prev hp, attach_next hp, attach_treeParent]
  simp [hyx, hyp]

structure Sifted (less : α → α → Bool) (n : ℕ) (f : ℕ → α) (h h' : TreeHeap α) (f' : ℕ → α) :
  Prop where
  arranged : Arranged h' n f'
  ordered : Ordered less n f'
  among : ∀ x, Among n f' x ↔ Among n f x
  frame : Frame n f h h'
  size : h'.size = h.size

omit [DecidableEq α] in
theorem Arranged.sifted (a : Arranged h n f) (ho : Ordered less n f) : Sifted less n f h h f :=
  ⟨a, ho, fun _ ↦ Iff.rfl, fun _ _ ↦ ⟨rfl, rfl, rfl⟩, rfl⟩

theorem Sifted.of_swap (a : Arranged h n f) (hi : 1 ≤ i) (hin : i ≤ n) (hj1 : 1 ≤ j) (hjn : j ≤ n)
  (hj : j = 2 * i ∨ j = 2 * i + 1)
  (hs : Sifted less n (f ∘ Equiv.swap i j) (h.swap (f i) (f j)) h' f') :
  Sifted less n f h h' f' := by
  have ha (x : α) := among_swap (f := f) (x := x) hi hin hj1 hjn
  obtain ⟨-, hf⟩ := a.swap hi hin hj1 hjn hj
  refine ⟨hs.arranged, hs.ordered, fun x ↦ (hs.among x).trans (ha x), fun x hx ↦ ?_,
    hs.size.trans swap_size⟩
  obtain ⟨hpr, hn, hp⟩ := hs.frame x fun h ↦ hx ((ha x).mp h)
  obtain ⟨hpr', hn', hp'⟩ := hf x hx
  exact ⟨hpr.trans hpr', hn.trans hn', hp.trans hp'⟩

theorem siftUp_spec (hl : StrictWeak less) {m : ℕ} (a : Arranged h n f)
  (hr : Rising less n f k) (hk : 1 ≤ k) (hkn : k ≤ n) (hf : k ≤ m) :
  ∃ h' f', siftUp less m h (f k) (place n f (k / 2)) = some h' ∧ Sifted less n f h h' f' := by
  induction m generalizing h f k with
  | zero => omega
  | succ m ih =>
    have ht := a.place_eq_some (i := 1) hk hkn
    rw [siftUp, a.top]
    rcases hk.eq_or_lt with rfl | hk2
    · exact ⟨h, f, if_pos (ht.mpr rfl), a.sifted (hr.ordered (by omega))⟩
    · rw [if_neg fun he ↦ hk2.ne (ht.mp he), place_of_le (by omega : 1 ≤ k / 2) (by omega),
        bind_some]
      by_cases hlt : less (f k) (f (k / 2))
      · have hj : k = 2 * (k / 2) ∨ k = 2 * (k / 2) + 1 := by omega
        obtain ⟨a', -⟩ := a.swap (by omega) (by omega) hk hkn hj
        have hse : (f ∘ Equiv.swap (k / 2) k) (k / 2) = f k := swap_left ..
        obtain ⟨h', f', hsi, hs⟩ := ih a' (hr.swap hl hk2 hkn hlt) (by omega) (by omega) (by omega)
        refine ⟨h', f', ?_, hs.of_swap a (by omega) (by omega) hk hkn hj⟩
        rw [if_pos hlt]
        have hp := a'.treeParent (k / 2) (by omega) (by omega)
        rw [hse] at hp hsi
        rw [← hp] at hsi
        exact hsi
      · rw [if_neg hlt]
        exact ⟨h, f, rfl, a.sifted (hr.ordered fun _ ↦ hlt)⟩

omit [DecidableEq α] in
theorem best_spec (hl : StrictWeak less) (e : α) (l r : Option α) {b : α}
  (hb : b = better less (better less e l) r) :
  (b = e ∨ l = some b ∨ r = some b) ∧ (b = e ∨ less b e) ∧
  ∀ y, l = some y ∨ r = some y → ¬ less y b := by
  have hi := hl.irrefl
  have ht := hl.trans
  have ha := hl.asymm
  subst hb
  cases l <;> cases r <;> grind [better]

theorem siftDown_spec (hl : StrictWeak less) {m : ℕ} (a : Arranged h n f)
  (hsn : Sinking less n f k) (hk : 1 ≤ k) (hkn : k ≤ n) (hfu : n < k + m) :
  ∃ h' f', siftDown less m h (f k) = some h' ∧ Sifted less n f h h' f' := by
  induction m generalizing h f k with
  | zero => omega
  | succ m ih =>
    rw [siftDown, a.prev k hk hkn, a.next k hk hkn]
    obtain ⟨hw, hlt, hle⟩ := best_spec hl (f k) (place n f (2 * k)) (place n f (2 * k + 1)) rfl
    set best := better less (better less (f k) (place n f (2 * k))) (place n f (2 * k + 1))
    have hc (i : ℕ) (hi : 2 ≤ i) (hin : i ≤ n) (hik : i / 2 = k) : ¬ less (f i) best := by
      refine hle (f i) ?_
      have hi' : i = 2 * k ∨ i = 2 * k + 1 := by omega
      rcases hi' with rfl | rfl
      · exact .inl (place_of_le (by omega) hin)
      · exact .inr (place_of_le (by omega) hin)
    by_cases hb : best = f k
    · rw [hb] at hc
      exact ⟨h, f, if_pos hb, a.sifted (hsn.ordered hc)⟩
    · have hch : ∃ j, 2 ≤ j ∧ j ≤ n ∧ (j = 2 * k ∨ j = 2 * k + 1) ∧ f j = best := by
        rcases hw.resolve_left hb with hp | hp
        · obtain ⟨-, hin, hf⟩ := exists_of_place hp
          exact ⟨2 * k, by omega, hin, .inl rfl, hf⟩
        · obtain ⟨-, hin, hf⟩ := exists_of_place hp
          exact ⟨2 * k + 1, by omega, hin, .inr rfl, hf⟩
      obtain ⟨j, hj2, hjn, hj, hjb⟩ := hch
      rw [if_neg hb, ← hjb]
      rw [← hjb] at hc hlt hb
      obtain ⟨a', -⟩ := a.swap hk hkn (by omega) hjn hj
      obtain ⟨h', f', hsi, hs⟩ := ih a' (hsn.swap hl hj2 hjn (by omega)
        (hlt.resolve_left hb) hc) (by omega) hjn (by omega)
      rw [swap_right] at hsi
      exact ⟨h', f', hsi, hs.of_swap a hk hkn (by omega) hjn hj⟩

end

open List

variable {α : Type*} {less : α → α → Bool} {h h' : TreeHeap α} {n i j k : ℕ} {f f' : ℕ → α} {x : α}
  {xs : List α}

structure Valid (less : α → α → Bool) (h : TreeHeap α) (xs : List α) : Prop where
  size : h.size = xs.length
  nodup : xs.Nodup
  tree : ∃ f, Arranged h xs.length f ∧ Ordered less xs.length f ∧
    ∀ x, Among xs.length f x ↔ x ∈ xs

theorem Valid.top_eq_none (v : Valid less h []) : h.top = none := by
  obtain ⟨f, a, -⟩ := v.tree
  exact a.top

theorem Valid.top (hl : StrictWeak less) (v : Valid less h xs) (hn : xs ≠ []) :
  ∃ x ∈ xs, h.top = some x ∧ ∀ y ∈ xs, ¬ less y x := by
  obtain ⟨f, a, ho, ha⟩ := v.tree
  have hp := length_pos_iff.mpr hn
  refine ⟨f 1, (ha _).mp ⟨1, le_rfl, hp, rfl⟩, a.top.trans (place_of_le le_rfl hp), ?_⟩
  intro y hy
  obtain ⟨i, hi, hin, rfl⟩ := (ha y).mpr hy
  exact ho.min hl hi hin

theorem Arranged.of_links (a : Arranged h n f) (ht : h'.top = h.top) (hpr : h'.prev = h.prev)
  (hn : h'.next = h.next) (hp : h'.treeParent = h.treeParent) : Arranged h' n f := by
  refine ⟨ht.trans a.top, a.inj, ?_, ?_, ?_⟩
  · rw [hpr]
    exact a.prev
  · rw [hn]
    exact a.next
  · rw [hp]
    exact a.treeParent

theorem valid_nil (ht : h.top = none) (hs : h.size = 0) (x : α) : Valid less h [] := by
  refine ⟨hs, nodup_nil, fun _ ↦ x, ⟨ht, ?_, ?_, ?_, ?_⟩, ?_, fun y ↦ ⟨?_, ?_⟩⟩
  · exact fun i j hi hin ↦ absurd hin (by simp only [length_nil]; omega)
  · exact fun i hi hin ↦ absurd hin (by simp only [length_nil]; omega)
  · exact fun i hi hin ↦ absurd hin (by simp only [length_nil]; omega)
  · exact fun i hi hin ↦ absurd hin (by simp only [length_nil]; omega)
  · exact fun i hi hin ↦ absurd hin (by simp only [length_nil]; omega)
  · exact fun ⟨i, hi, hin, _⟩ ↦ absurd hin (by simp only [length_nil]; omega)
  · exact fun hy ↦ absurd hy not_mem_nil

theorem Valid.congr {less' : α → α → Bool} (v : Valid less h xs) (ht : h'.top = h.top)
  (hs : h'.size = h.size) (hl : ∀ x ∈ xs, h'.prev x = h.prev x ∧ h'.next x = h.next x ∧
  h'.treeParent x = h.treeParent x) (hle : ∀ x ∈ xs, ∀ y ∈ xs, less' x y = less x y) :
  Valid less' h' xs := by
  obtain ⟨f, a, ho, ha⟩ := v.tree
  have hm {i : ℕ} (hi : 1 ≤ i) (hin : i ≤ xs.length) : f i ∈ xs := (ha _).mp ⟨i, hi, hin, rfl⟩
  refine ⟨hs.trans v.size, v.nodup, f, ⟨ht.trans a.top, a.inj, fun i hi hin ↦ ?_,
    fun i hi hin ↦ ?_, fun i hi hin ↦ ?_⟩, fun i hi hin ↦ ?_, ha⟩
  · exact (hl _ (hm hi hin)).1.trans (a.prev i hi hin)
  · exact (hl _ (hm hi hin)).2.1.trans (a.next i hi hin)
  · exact (hl _ (hm hi hin)).2.2.trans (a.treeParent i hi hin)
  · rw [hle _ (hm (by omega) hin) _ (hm (by omega) (by omega))]
    exact ho i hi hin

theorem arranged_one (ht : h.top = some x) (hpr : h.prev x = none) (hn : h.next x = none)
  (hp : h.treeParent x = none) : Arranged h 1 fun _ ↦ x := by
  refine ⟨ht, fun i j hi hin hj hjn _ ↦ by omega, fun i hi hin ↦ ?_, fun i hi hin ↦ ?_,
    fun i hi hin ↦ ?_⟩
  · exact hpr.trans (place_eq_none (by omega)).symm
  · exact hn.trans (place_eq_none (by omega)).symm
  · exact hp.trans (place_eq_none (by omega)).symm

theorem ordered_one (f : ℕ → α) : Ordered less 1 f := fun i hi hin ↦ by omega

theorem among_one {y : α} : Among 1 (fun _ ↦ x) y ↔ y = x :=
  ⟨fun ⟨_, _, _, he⟩ ↦ he.symm, fun he ↦ ⟨1, le_rfl, le_rfl, he.symm⟩⟩

theorem among_update {y : α} : Among (n + 1) (update f (n + 1) x) y ↔ y = x ∨ Among n f y := by
  refine ⟨fun ⟨i, hi, hin, heq⟩ ↦ ?_, ?_⟩
  · rcases eq_or_ne i (n + 1) with rfl | hne
    · exact .inl (heq.symm.trans (update_self ..))
    · rw [update_of_ne hne] at heq
      exact .inr ⟨i, hi, by omega, heq⟩
  · rintro (rfl | ⟨i, hi, hin, rfl⟩)
    · exact ⟨n + 1, by omega, le_rfl, update_self ..⟩
    · exact ⟨i, hi, by omega, update_of_ne (by omega) ..⟩

variable [DecidableEq α]

theorem Valid.push (hle : StrictWeak less) (v : Valid less h xs) (hx : x ∉ xs)
  (hl : xs = [] → h.prev x = none ∧ h.next x = none ∧ h.treeParent x = none) :
  ∃ h', h.push less x = some h' ∧ Valid less h' (x :: xs) ∧ ∀ y, y ∉ x :: xs →
  h'.prev y = h.prev y ∧ h'.next y = h.next y ∧ h'.treeParent y = h.treeParent y := by
  rcases eq_or_ne xs [] with rfl | hne
  · obtain ⟨hpr, hnx, hp⟩ := hl rfl
    refine ⟨{ h with top := some x, size := h.size + 1 }, ?_, ⟨congrArg (· + 1) v.size,
      nodup_singleton x, _, arranged_one rfl hpr hnx hp, ordered_one _,
      fun y ↦ among_one.trans mem_singleton.symm⟩, fun _ _ ↦ ⟨rfl, rfl, rfl⟩⟩
    rw [TreeHeap.push, v.top_eq_none]
  · obtain ⟨f, a, ho, ha⟩ := v.tree
    have hn := length_pos_iff.mpr hne
    have hx' : ¬ Among xs.length f x := fun h ↦ hx ((ha x).mp h)
    have hp : h.parentOfLeftmostEmpty = some (f ((xs.length + 1) / 2)) := by
      rw [parentOfLeftmostEmpty, v.size]
      exact a.getNth (by omega) (by omega)
    obtain ⟨h', f', hsi, hs⟩ := siftUp_spec hle (a.attach hn hx') (ho.rising x)
      (by omega) le_rfl (le_refl (xs.length + 1))
    rw [update_self, place_update, if_neg (by omega), place_of_le (by omega) (by omega)] at hsi
    have hm (y : α) : Among (xs.length + 1) (update f (xs.length + 1) x) y ↔ y ∈ x :: xs :=
      among_update.trans ((or_congr_right (ha y)).trans mem_cons.symm)
    refine ⟨{ h' with size := h'.size + 1 }, ?_, ⟨?_, nodup_cons.mpr ⟨hx, v.nodup⟩, f',
      hs.arranged.of_links rfl rfl rfl rfl, hs.ordered, fun y ↦ (hs.among y).trans (hm y)⟩,
      fun y hy ↦ ?_⟩
    · rw [TreeHeap.push, a.top, place_of_le le_rfl hn, hp]
      dsimp only [bind_some]
      rw [v.size, hsi, map_some]
    · exact congrArg (· + 1) (hs.size.trans (attach_size.trans v.size))
    · have hy' := fun h ↦ hy ((hm y).mp h)
      obtain ⟨hpr, hnx, hp⟩ := hs.frame y hy'
      obtain ⟨hpr', hnx', hp'⟩ := frame_attach hn hx' y hy'
      exact ⟨hpr.trans hpr', hnx.trans hnx', hp.trans hp'⟩

def position (path : List Bool) : ℕ := path.foldl (fun i right ↦ 2 * i + right.toNat) 1

theorem position_concat (q : List Bool) (r : Bool) :
  position (q ++ [r]) = 2 * position q + r.toNat := by
  rw [position, foldl_append]
  rfl

theorem position_pos (path : List Bool) : 1 ≤ position path := by
  induction path using List.reverseRecOn with
  | nil => exact le_rfl
  | append_singleton path r ih =>
    rw [position_concat]
    omega

theorem position_injective : Injective position := by
  intro q
  induction q using List.reverseRecOn with
  | nil =>
    intro q' he
    rcases q'.eq_nil_or_concat with rfl | ⟨q', r, rfl⟩
    · rfl
    · have hp := position_pos q'
      have ho : position [] = 1 := rfl
      rw [concat_eq_append, position_concat, ho] at he
      omega
  | append_singleton q r ih =>
    intro q' he
    rw [position_concat] at he
    rcases q'.eq_nil_or_concat with rfl | ⟨q', right', rfl⟩
    · have hp := position_pos q
      have ho : position [] = 1 := rfl
      rw [ho] at he
      omega
    · rw [concat_eq_append] at he ⊢
      rw [position_concat] at he
      have hr := r.toNat_lt
      have hr' := right'.toNat_lt
      have hb : r.toNat = right'.toNat := by omega
      rw [ih (by omega : position q = position q')]
      cases r <;> cases right' <;> first | rfl | cases hb

theorem exists_position (hi : 1 ≤ i) : ∃ q, position q = i := by
  induction i using Nat.strong_induction_on with
  | _ i ih =>
    rcases hi.eq_or_lt with rfl | hi
    · exact ⟨[], rfl⟩
    · obtain ⟨q, hp⟩ := ih (i / 2) (by omega) (by omega)
      refine ⟨q ++ [i % 2 == 1], ?_⟩
      rw [position_concat, hp]
      rcases Nat.mod_two_eq_zero_or_one i with hm | hm
      · simp only [hm, Nat.reduceBEq, Bool.toNat_false]
        omega
      · simp only [hm, BEq.rfl, Bool.toNat_true]
        omega

omit [DecidableEq α] in
theorem Arranged.follow (a : Arranged h n f) (q : List Bool) :
  h.follow q = place n f (position q) := by
  induction q using List.reverseRecOn with
  | nil => exact a.top
  | append_singleton q r ih =>
    rw [TreeHeap.follow] at ih ⊢
    rw [foldl_append, ih, position_concat]
    rcases lt_or_ge n (position q) with ho | hin
    · rw [place_eq_none (.inr ho), place_eq_none (.inr (by omega))]
      rfl
    · have hp := position_pos q
      rw [place_of_le hp hin]
      cases r with
      | false => exact a.prev _ hp hin
      | true => exact a.next _ hp hin

omit [DecidableEq α] in
theorem Valid.follow (v : Valid less h xs) :
  (∀ x ∈ xs, ∃! q, h.follow q = some x) ∧ ∀ q x, h.follow q = some x → x ∈ xs := by
  obtain ⟨f, a, -, ha⟩ := v.tree
  refine ⟨fun x hx ↦ ?_, fun q x hp ↦ ?_⟩
  · obtain ⟨i, hi, hin, rfl⟩ := (ha x).mpr hx
    obtain ⟨q, rfl⟩ := exists_position hi
    refine ⟨q, (a.follow q).trans (place_of_le hi hin), fun q' hp' ↦ ?_⟩
    have hpl := (a.follow q').symm.trans hp'
    exact position_injective ((a.place_eq_some hi hin).mp hpl)
  · rw [a.follow] at hp
    exact (ha x).mp ⟨_, exists_of_place hp⟩

end ReaverOS.Kernel.TreeHeap
