import ReaverOS.Foundation.Runs
import ReaverOS.Kernel.TreeHeapLinks

namespace ReaverOS.Kernel.TreeHeap

open Foundation.BinaryHeap

section

open Function

variable {α : Type*} [DecidableEq α] {less : α → α → Bool} {h h' : TreeHeap α} {n i : ℕ}
  {f f' : ℕ → α} {x : α} {xs : List α}

omit [DecidableEq α] in
theorem place_replace (hi : i ≠ 1) :
  place n (update f 1 x) i = if i = n + 1 then none else place (n + 1) f i := by
  rw [place, place, update_of_ne hi]
  grind

theorem replaceTop_eq {t e p l r : α} (hpa : h.treeParent e = some p) (hpe : p ≠ e)
  (ht : t ≠ e) (htp : t ≠ p) (hl : h.prev t = some l) (hr : h.next t = some r) :
  ∃ h', h.replaceTop t e = some h' ∧ h'.top = some e ∧ h'.size = h.size ∧
  (∀ y, h'.prev y = if y = p ∧ h.prev p = some e then none
  else if y = e then some l else h.prev y) ∧
  (∀ y, h'.next y = if y = p ∧ h.prev p ≠ some e then none
  else if y = e then some r else h.next y) ∧ ∀ y, h'.treeParent y = if y = r ∨ y = l then some e
  else if y = e then none else h.treeParent y := by
  by_cases hp : h.prev p = some e
  · refine ⟨_, by simp [replaceTop, hpa, hpe, ht, htp, hl, hr, hp]; rfl, ?_⟩
    simp [hp]
    grind
  · refine ⟨_, by simp [replaceTop, hpa, hpe, ht, htp, hl, hr, hp]; rfl, ?_⟩
    simp [hp]
    grind

theorem Arranged.replaceTop (a : Arranged h (n + 1) f) (hn : 3 ≤ n) :
  ∃ h', h.replaceTop (f 1) (f (n + 1)) = some h' ∧ Arranged h' n (update f 1 (f (n + 1))) ∧
  Frame n (update f 1 (f (n + 1))) h h' ∧ h'.size = h.size := by
  have hpa := a.treeParent (n + 1) (by omega) le_rfl
  have hl := a.prev 1 le_rfl (by omega)
  have hr := a.next 1 le_rfl (by omega)
  have hc := a.prev ((n + 1) / 2) (by omega) (by omega)
  rw [place_of_le (by omega) (by omega)] at hpa hl hr
  have hp : 1 ≤ (n + 1) / 2 ∧ (n + 1) / 2 ≤ n + 1 := by omega
  have hla : h.prev (f ((n + 1) / 2)) = some (f (n + 1)) ↔ 2 * ((n + 1) / 2) = n + 1 := by
    rw [hc, a.place_eq_some (by omega) le_rfl]
  have hinj {i j : ℕ} (hi : 1 ≤ i) (hin : i ≤ n + 1) (hj : 1 ≤ j) (hjn : j ≤ n + 1) :
    f i = f j ↔ i = j := ⟨a.inj i j hi hin hj hjn, congrArg f⟩
  have hne {i j : ℕ} (hi : 1 ≤ i) (hin : i ≤ n + 1) (hj : 1 ≤ j) (hjn : j ≤ n + 1) (hij : i ≠ j) :
    f i ≠ f j := a.ne hi hin hj hjn hij
  obtain ⟨h', he, ht, hs, hp', hn', hpa'⟩ := replaceTop_eq hpa
    (hne hp.1 hp.2 (by omega) le_rfl (by omega))
    (hne le_rfl (by omega) (by omega) le_rfl (by omega))
    (hne le_rfl (by omega) hp.1 hp.2 (by omega)) hl hr
  refine ⟨h', he, ⟨?_, fun i j hi hin hj hjn he ↦ ?_, fun i hi hin ↦ ?_, fun i hi hin ↦ ?_,
    fun i hi hin ↦ ?_⟩, fun y hy ↦ ?_, hs⟩
  · rw [ht, place_of_le le_rfl (by omega), update_self]
  · rcases eq_or_ne i 1 with rfl | hi1
    · rcases eq_or_ne j 1 with rfl | hj1
      · rfl
      · rw [update_self, update_of_ne hj1] at he
        have := a.inj _ _ (by omega) le_rfl hj (by omega) he
        omega
    · rcases eq_or_ne j 1 with rfl | hj1
      · rw [update_self, update_of_ne hi1] at he
        have := a.inj _ _ hi (by omega) (by omega) le_rfl he
        omega
      · rw [update_of_ne hi1, update_of_ne hj1] at he
        exact a.inj _ _ hi (by omega) hj (by omega) he
  · rw [hp', place_replace (by omega)]
    simp only [hla]
    rcases eq_or_ne i 1 with rfl | hi1
    · rw [update_self, if_pos rfl, if_neg fun h ↦ hne (by omega) le_rfl hp.1 hp.2 (by omega) h.1,
        if_neg (by omega), place_of_le (by omega) (by omega)]
    · rw [update_of_ne hi1, if_neg (hne hi (by omega) (by omega) le_rfl (by omega)),
        a.prev i hi (by omega)]
      exact if_congr ((and_congr_left' (hinj hi (by omega) hp.1 hp.2)).trans (by omega)) rfl rfl
  · rw [hn', place_replace (by omega)]
    simp only [ne_eq, hla]
    rcases eq_or_ne i 1 with rfl | hi1
    · rw [update_self, if_pos rfl, if_neg fun h ↦ hne (by omega) le_rfl hp.1 hp.2 (by omega) h.1,
        if_neg (by omega), place_of_le (by omega) (by omega)]
    · rw [update_of_ne hi1, if_neg (hne hi (by omega) (by omega) le_rfl (by omega)),
        a.next i hi (by omega)]
      exact if_congr ((and_congr_left' (hinj hi (by omega) hp.1 hp.2)).trans (by omega)) rfl rfl
  · rw [hpa']
    rcases eq_or_ne i 1 with rfl | hi1
    · rw [update_self, if_pos rfl, if_neg, place_eq_none (.inl rfl)]
      rintro (he | he)
      · exact hne (by omega) le_rfl (by omega) (by omega) (by omega) he
      · exact hne (by omega) le_rfl (by omega) (by omega) (by omega) he
    · rw [update_of_ne hi1, if_neg (hne hi (by omega) (by omega) le_rfl (by omega)),
        a.treeParent i hi (by omega)]
      by_cases ht : i / 2 = 1
      · have hi3 : i = 2 * 1 + 1 ∨ i = 2 * 1 := by omega
        rw [if_pos (hi3.imp (congrArg f) (congrArg f)), ht, place_of_le le_rfl (by omega),
          update_self]
      · rw [place_replace ht, if_neg (by omega : i / 2 ≠ n + 1), if_neg]
        rintro (he | he)
        · exact hne hi (by omega) (by omega) (by omega) (by omega) he
        · exact hne hi (by omega) (by omega) (by omega) (by omega) he
  · have ho {i : ℕ} (hi : 2 ≤ i) (hin : i ≤ n + 1) : y ≠ f i := by
      rintro rfl
      rcases eq_or_ne i (n + 1) with rfl | hne
      · exact hy ⟨1, le_rfl, by omega, update_self ..⟩
      · exact hy ⟨i, by omega, by omega, update_of_ne (by omega) ..⟩
    rw [hp', hn', hpa', if_neg fun h ↦ ho (by omega) hp.2 h.1,
      if_neg (ho (by omega) le_rfl), if_neg fun h ↦ ho (by omega) hp.2 h.1,
      if_neg (ho (by omega) le_rfl), if_neg, if_neg (ho (by omega) le_rfl)]
    · exact ⟨rfl, rfl, rfl⟩
    · rintro (he | he)
      · exact ho (by omega) (by omega) he
      · exact ho (by omega) (by omega) he

structure Popped (less : α → α → Bool) (n : ℕ) (f : ℕ → α) (h h' : TreeHeap α) (f' : ℕ → α) :
  Prop where
  arranged : Arranged h' n f'
  ordered : Ordered less n f'
  among : ∀ y, Among n f' y ↔ y ≠ f 1 ∧ Among (n + 1) f y
  frame : Frame n f' h h'
  size : h'.size = n

theorem Arranged.pop_one (a : Arranged h 1 f) (hs : h.size = 1) :
  ∃ h' f', h.pop less = some (some (f 1), h') ∧ Popped less 0 f h h' f' := by
  refine ⟨{ h with top := none, size := 0 }, f, ?_, ⟨rfl, ?_, ?_, ?_, ?_⟩, ?_, fun y ↦ ⟨?_, ?_⟩,
    fun _ _ ↦ ⟨rfl, rfl, rfl⟩, rfl⟩
  · rw [TreeHeap.pop, hs, a.top]
    rfl
  · exact fun i j hi hn ↦ by omega
  · exact fun i hi hn ↦ by omega
  · exact fun i hi hn ↦ by omega
  · exact fun i hi hn ↦ by omega
  · exact fun i hi hn ↦ by omega
  · exact fun ⟨i, hi, hn, _⟩ ↦ by omega
  · rintro ⟨hne, i, hi, hn, rfl⟩
    exact absurd (congrArg f (by omega)) hne

theorem Arranged.pop_two (a : Arranged h 2 f) (hs : h.size = 2) :
  ∃ h' f', h.pop less = some (some (f 1), h') ∧ Popped less 1 f h h' f' := by
  have ht : h.top = some (f 1) := a.top
  have hl : h.prev (f 1) = some (f 2) := a.prev 1 le_rfl (by omega)
  refine ⟨{ h.setTreeParent (f 2) none with top := some (f 2), size := 1 }, fun _ ↦ f 2, ?_,
    arranged_one rfl (a.prev 2 (by omega) le_rfl) (a.next 2 (by omega) le_rfl) (update_self ..),
    ordered_one _, fun y ↦ among_one.trans ⟨?_, ?_⟩, fun y hy ↦ ⟨rfl, rfl, ?_⟩, rfl⟩
  · rw [TreeHeap.pop, hs, ht]
    simp [hl]
  · rintro rfl
    exact ⟨a.ne (by omega) le_rfl le_rfl (by omega) (by omega), 2, by omega, le_rfl, rfl⟩
  · rintro ⟨hne, i, hi, hin, rfl⟩
    have hi2 : i ≠ 1 := fun h ↦ hne (congrArg f h)
    exact congrArg f (by omega)
  · exact update_of_ne (fun he ↦ hy (among_one.mpr he)) ..

theorem Arranged.pop_three (hle : StrictWeak less) (a : Arranged h 3 f) (hs : h.size = 3) :
  ∃ h' f', h.pop less = some (some (f 1), h') ∧ Popped less 2 f h h' f' := by
  have hto : h.top = some (f 1) := a.top
  have hlf : h.prev (f 1) = some (f 2) := a.prev 1 le_rfl (by omega)
  have hr : h.next (f 1) = some (f 3) := a.next 1 le_rfl (by omega)
  have hp : ∃ i j, (i = 2 ∧ j = 3 ∨ i = 3 ∧ j = 2) ∧ ¬ less (f j) (f i) ∧
    (if less (f 2) (f 3) then (f 2, f 3) else (f 3, f 2)) = (f i, f j) := by
    by_cases hlt : less (f 2) (f 3)
    · exact ⟨2, 3, .inl ⟨rfl, rfl⟩, hle.asymm _ _ hlt, if_pos hlt⟩
    · exact ⟨3, 2, .inr ⟨rfl, rfl⟩, hlt, if_neg hlt⟩
  obtain ⟨i, j, hij, hlt, hp⟩ := hp
  have hne : f i ≠ f j := a.ne (by omega) (by omega) (by omega) (by omega) (by omega)
  have hl {k : ℕ} (hk : 2 ≤ k) (hkn : k ≤ 3) : h.prev (f k) = none ∧ h.next (f k) = none := by
    rw [a.prev k (by omega) hkn, a.next k (by omega) hkn]
    exact ⟨place_eq_none (by omega), place_eq_none (by omega)⟩
  obtain ⟨hpr, hn⟩ := hl (by omega : 2 ≤ i) (by omega)
  obtain ⟨hpre, hnx⟩ := hl (by omega : 2 ≤ j) (by omega)
  have ht {k : ℕ} (hk : 1 ≤ k) (hk2 : k ≤ 2) : k = 1 ∨ k = 2 := by omega
  set h' : TreeHeap α := { ((h.setTreeParent (f j) (some (f i))).setPrev (f i)
    (some (f j))).setTreeParent (f i) none with top := some (f i), size := 2 }
  set f' : ℕ → α := fun k ↦ if k = 1 then f i else f j
  have ha (y : α) : Among 2 f' y ↔ y = f i ∨ y = f j := by
    refine ⟨fun ⟨k, hk, hk2, he⟩ ↦ ?_, ?_⟩
    · rcases ht hk hk2 with rfl | rfl
      · exact .inl he.symm
      · exact .inr he.symm
    · rintro (rfl | rfl)
      · exact ⟨1, le_rfl, by omega, rfl⟩
      · exact ⟨2, by omega, le_rfl, rfl⟩
  refine ⟨h', f', ?_, ⟨rfl, fun k m hk hk2 hm hm2 he ↦ ?_, fun k hk hk2 ↦ ?_, fun k hk hk2 ↦ ?_,
    fun k hk hk2 ↦ ?_⟩, fun k hk hk2 ↦ ?_, fun y ↦ (ha y).trans ⟨?_, ?_⟩, fun y hy ↦ ?_, rfl⟩
  · rw [TreeHeap.pop, hs, hto]
    simp [hlf, hr, hp, h']
  · rcases ht hk hk2 with rfl | rfl <;> rcases ht hm hm2 with rfl | rfl
    · rfl
    · exact absurd he hne
    · exact absurd he.symm hne
    · rfl
  · rcases ht hk hk2 with rfl | rfl
    · simp [h', f', place]
    · simp [h', f', place, hne.symm, hpre]
  · rcases ht hk hk2 with rfl | rfl
    · simp [h', f', place, hn]
    · simp [h', f', place, hnx]
  · rcases ht hk hk2 with rfl | rfl
    · simp [h', f', place]
    · simp [h', f', place, hne.symm]
  · have : k = 2 := by omega
    subst this
    exact hlt
  · rintro (rfl | rfl)
    · exact ⟨a.ne (by omega) (by omega) le_rfl (by omega) (by omega), i, by omega, by omega, rfl⟩
    · exact ⟨a.ne (by omega) (by omega) le_rfl (by omega) (by omega), j, by omega, by omega, rfl⟩
  · rintro ⟨hy, k, hk, hk3, rfl⟩
    have hk1 : k ≠ 1 := fun h ↦ hy (congrArg f h)
    have hk' : k = i ∨ k = j := by omega
    exact hk'.imp (congrArg f) (congrArg f)
  · rw [ha, not_or] at hy
    simp [h', hy]

omit [DecidableEq α] in
theorem Arranged.among_replace (a : Arranged h (n + 1) f) (hn : 1 ≤ n) (y : α) :
  Among n (update f 1 (f (n + 1))) y ↔ y ≠ f 1 ∧ Among (n + 1) f y := by
  refine ⟨fun ⟨i, hi, hin, heq⟩ ↦ ?_, fun ⟨hne, i, hi, hin, heq⟩ ↦ ?_⟩
  · rcases eq_or_ne i 1 with rfl | hi1
    · rw [update_self] at heq
      subst heq
      exact ⟨a.ne (by omega) le_rfl le_rfl (by omega) (by omega), n + 1, by omega, le_rfl, rfl⟩
    · rw [update_of_ne hi1] at heq
      subst heq
      exact ⟨a.ne hi (by omega) le_rfl (by omega) hi1, i, hi, by omega, rfl⟩
  · subst heq
    have hi1 : i ≠ 1 := fun h ↦ hne (congrArg f h)
    rcases eq_or_ne i (n + 1) with rfl | hne'
    · exact ⟨1, le_rfl, hn, update_self ..⟩
    · exact ⟨i, hi, by omega, update_of_ne hi1 ..⟩

theorem Arranged.pop_many (hl : StrictWeak less) (a : Arranged h (n + 1) f)
  (ho : Ordered less (n + 1) f) (hsi : h.size = n + 1) (hn : 3 ≤ n) :
  ∃ h' f', h.pop less = some (some (f 1), h') ∧ Popped less n f h h' f' := by
  obtain ⟨h₁, hr, a₁, hf, hsi₁⟩ := a.replaceTop hn
  obtain ⟨h₂, f', hsf, hs⟩ := siftDown_spec hl a₁ (ho.sinking _) le_rfl (by omega)
    (by omega : n < 1 + (n + 1))
  rw [update_self] at hsf
  have hla : h.rightmostFull = some (f (n + 1)) := by
    rw [rightmostFull, hsi]
    exact a.getNth (by omega) le_rfl
  refine ⟨{ h₂ with size := h₂.size - 1 }, f', ?_, hs.arranged.of_links rfl rfl rfl rfl, hs.ordered,
    fun y ↦ (hs.among y).trans (a.among_replace (by omega) y), fun y hy ↦ ?_, ?_⟩
  · obtain ⟨m, rfl⟩ : ∃ m, n = m + 3 := ⟨n - 3, by omega⟩
    rw [TreeHeap.pop, hsi, a.top, place_of_le le_rfl (by omega)]
    dsimp only [Option.bind_some]
    rw [hla, Option.bind_some, hr, Option.bind_some, hsf, Option.map_some]
  · have hy' : ¬ Among n (update f 1 (f (n + 1))) y := fun h ↦ hy ((hs.among y).mpr h)
    obtain ⟨hpr, hne, hp⟩ := hs.frame y hy'
    obtain ⟨hpr', hne', hp'⟩ := hf y hy'
    exact ⟨hpr.trans hpr', hne.trans hne', hp.trans hp'⟩
  · exact congrArg (· - 1) (hs.size.trans (hsi₁.trans hsi))

theorem Valid.pop (hle : StrictWeak less) (v : Valid less h xs) (hne : xs ≠ []) :
  ∃ x h', h.pop less = some (some x, h') ∧ x ∈ xs ∧ (∀ y ∈ xs, ¬ less y x) ∧
  Valid less h' (xs.erase x) ∧ h.treeParent x = none ∧ ∀ y, y ∉ xs.erase x →
  h'.prev y = h.prev y ∧ h'.next y = h.next y ∧ h'.treeParent y = h.treeParent y := by
  obtain ⟨f, a, ho, ha⟩ := v.tree
  obtain ⟨n, hn⟩ : ∃ n, xs.length = n + 1 :=
    Nat.exists_eq_succ_of_ne_zero (List.length_eq_zero_iff.not.mpr hne)
  have hs := v.size
  rw [hn] at a ho ha hs
  have hpo : ∃ h' f', h.pop less = some (some (f 1), h') ∧ Popped less n f h h' f' := by
    rcases n with _ | _ | _ | n
    · exact a.pop_one hs
    · exact a.pop_two hs
    · exact a.pop_three hle hs
    · exact a.pop_many hle ho hs (by omega)
  obtain ⟨h', f', he, hp⟩ := hpo
  have ht : f 1 ∈ xs := (ha _).mp ⟨1, le_rfl, by omega, rfl⟩
  have hr (y : α) : Among n f' y ↔ y ∈ xs.erase (f 1) := by
    rw [hp.among, ha, v.nodup.mem_erase_iff]
  have hl : (xs.erase (f 1)).length = n := by
    rw [List.length_erase_of_mem ht, hn, Nat.add_sub_cancel]
  refine ⟨f 1, h', he, ht, fun y hy ↦ ?_, ⟨hp.size.trans hl.symm, v.nodup.erase _, f', ?_⟩,
    (a.treeParent 1 le_rfl (by omega)).trans (place_eq_none (.inl rfl)),
    fun y hy ↦ hp.frame y fun h ↦ hy ((hr y).mp h)⟩
  · obtain ⟨i, hi, hin, rfl⟩ := (ha y).mpr hy
    exact ho.min hle hi hin
  · rw [hl]
    exact ⟨hp.arranged, hp.ordered, hr⟩

end

open Foundation.Runs List

variable {α : Type*}

inductive Op (α : Type*)
  | push (element : α)
  | pop

structure Use (α : Type*) where
  heap : TreeHeap α
  pushed : List α := []
  held : List α := []

def taken [DecidableEq α] (held : List α) : Option α → List α
  | none => held
  | some x => held.erase x

def step [DecidableEq α] (less : α → α → Bool) (s : Use α) : Op α → Option (Use α)
  | .push x => (s.heap.push less x).map fun heap ↦
      { heap, pushed := x :: s.pushed, held := x :: s.held }
  | .pop => (s.heap.pop less).map fun out ↦ { s with heap := out.2, held := taken s.held out.1 }

def Fresh (s : Use α) : Op α → Prop
  | .push x => x ∉ s.pushed ∧ s.heap.prev x = none ∧ s.heap.next x = none ∧
      s.heap.treeParent x = none
  | .pop => True

structure Complete (less : α → α → Bool) (h : TreeHeap α) (xs : List α) : Prop where
  size : h.size = xs.length
  nodes : ∀ path, (h.follow path).isSome ↔ position path ≤ h.size
  once : ∀ path path' x, h.follow path = some x → h.follow path' = some x → path = path'
  holds : ∀ x, x ∈ xs ↔ ∃ path, h.follow path = some x
  top : ∀ x, h.top = some x → h.treeParent x = none
  parent : ∀ path right x y, h.follow path = some x → h.follow (path ++ [right]) = some y →
    h.treeParent y = some x
  ordered : ∀ path right x y, h.follow path = some x → h.follow (path ++ [right]) = some y →
    ¬ less y x

/-- `pop` returns nothing if nothing is held, and else a least element, which it takes out. -/
def PopsLeast [DecidableEq α] (less : α → α → Bool) (s : Use α) : Prop :=
  ∃ x h, s.heap.pop less = some (x, h) ∧
    (s.held = [] → x = none ∧ h = s.heap) ∧
    (s.held ≠ [] → ∃ y ∈ s.held, x = some y ∧ (∀ z ∈ s.held, ¬ less z y) ∧
      Complete less h (s.held.erase y))

variable {less : α → α → Bool} {h : TreeHeap α} {xs : List α} {s t : Use α}

theorem follow_of_top_eq_none (ht : h.top = none) (p : List Bool) : h.follow p = none := by
  induction p using List.reverseRecOn with
  | nil => exact ht
  | append_singleton p r ih =>
    rw [follow] at ih ⊢
    rw [foldl_append, ih]
    rfl

theorem complete_nil (ht : h.top = none) (hs : h.size = 0) : Complete less h [] := by
  have hn := follow_of_top_eq_none ht
  refine ⟨hs, fun p ↦ ?_, fun p p' x hp ↦ ?_, fun x ↦ ⟨nofun, ?_⟩, fun x hx ↦ ?_,
    fun p r x y hp ↦ ?_, fun p r x y hp ↦ ?_⟩
  · have hpo := position_pos p
    refine iff_of_false ?_ (by omega)
    rw [hn]
    exact Bool.false_ne_true
  · cases (hn p).symm.trans hp
  · rintro ⟨p, hp⟩
    cases (hn p).symm.trans hp
  · cases ht.symm.trans hx
  · cases (hn p).symm.trans hp
  · cases (hn p).symm.trans hp

theorem Valid.complete (v : Valid less h xs) : Complete less h xs := by
  obtain ⟨hn, hm⟩ := v.follow
  obtain ⟨f, a, ho, -⟩ := v.tree
  have hpl (path : List Bool) (x : α) (hp : h.follow path = some x) :
    position path ≤ xs.length ∧ f (position path) = x := by
    rw [a.follow] at hp
    exact (exists_of_place hp).2
  have hh (path : List Bool) (r : Bool) : position (path ++ [r]) / 2 = position path := by
    have hr := r.toNat_lt
    rw [position_concat]
    omega
  refine ⟨v.size, fun path ↦ ?_, fun path path' x hp hp' ↦ ?_,
    fun x ↦ ⟨fun hx ↦ (hn x hx).exists, fun hx ↦ ?_⟩, fun x hx ↦ ?_,
    fun path r x y hx hy ↦ ?_, fun path r x y hx hy ↦ ?_⟩
  · have hpo := position_pos path
    rw [a.follow, v.size, place]
    split_ifs with hi
    · exact iff_of_true rfl hi.2
    · exact iff_of_false Bool.false_ne_true fun hl ↦ hi ⟨hpo, hl⟩
  · exact (hn x (hm path x hp)).unique hp hp'
  · obtain ⟨path, hp⟩ := hx
    exact hm path x hp
  · have hone := hpl [] x hx
    have hpa := a.treeParent 1 le_rfl hone.1
    rw [show f 1 = x from hone.2] at hpa
    exact hpa.trans (place_eq_none (.inl rfl))
  · obtain ⟨hi, rfl⟩ := hpl _ y hy
    obtain ⟨hi', rfl⟩ := hpl _ x hx
    rw [a.treeParent _ (position_pos _) hi, hh, place_of_le (position_pos _) hi']
  · obtain ⟨hi, rfl⟩ := hpl _ y hy
    obtain ⟨-, rfl⟩ := hpl _ x hx
    have ht : 2 ≤ position (path ++ [r]) := by
      have hpo := position_pos path
      rw [position_concat]
      omega
    have hlt := ho _ ht hi
    rwa [hh] at hlt

variable [DecidableEq α]

structure Sound (less : α → α → Bool) (s : Use α) : Prop where
  valid : s.held = [] ∧ s.heap.top = none ∧ s.heap.size = 0 ∨ Valid less s.heap s.held
  subset : ∀ x ∈ s.held, x ∈ s.pushed

omit [DecidableEq α] in
theorem Sound.valid_of_mem (hs : Sound less s) (x : α) : Valid less s.heap s.held := by
  obtain ⟨hh, ht, hsi⟩ | hv := hs.valid
  · rw [hh]
    exact valid_nil ht hsi x
  · exact hv

omit [DecidableEq α] in
theorem Sound.complete (hs : Sound less s) : Complete less s.heap s.held := by
  obtain ⟨hh, ht, hsi⟩ | hv := hs.valid
  · rw [hh]
    exact complete_nil ht hsi
  · exact hv.complete

theorem Sound.push (hl : StrictWeak less) (hs : Sound less s) {x : α}
  (hx : Fresh s (.push x)) : ∃ t, step less s (.push x) = some t ∧ Sound less t := by
  obtain ⟨hp, hpr, hn, hpa⟩ := hx
  have hh : x ∉ s.held := fun hm ↦ hp (hs.subset x hm)
  obtain ⟨h', hpu, hv, -⟩ := (hs.valid_of_mem x).push hl hh fun _ ↦ ⟨hpr, hn, hpa⟩
  refine ⟨_, by rw [step, hpu]; rfl, .inr hv, fun y hy ↦ ?_⟩
  obtain rfl | hy := mem_cons.mp hy
  · exact mem_cons_self
  · exact mem_cons_of_mem _ (hs.subset y hy)

theorem Sound.pop (hle : StrictWeak less) (hs : Sound less s) :
  ∃ x h, s.heap.pop less = some (x, h) ∧ Sound less { s with heap := h, held := taken s.held x } ∧
  (s.held = [] → x = none ∧ h = s.heap) ∧
  (s.held ≠ [] → ∃ y ∈ s.held, x = some y ∧ ∀ z ∈ s.held, ¬ less z y) := by
  obtain hh | hne := eq_or_ne s.held []
  · have hsi : s.heap.size = 0 := by rw [hs.complete.size, hh, length_nil]
    exact ⟨none, s.heap, by rw [TreeHeap.pop, hsi], hs, fun _ ↦ ⟨rfl, rfl⟩, fun hne ↦ absurd hh hne⟩
  · obtain ⟨y, -⟩ := exists_mem_of_ne_nil _ hne
    obtain ⟨x, h', hp, hx, hl, hv, -⟩ := (hs.valid_of_mem y).pop hle hne
    refine ⟨some x, h', hp, ⟨.inr hv, fun z hz ↦ ?_⟩, fun he ↦ absurd he hne,
      fun _ ↦ ⟨x, hx, rfl, hl⟩⟩
    exact hs.subset z (mem_of_mem_erase hz)

theorem Sound.step {op : Op α} (hl : StrictWeak less) (hs : Sound less s) (ho : Fresh s op)
  (hst : step less s op = some t) : Sound less t := by
  cases op with
  | push x =>
    obtain ⟨t', hst', ht'⟩ := hs.push hl ho
    cases hst.symm.trans hst'
    exact ht'
  | pop =>
    obtain ⟨x, h', hp, ht', -⟩ := hs.pop hl
    rw [TreeHeap.step, hp] at hst
    cases hst
    exact ht'

theorem Sound.popsLeast (hle : StrictWeak less) (hs : Sound less s) : PopsLeast less s := by
  obtain ⟨x, h', hp, ht', hn, hc⟩ := hs.pop hle
  refine ⟨x, h', hp, hn, fun hne ↦ ?_⟩
  obtain ⟨y, hy, rfl, hl⟩ := hc hne
  exact ⟨y, hy, rfl, hl, ht'.complete⟩

theorem priority_queue_of_fresh {α : Type*} [DecidableEq α] (less : α → α → Bool)
    (hless : StrictWeak less) (h₀ : TreeHeap α) (htop : h₀.top = none) (hsize : h₀.size = 0)
    (s : Use α) (hs : Reachable (step less) Fresh { heap := h₀ } s) :
    Complete less s.heap s.held ∧ PopsLeast less s ∧
      ∀ x, Fresh s (.push x) → ∃ t, step less s (.push x) = some t := by
  have hso : Sound less s := hs.invariant (I := Sound less) ⟨.inl ⟨rfl, htop, hsize⟩, nofun⟩
    fun _ _ _ hs ho hst ↦ hs.step hless ho hst
  refine ⟨hso.complete, hso.popsLeast hless, fun x hx ↦ ?_⟩
  obtain ⟨t, ht, -⟩ := hso.push hless hx
  exact ⟨t, ht⟩

theorem priority_queue_threeElements : ∃ s, exec (step fun a b : ℕ ↦ decide (a < b)) { heap := {} }
  [.push 3, .push 1, .push 2, .pop] = some s ∧ s.held = [2, 3] ∧
  Complete (fun a b ↦ decide (a < b)) s.heap s.held ∧
  PopsLeast (fun a b ↦ decide (a < b)) s := by
  have hl : StrictWeak fun a b : ℕ ↦ decide (a < b) := by
    refine ⟨fun a b ha ↦ ?_, fun a b c ha hbc ↦ ?_⟩
    all_goals simp only [decide_eq_true_eq] at *
    all_goals omega
  refine ⟨_, rfl, rfl, ?_⟩
  have hq := priority_queue_of_fresh _ hl {} rfl rfl _
    (.head (.push 3) ⟨by decide, rfl, rfl, rfl⟩ rfl (.head (.push 1) ⟨by decide, rfl, rfl, rfl⟩ rfl
    (.head (.push 2) ⟨by decide, rfl, rfl, rfl⟩ rfl (.head .pop trivial rfl (.refl ..)))))
  exact ⟨hq.1, hq.2.1⟩

end ReaverOS.Kernel.TreeHeap
