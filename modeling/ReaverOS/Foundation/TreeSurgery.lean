import ReaverOS.Foundation.SearchTree

namespace ReaverOS.Foundation.SearchTree.Links

open Function List

variable {β α : Type} [DecidableEq α] {s s' : Links β α} {t l r : Tree β α}
  {q : List (Crumb β α)} {pa : Option α} {tag : β} {x y : α}

theorem adopt_left (s : Links β α) (c pa : Option α) : (s.adopt c pa).left = s.left := by
  cases c <;> rfl

theorem adopt_right (s : Links β α) (c pa : Option α) : (s.adopt c pa).right = s.right := by
  cases c <;> rfl

theorem adopt_tag (s : Links β α) (c pa : Option α) : (s.adopt c pa).tag = s.tag := by
  cases c <;> rfl

theorem adopt_root (s : Links β α) (c pa : Option α) : (s.adopt c pa).root = s.root := by
  cases c <;> rfl

theorem adopt_parent (s : Links β α) (c pa : Option α) (x : α) :
  (s.adopt c pa).parent x = if c = some x then pa else s.parent x := by
  cases c with
  | none => rfl
  | some y =>
    refine (update_apply ..).trans (if_congr ?_ rfl rfl)
    rw [Option.some.injEq, eq_comm]

theorem sameAt_replace (s : Links β α) (x : α) (v : Option α) (h : pa ≠ some y) :
  SameAt s (s.replace pa x v) y := by
  cases pa with
  | none => exact ⟨rfl, rfl, rfl, rfl⟩
  | some p =>
    have hne : y ≠ p := fun he ↦ h (congrArg some he.symm)
    rw [replace, relink]
    split
    · exact ⟨update_of_ne hne .., rfl, rfl, rfl⟩
    · exact ⟨rfl, update_of_ne hne .., rfl, rfl⟩

theorem PathAt.replace (h : PathAt s q (some x)) (hp : (outer q).Nodup)
  (hx : x ∉ outer q) (v : Option α) : PathAt (s.replace (owner q) x v) q v := by
  cases q with
  | nil => rfl
  | cons c q =>
    cases c with
    | left tag a r =>
      obtain ⟨⟨hpa, ht, hle, hri⟩, hr, hp'⟩ := h
      have hs (y : α) (hy : y ∈ r.toList ++ outer q) : SameAt s (s.replace (some a) x v) y := by
        apply sameAt_replace
        intro he
        cases he
        exact (List.nodup_cons.mp hp).1 hy
      have hre : s.replace (some a) x v = s.setLeft a v := if_pos hle
      rw [List.forall_mem_append] at hs
      refine ⟨⟨?_, ?_, ?_, ?_⟩, hr.congr hs.1, hp'.congr ?_ hs.2⟩
      all_goals rw [owner, hre]
      · exact hpa
      · exact ht
      · exact update_self ..
      · exact hri
      · rfl
    | right tag l a =>
      obtain ⟨⟨hpa, ht, hle, hri⟩, hl, hp'⟩ := h
      have hs (y : α) (hy : y ∈ l.toList ++ outer q) : SameAt s (s.replace (some a) x v) y := by
        apply sameAt_replace
        intro he
        cases he
        exact (List.nodup_cons.mp hp).1 hy
      have hne : s.left a ≠ some x := by
        intro he
        apply hx
        refine List.mem_cons_of_mem _ (List.mem_append_left _ ?_)
        exact mem_toList_of_root (hle.symm.trans he)
      have hre : s.replace (some a) x v = s.setRight a v := if_neg hne
      rw [List.forall_mem_append] at hs
      refine ⟨⟨?_, ?_, ?_, ?_⟩, hl.congr hs.1, hp'.congr ?_ hs.2⟩
      all_goals rw [owner, hre]
      · exact hpa
      · exact ht
      · exact hle
      · exact update_self ..
      · rfl

theorem At.replace {u : Tree β α} (hp : PathAt s q (some x)) (hx : x ∉ outer q)
  (hu : TreeAt s (owner q) u) (ha : Apart q u) : At (s.replace (owner q) x u.root) q u := by
  refine ⟨hp.replace ha.outer hx _, hu.congr fun y hy ↦ sameAt_replace _ _ _ ?_⟩
  intro h
  exact ha.disjoint y hy (owner_mem h)

theorem sameAt_adopt (s : Links β α) (pa : Option α) {c : Option α}
  (h : c ≠ some y) : SameAt s (s.adopt c pa) y := by
  rw [SameAt, adopt_left, adopt_right, adopt_tag, adopt_parent, if_neg h]
  exact ⟨rfl, rfl, rfl, rfl⟩

omit [DecidableEq α] in
theorem SameAt.trans {s'' : Links β α} (h : SameAt s s' x) (h' : SameAt s' s'' x) :
  SameAt s s'' x :=
  ⟨h'.1.trans h.1, h'.2.1.trans h.2.1, h'.2.2.1.trans h.2.2.1, h'.2.2.2.trans h.2.2.2⟩

theorem At.splice {u : Tree β α} (h : At s q (.node tag l x r))
  (ha : Apart q (.node tag l x r)) (hu : u = l ∨ u = r) :
  At ((s.replace (owner q) x u.root).adopt u.root (owner q)) q u := by
  have ho := ha.disjoint
  have hn := ha.tree
  simp only [Tree.toList, nodup_append, nodup_cons, mem_append, mem_cons] at ho hn
  have hsu : ∀ y ∈ u.toList, y ∉ outer q := by
    intro y hy
    obtain rfl | rfl := hu
    · exact ho y (.inl hy)
    · exact ho y (.inr (.inr hy))
  have hun : u.toList.Nodup := by
    obtain rfl | rfl := hu
    · exact hn.1
    · exact hn.2.1.2
  have ht : TreeAt s (some x) u := by
    obtain rfl | rfl := hu
    · exact h.2.2.1
    · exact h.2.2.2
  have hs (y : α) (hy : y ∈ u.toList) : SameAt s (s.replace (owner q) x u.root) y :=
    sameAt_replace _ _ _ fun he ↦ hsu y hy (owner_mem he)
  constructor
  · refine (h.1.replace ha.outer (ho x (.inr (.inl rfl))) _).congr (adopt_root ..) ?_
    intro y hy
    apply sameAt_adopt
    intro he
    exact hsu y (mem_toList_of_root he) hy
  · refine ht.reparent hun fun y hy ↦ ?_
    obtain ⟨hl, hr, hp, hta⟩ := hs y hy
    rw [adopt_left, adopt_right, adopt_tag, adopt_parent, hp]
    exact ⟨hl, hr, rfl, hta⟩

end ReaverOS.Foundation.SearchTree.Links
