import ReaverOS.Paging.TableHeap

namespace ReaverOS.Paging.TableHeap

section Labels

open List Function Foundation.Fallible

inductive Owner
  | shared
  | root (r : Frame)
  deriving DecidableEq

abbrev Label := Owner × List (Fin 512)

def childLabel (l : Label) (i : Fin 512) : Label :=
  (if l.2 = [] ∧ 256 ≤ (i : ℕ) then .shared else l.1, i :: l.2)

def Below (l l' : Label) : Prop := l'.1 = l.1 ∧ l.2 <:+ l'.2

structure Labelled (label : Frame → Option Label) (h : Heap) : Prop where
  child : ∀ f l, label f = some l → l.2.length < 3 → ∀ i, (h f i).present = true →
    (h f i).size = false → label (h f i).address = some (childLabel l i)

def meetsLarge (h : Heap) : ℕ → Frame → ℕ → Bool
  | 0, _, _ => false
  | I + 1, table, virt =>
    let e := h table (tableIndex (I + 1) virt)
    e.present && I != 0 && (e.size || meetsLarge h I e.address virt)

variable {h h' : Heap} {label label' : Frame → Option Label} {I : ℕ} {f g : Frame}
  {l l' : Label} {frames frames' : List Frame}

theorem Below.refl (l : Label) : Below l l := ⟨rfl, suffix_refl _⟩

theorem Below.trans {l'' : Label} (h : Below l l') (h' : Below l' l'') : Below l l'' :=
  ⟨h'.1.trans h.1, h.2.trans h'.2⟩

theorem below_childLabel (hl : l.2 ≠ []) (i : Fin 512) : Below l (childLabel l i) := by
  rw [childLabel, if_neg fun h ↦ hl h.1]
  exact ⟨rfl, suffix_cons ..⟩

theorem not_below_childLabel (l : Label) (i : Fin 512) : ¬ Below (childLabel l i) l := by
  intro h
  have hl := h.2.length_le
  rw [childLabel, length_cons] at hl
  omega

theorem index_eq_of_below {i j : Fin 512} (hi : Below (childLabel l i) l')
  (hj : Below (childLabel l j) l') : i = j := by
  have hs : i :: l.2 <:+ j :: l.2 := List.suffix_of_suffix_length_le hi.2 hj.2 (by simp)
  exact (List.cons.inj (hs.eq_of_length (by simp))).1

theorem childLabel_ne_nil (l : Label) (i : Fin 512) : (childLabel l i).2 ≠ [] := by
  simp [childLabel]

def Follows {β : Type} (F : Heap → ℕ → Frame → ℕ → β) : Prop :=
  ∀ h h' I f x, h' f (tableIndex (I + 1) x) = h f (tableIndex (I + 1) x) →
    ((h f (tableIndex (I + 1) x)).present = true → (h f (tableIndex (I + 1) x)).size = false →
      I ≠ 0 → F h' I (h f (tableIndex (I + 1) x)).address x =
        F h I (h f (tableIndex (I + 1) x)).address x) →
    F h' (I + 1) f x = F h (I + 1) f x

theorem follows_virtToPhys : Follows virtToPhys := by
  intro h h' I f x he hb
  rw [virtToPhys, virtToPhys, he]
  split
  next hpresent =>
    split
    next => rfl
    next hl =>
      rw [not_or, Bool.not_eq_true] at hl
      exact hb hpresent hl.2 hl.1
  next => rfl

theorem follows_meetsLarge : Follows meetsLarge := by
  intro h h' I f x he hb
  rw [meetsLarge, meetsLarge, he]
  cases hp : (h f (tableIndex (I + 1) x)).present with
  | false => rfl
  | true =>
    cases hs : (h f (tableIndex (I + 1) x)).size with
    | true => rfl
    | false =>
      rcases eq_or_ne I 0 with rfl | hI
      · rfl
      · rw [hb hp hs hI]

variable {β : Type} {F : Heap → ℕ → Frame → ℕ → β} {x : ℕ}

theorem Follows.of_entry (hF : Follows F) (hl : Labelled label h) (hf : label f = some l)
  (hle : I + 1 + l.2.length = 4) (he : h' f (tableIndex (I + 1) x) = h f (tableIndex (I + 1) x))
  (hs : ∀ g l', label g = some l' → Below (childLabel l (tableIndex (I + 1) x)) l' →
  h' g = h g) : F h' (I + 1) f x = F h (I + 1) f x := by
  induction I generalizing f l with
  | zero => exact hF _ _ _ _ _ he fun _ _ hI ↦ absurd rfl hI
  | succ I ih =>
    refine hF _ _ _ _ _ he fun hp hsi _ ↦ ?_
    have hc := hl.child f l hf (by omega) _ hp hsi
    refine ih hc (by rw [childLabel, length_cons]; omega)
      (by rw [hs _ _ hc (.refl _)]) fun g l' hg hb ↦ ?_
    exact hs g l' hg ((below_childLabel (childLabel_ne_nil l _) _).trans hb)

theorem tableIndex_of_page {x y : ℕ} (hx : x / pageSize = y / pageSize) :
  tableIndex (I + 1) x = tableIndex (I + 1) y := by
  obtain ⟨c, hc⟩ := pageSize_dvd_entrySize I
  refine Fin.ext ?_
  rw [tableIndex_val, tableIndex_val, hc, ← Nat.div_div_eq_div_mul, hx, Nat.div_div_eq_div_mul]

theorem meetsLarge_of_page {x y : ℕ} (hx : x / pageSize = y / pageSize) :
  meetsLarge h I f x = meetsLarge h I f y := by
  induction I generalizing f with
  | zero => rfl
  | succ I ih => rw [meetsLarge, meetsLarge, tableIndex_of_page hx, ih]

end Labels

section Mapping

open List Function Foundation.Fallible

structure Fresh (label : Frame → Option Label) (frames : List Frame) : Prop where
  nodup : frames.Nodup
  unlabelled : ∀ f ∈ frames, label f = none

structure Grown (touch : Label → Prop) (label : Frame → Option Label) (m : Mapping)
  (label' : Frame → Option Label) (m' : Mapping) : Prop where
  keeps : ∀ f l, label f = some l → label' f = some l
  labelled : Labelled label' m'.heap
  taken : ∃ taken, m.frames = taken ++ m'.frames ∧
    ∀ f, label' f ≠ none ↔ label f ≠ none ∨ f ∈ taken
  frame : ∀ f l, label f = some l → ¬ touch l → m'.heap f = m.heap f

def Stable (h h' : Heap) (table : Frame) : Prop :=
  ∀ j, (h table j).present = true → (h' table j).present = true ∧
    (h' table j).size = (h table j).size ∧ (h' table j).address = (h table j).address

variable {touch touch' : Label → Prop} {label label' label'' : Frame → Option Label}
  {m m' m'' : Mapping} {user : Bool} {table : Frame} {index : Fin 512} {l l' : Label} {I vs ve : ℕ}

theorem Stable.refl (h : Heap) (table : Frame) : Stable h h table := fun _ hj ↦ ⟨hj, rfl, rfl⟩

variable {h : Heap}

theorem Stable.trans {h' h'' : Heap} (h₁ : Stable h h' table) (h₂ : Stable h' h'' table) :
  Stable h h'' table := by
  intro j hj
  obtain ⟨hp, hs, ha⟩ := h₁ j hj
  obtain ⟨hp', hs', ha'⟩ := h₂ j hp
  exact ⟨hp', hs'.trans hs, ha'.trans ha⟩

theorem Fresh.grown (h : Fresh label m.frames) (hg : Grown touch label m label' m') :
  Fresh label' m'.frames := by
  obtain ⟨t, hfr, hl⟩ := hg.taken
  have hn := h.nodup
  rw [hfr] at hn
  refine ⟨(nodup_append.mp hn).2.1, fun f hf ↦ ?_⟩
  by_contra hne
  rcases (hl f).mp hne with ho | hnw
  · exact ho (h.unlabelled f (by rw [hfr]; exact mem_append_right _ hf))
  · exact (nodup_append.mp hn).2.2 f hnw f hf rfl

theorem Grown.refl (h : Labelled label m.heap) : Grown touch label m label m :=
  ⟨fun _ _ hf ↦ hf, h, ⟨[], rfl, fun f ↦ by simp⟩, fun _ _ _ _ ↦ rfl⟩

theorem Grown.mono (h : Grown touch label m label' m') (hle : ∀ l, touch l → touch' l) :
  Grown touch' label m label' m' :=
  ⟨h.keeps, h.labelled, h.taken, fun f l hf hl ↦ h.frame f l hf fun ht ↦ hl (hle l ht)⟩

theorem Grown.trans (h : Grown touch label m label' m') (h' : Grown touch label' m' label'' m'') :
  Grown touch label m label'' m'' := by
  obtain ⟨t, hfr, hla⟩ := h.taken
  obtain ⟨t', hfr', hla'⟩ := h'.taken
  refine ⟨fun f l hf ↦ h'.keeps f l (h.keeps f l hf), h'.labelled,
    ⟨t ++ t', ?_, fun f ↦ ?_⟩, fun f l hf hl ↦ ?_⟩
  · rw [hfr, hfr', List.append_assoc]
  · rw [hla', hla, mem_append, or_assoc]
  · rw [h'.frame f l (h.keeps f l hf) hl, h.frame f l hf hl]

variable {e : Entry}

theorem Labelled.of_setEntry (hl : Labelled label h) (ht : label table = some l)
  (hc : l.2.length < 3 → e.present = true → e.size = false →
  label e.address = some (childLabel l index)) : Labelled label (setEntry h table index e) := by
  have he (f : Frame) (i : Fin 512) : setEntry h table index e f i = h f i ∨
    f = table ∧ i = index ∧ setEntry h table index e f i = e := by
    rw [setEntry]
    rcases eq_or_ne f table with rfl | hf
    · rw [update_self]
      rcases eq_or_ne i index with rfl | hi
      · exact .inr ⟨rfl, rfl, update_self ..⟩
      · exact .inl (update_of_ne hi ..)
    · rw [update_of_ne hf]
      exact .inl rfl
  refine ⟨fun f l' hf hle i hp hs ↦ ?_⟩
  rcases he f i with heq | ⟨rfl, rfl, heq⟩
  · rw [heq] at hp hs ⊢
    exact hl.child f l' hf hle i hp hs
  · cases hf.symm.trans ht
    rw [heq] at hp hs ⊢
    exact hc hle hp hs

theorem setEntry_of_ne {f : Frame} (hf : f ≠ table) : setEntry h table index e f = h f :=
  update_of_ne hf ..

theorem setEntry_table (j : Fin 512) :
  setEntry h table index e table j = if j = index then e else h table j := by
  rw [setEntry, update_self, update_apply]

structure BodyEffect (table : Frame) (l : Label) (index : Fin 512) (label : Frame → Option Label)
  (m : Mapping) (label' : Frame → Option Label) (m' : Mapping) : Prop where
  grown : Grown (fun l' ↦ l' = l ∨ Below (childLabel l index) l') label m label' m'
  others : ∀ j, j ≠ index → m'.heap table j = m.heap table j
  stable : Stable m.heap m'.heap table

theorem setEntry_effect (hl : Labelled label m.heap) (ht : label table = some l)
  (hc : l.2.length < 3 → e.present = true → e.size = false →
  label e.address = some (childLabel l index))
  (hk : (m.heap table index).present = true → e.present = true ∧
  e.size = (m.heap table index).size ∧ e.address = (m.heap table index).address) :
  BodyEffect table l index label m label { m with heap := setEntry m.heap table index e } := by
  refine ⟨⟨fun _ _ hf ↦ hf, hl.of_setEntry ht hc, ⟨[], rfl, fun f ↦ by simp⟩,
    fun f l' hf hto ↦ setEntry_of_ne ?_⟩, fun j hj ↦ (setEntry_table j).trans (if_neg hj),
    fun j hj ↦ ?_⟩
  · rintro rfl
    exact hto (.inl (Option.some.inj (hf.symm.trans ht)))
  · simp only [setEntry_table]
    split
    next heq =>
      rw [heq] at hj ⊢
      exact hk hj
    next => exact ⟨hj, rfl, rfl⟩

theorem mapPage_effect (hl : Labelled label m.heap) (ht : label table = some l)
  (hle : l.2.length = 3) {a : ℕ} (h : mapPage user table index a m = .ok m') :
  BodyEffect table l index label m label m' := by
  rw [mapPage] at h
  split at h
  next => cases h
  next ha =>
    cases h
    exact setEntry_effect hl ht (fun hln ↦ by omega) fun hp ↦ absurd hp ha

def Touched (I : ℕ) (l : Label) (vs ve : ℕ) (l' : Label) : Prop :=
  l' = l ∨ ∃ x, vs ≤ x ∧ x < ve ∧ Below (childLabel l (tableIndex I x)) l'

structure MapEffect (I : ℕ) (table : Frame) (l : Label) (vs ve : ℕ)
  (label : Frame → Option Label) (m : Mapping) (label' : Frame → Option Label) (m' : Mapping) :
  Prop where
  grown : Grown (Touched I l vs ve) label m label' m'
  others : ∀ j, (∀ x, vs ≤ x → x < ve → tableIndex I x ≠ j) → m'.heap table j = m.heap table j
  stable : Stable m.heap m'.heap table

theorem MapEffect.refl (hl : Labelled label m.heap) : MapEffect I table l vs ve label m label m :=
  ⟨.refl hl, fun _ _ ↦ rfl, .refl _ _⟩

theorem Touched.mono {vs' ve' : ℕ} (h : Touched I l vs ve l') (hvs : vs' ≤ vs) (hve : ve ≤ ve') :
  Touched I l vs' ve' l' := by
  rcases h with rfl | ⟨x, hx, hx', hb⟩
  · exact .inl rfl
  · exact .inr ⟨x, by omega, by omega, hb⟩

theorem Touched.below (h : Touched I (childLabel l index) vs ve l') :
  Below (childLabel l index) l' := by
  rcases h with rfl | ⟨x, -, -, hb⟩
  · exact .refl _
  · exact (below_childLabel (childLabel_ne_nil l index) _).trans hb

theorem MapEffect.body {c : Frame} (hs : BodyEffect table l index label m label' m')
  (ht : label' table = some l)
  (h : MapEffect I c (childLabel l index) vs ve label' m' label'' m'') :
  BodyEffect table l index label m label'' m'' := by
  have hta : m''.heap table = m'.heap table :=
    h.grown.frame table l ht fun hto ↦ not_below_childLabel l index hto.below
  refine ⟨hs.grown.trans (h.grown.mono fun l' hto ↦ .inr hto.below), fun j hj ↦ ?_, ?_⟩
  · rw [hta, hs.others j hj]
  · intro j hj
    rw [hta]
    exact hs.stable j hj

theorem Labelled.alloc {fr : Frame} (hl : Labelled label h) (hfr : label fr = none)
  (l : Label) : Labelled (update label fr (some l)) (update h fr emptyTable) := by
  refine ⟨fun f l' hf hle i hp hs ↦ ?_⟩
  rcases eq_or_ne f fr with rfl | hne
  · rw [update_self] at hp
    cases hp
  · rw [update_of_ne hne] at hf hp hs ⊢
    have hc := hl.child f l' hf hle i hp hs
    rw [update_of_ne, hc]
    rintro heq
    rw [heq, hfr] at hc
    cases hc

def addTable (m : Mapping) (table : Frame) (index : Fin 512) (u : Bool) (frame : Frame)
  (frames : List Frame) : Mapping :=
  { m with
    heap := setEntry (update m.heap frame emptyTable) table index
      { m.heap table index with present := true, user := u, address := frame }
    frames }

section

variable {frame : Frame} {frames : List Frame}

theorem ne_of_unlabelled {f : Frame} (hf : label f = some l) (hfr : label frame = none) :
  f ≠ frame := by
  rintro rfl
  rw [hfr] at hf
  cases hf

theorem addTable_table (hn : table ≠ frame) (u : Bool) (j : Fin 512) :
  (addTable m table index u frame frames).heap table j =
  if j = index then { m.heap table index with present := true, user := u, address := frame }
  else m.heap table j := by
  refine (setEntry_table j).trans ?_
  rw [update_of_ne hn]

theorem addTable_grown (hl : Labelled label m.heap) (ht : label table = some l)
  (hfr : label frame = none) (hfra : m.frames = frame :: frames) (i : Fin 512) (u : Bool) :
  Grown (· = l) label m (update label frame (some (childLabel l i)))
  (addTable m table i u frame frames) := by
  have hne := ne_of_unlabelled ht hfr
  refine ⟨fun f l' hf ↦ ?_, ?_, ⟨[frame], hfra, fun f ↦ ?_⟩, fun f l' hf hto ↦ ?_⟩
  · rw [update_of_ne (ne_of_unlabelled hf hfr), hf]
  · refine (hl.alloc hfr (childLabel l i)).of_setEntry (l := l) ?_ fun _ _ _ ↦ ?_
    · rw [update_of_ne hne, ht]
    · exact update_self ..
  · rcases eq_or_ne f frame with rfl | hf
    · simp
    · simp [hf]
  · have hf' : f ≠ table := by
      rintro rfl
      exact hto (Option.some.inj (hf.symm.trans ht))
    exact (setEntry_of_ne hf').trans (update_of_ne (ne_of_unlabelled hf hfr) ..)

theorem addTable_stable (hn : table ≠ frame) (ha : (m.heap table index).present = false)
  (u : Bool) : Stable m.heap (addTable m table index u frame frames).heap table := by
  intro j hj
  have hj' : j ≠ index := by
    rintro rfl
    rw [ha] at hj
    cases hj
  rw [addTable_table hn, if_neg hj']
  exact ⟨hj, rfl, rfl⟩

end

theorem meetsLarge_step {x : ℕ} (h : meetsLarge m.heap (I + 1 + 1) table x = false)
  (hp : (m.heap table (tableIndex (I + 1 + 1) x)).present = true) :
  (m.heap table (tableIndex (I + 1 + 1) x)).size = false ∧
  meetsLarge m.heap (I + 1) (m.heap table (tableIndex (I + 1 + 1) x)).address x = false := by
  rw [meetsLarge] at h
  simpa [hp] using h

theorem Fresh.alloc {frame : Frame} {frames : List Frame} (h : Fresh label (frame :: frames))
  (l : Label) : Fresh (update label frame (some l)) frames := by
  refine ⟨h.nodup.tail, fun f hf ↦ ?_⟩
  have hne : f ≠ frame := by
    rintro rfl
    exact (nodup_cons.mp h.nodup).1 hf
  rw [update_of_ne hne]
  exact h.unlabelled f (mem_cons_of_mem _ hf)

section

variable {a b : ℕ} {d : Frame → ℕ → ℕ → Mapping → Except Fault Mapping}

theorem mapTable_effect (hl : Labelled label m.heap) (hf : Fresh label m.frames)
  (ht : label table = some l) (hlv : I + 1 + 1 + l.2.length = 4) (hab : a < b)
  (hi : ∀ x, a ≤ x → x < b → tableIndex (I + 1 + 1) x = index)
  (hla : ∀ x, a ≤ x → x < b → meetsLarge m.heap (I + 1 + 1) table x = false)
  (hd : ∀ c label m m', Labelled label m.heap → Fresh label m.frames →
  label c = some (childLabel l index) →
  (∀ x, a ≤ x → x < b → meetsLarge m.heap (I + 1) c x = false) → d c a b m = .ok m' →
  ∃ label', MapEffect (I + 1) c (childLabel l index) a b label m label' m')
  (h : mapTable user d table index a b m = .ok m') :
  ∃ label', BodyEffect table l index label m label' m' := by
  rw [mapTable] at h
  split at h
  next hp =>
    have hse := setEntry_effect
      (e := { m.heap table index with user := (m.heap table index).user || user }) hl ht
      (fun hle ↦ hl.child table l ht hle index) fun hp ↦ ⟨hp, rfl, rfl⟩
    have hs : (m.heap table index).size = false := by
      rw [← hi a le_rfl hab] at hp ⊢
      exact (meetsLarge_step (hla a le_rfl hab) hp).1
    have hc := hl.child table l ht (by omega) index hp hs
    have hb (g : Frame) (l' : Label) (hg : label g = some l')
      (hb : Below (childLabel l index) l') : g ≠ table := by
      rintro rfl
      cases hg.symm.trans ht
      exact not_below_childLabel _ index hb
    obtain ⟨label', he⟩ := hd _ label _ m' hse.grown.labelled (hf.grown hse.grown) hc
      (fun x hx hx' ↦ by
        rw [follows_meetsLarge.of_entry hl hc (by rw [childLabel, length_cons]; omega)
          (by rw [setEntry_of_ne (hb _ _ hc (.refl _))]) fun g l' hg hb' ↦
          setEntry_of_ne (hb g l' hg ((below_childLabel (childLabel_ne_nil l index) _).trans hb'))]
        have hp' := hp
        rw [← hi x hx hx'] at hp' ⊢
        exact (meetsLarge_step (hla x hx hx') hp').2) h
    exact ⟨label', he.body hse ht⟩
  next ha =>
    rw [Bool.not_eq_true] at ha
    split at h
    next => cases h
    next frame frames hfra =>
      rw [hfra] at hf
      have hfr := hf.unlabelled frame (mem_cons_self ..)
      have hne := ne_of_unlabelled ht hfr
      let u := (m.heap table index).user || user
      have hse : BodyEffect table l index label m (update label frame (some (childLabel l index)))
        (addTable m table index u frame frames) :=
        ⟨(addTable_grown hl ht hfr hfra index u).mono fun _ ↦ .inl,
          fun j hj ↦ (addTable_table hne u j).trans (if_neg hj), addTable_stable hne ha u⟩
      have hem : (addTable m table index u frame frames).heap frame = emptyTable :=
        (setEntry_of_ne hne.symm).trans (update_self ..)
      obtain ⟨label', he⟩ := hd frame _ _ m' hse.grown.labelled
        (hf.alloc (childLabel l index)) (update_self ..)
        (fun x _ _ ↦ by rw [meetsLarge, hem]; rfl) h
      exact ⟨label', he.body hse (hse.grown.keeps table l ht)⟩

end

theorem mapLoop_step {la lb : Frame → Option Label} {m₀ m₁ : Mapping} {a b : ℕ}
  (hl : I + 1 + l.2.length = 4) (ht : la table = some l) (ha : vs ≤ a) (hab : a < b)
  (ho : ∀ x, b ≤ x → x < ve → tableIndex (I + 1) x ≠ tableIndex (I + 1) a)
  (hp : MapEffect (I + 1) table l vs a la m₀ label m)
  (hla : ∀ x, a ≤ x → x < ve → meetsLarge m.heap (I + 1) table x = false)
  (hbo : BodyEffect table l (tableIndex (I + 1) a) label m lb m₁) :
  MapEffect (I + 1) table l vs b la m₀ lb m₁ ∧
  ∀ x, b ≤ x → x < ve → meetsLarge m₁.heap (I + 1) table x = false := by
  have ht' := hp.grown.keeps table l ht
  refine ⟨⟨?_, fun j hj ↦ ?_, hp.stable.trans hbo.stable⟩, fun x hx hx' ↦ ?_⟩
  · refine (hp.grown.mono fun l' h ↦ h.mono le_rfl hab.le).trans (hbo.grown.mono ?_)
    rintro l' (rfl | hb)
    · exact .inl rfl
    · exact .inr ⟨a, ha, hab, hb⟩
  · rw [hbo.others j fun he ↦ hj a ha hab he.symm, hp.others j fun x hx hx' ↦ hj x hx (by omega)]
  · rw [← hla x (by omega) hx']
    refine follows_meetsLarge.of_entry hp.grown.labelled ht' hl
      (hbo.others _ (ho x hx hx')) fun g l' hg hb ↦ hbo.grown.frame g l' hg ?_
    rintro (rfl | hb')
    · exact not_below_childLabel _ _ hb
    · exact ho x hx hx' (index_eq_of_below hb hb')

theorem vmMap_of_body (hl : Labelled label m.heap) (hf : Fresh label m.frames)
  (ht : label table = some l) (hlv : I + 1 + l.2.length = 4) (hv : ve < 2 ^ 64)
  (hlr : ∀ x, vs ≤ x → x < ve → meetsLarge m.heap (I + 1) table x = false)
  (hbo : ∀ a b label m m', Labelled label m.heap → Fresh label m.frames →
  label table = some l → a < b → b ≤ ve →
  (∀ x, a ≤ x → x < b → tableIndex (I + 1) x = tableIndex (I + 1) a) →
  (∀ x, a ≤ x → x < b → meetsLarge m.heap (I + 1) table x = false) →
  (if I = 0 then mapPage user table (tableIndex (I + 1) a) a m
  else mapTable user (vmMap user I) table (tableIndex (I + 1) a) a b m) = .ok m' →
  ∃ label', BodyEffect table l (tableIndex (I + 1) a) label m label' m')
  (h : vmMap user (I + 1) table vs ve m = .ok m') :
  ∃ label', MapEffect (I + 1) table l vs ve label m label' m' := by
  rw [vmMap] at h
  rcases lt_or_ge ve vs with hgt | hle
  · rw [entryLoop_of_not_lt (by omega)] at h
    cases h
    exact ⟨label, .refl hl⟩
  have hfi := entryLoop_invariant (by omega) hv
    (fun c m₁ ↦ ∃ label', MapEffect (I + 1) table l vs c label m label' m₁ ∧
    ∀ x, c ≤ x → x < ve → meetsLarge m₁.heap (I + 1) table x = false)
    _ hle (fun _ ↦ by rw [← tableIndex_val]; omega) ?_ h ⟨label, .refl hl, hlr⟩
  · obtain ⟨label', he, -⟩ := hfi
    exact ⟨label', he⟩
  · rintro a b m₁ m₂ ha hab hb hin hou ⟨label₁, hp, hla⟩ hok
    obtain ⟨m₂', hok', hq⟩ := bind_eq_ok hok
    cases hq
    obtain ⟨la, hg, ho, hs⟩ := hbo a b label₁ m₁ m₂' hp.grown.labelled
      (hf.grown hp.grown) (hp.grown.keeps table l ht) hab hb hin
      (fun x hx hx' ↦ hla x hx (by omega)) hok'
    exact ⟨la, mapLoop_step hlv ht ha hab hou hp hla
      ⟨⟨hg.keeps, hg.labelled, hg.taken, hg.frame⟩, ho, hs⟩⟩

theorem vmMap_mapEffect (hl : Labelled label m.heap) (hf : Fresh label m.frames)
  (ht : label table = some l) (hle : I + 1 + l.2.length = 4) (hv : ve < 2 ^ 64)
  (hla : ∀ x, vs ≤ x → x < ve → meetsLarge m.heap (I + 1) table x = false)
  (h : vmMap user (I + 1) table vs ve m = .ok m') :
  ∃ label', MapEffect (I + 1) table l vs ve label m label' m' := by
  induction I generalizing table l label m m' vs ve with
  | zero =>
    refine vmMap_of_body hl hf ht hle hv hla ?_ h
    intro a b label m m' hl _ ht _ _ _ _ ho
    rw [if_pos rfl] at ho
    exact ⟨label, mapPage_effect hl ht (by omega) ho⟩
  | succ I ih =>
    refine vmMap_of_body hl hf ht hle hv hla ?_ h
    intro a b label m m' hl hf ht ha hb hi hla ho
    rw [if_neg (Nat.succ_ne_zero I)] at ho
    refine mapTable_effect hl hf ht hle ha hi hla ?_ ho
    intro c label m m' hl hf hc hla ho
    refine ih hl hf hc ?_ (by omega) hla ho
    rw [childLabel, length_cons]
    omega

end Mapping

section Unmapping

open List Function Foundation.Fallible

structure Pushed (h : Heap) (I : ℕ) (table : Frame) (vs ve : ℕ) (xs : List ℕ)
  (fs : List Frame) : Prop where
  frames : fs.map (fun f ↦ some (getPhys f)) = xs.map (virtToPhys h I table)
  bounds : ∀ x ∈ xs, vs ≤ x ∧ x < ve
  pages : xs.Pairwise fun x y ↦ y / pageSize < x / pageSize

structure UnmapEffect (freePhysical : Bool) (I : ℕ) (table : Frame) (l : Label) (vs ve : ℕ)
  (label : Frame → Option Label) (m m' : Unmapping) : Prop where
  frame : ∀ f, m'.heap f = m.heap f ∨
    ∃ l', label f = some l' ∧ l'.2.length = 3 ∧ Touched I l vs ve l'
  others : ∀ j, (∀ x, vs ≤ x → x < ve → tableIndex I x ≠ j) → m'.heap table j = m.heap table j
  pushed : ∃ xs fs, m'.pushed = fs ++ m.pushed ∧ Pushed m.heap I table vs ve xs fs ∧
    (freePhysical = false → fs = [])

variable {freePhysical : Bool} {label : Frame → Option Label} {m m' m'' : Unmapping}
  {table : Frame} {l l' : Label} {I vs ve a b : ℕ}

theorem Pushed.nil (h : Heap) (I : ℕ) (t : Frame) (vs ve : ℕ) : Pushed h I t vs ve [] [] :=
  ⟨rfl, fun _ h ↦ absurd h not_mem_nil, .nil⟩

theorem UnmapEffect.refl (m : Unmapping) : UnmapEffect freePhysical I table l vs ve label m m :=
  ⟨fun _ ↦ .inl rfl, fun _ _ ↦ rfl, [], [], rfl, .nil .., fun _ ↦ rfl⟩

theorem Labelled.of_lowest {h h' : Heap} (hl : Labelled label h)
  (hs : ∀ f, h' f = h f ∨ ∃ l, label f = some l ∧ l.2.length = 3) : Labelled label h' := by
  refine ⟨fun f l hf hle ↦ ?_⟩
  rcases hs f with heq | ⟨l', hf', hle'⟩
  · rw [heq]
    exact hl.child f l hf hle
  · cases hf.symm.trans hf'
    omega

theorem UnmapEffect.lowest (h : UnmapEffect freePhysical I table l vs ve label m m') (f : Frame) :
  m'.heap f = m.heap f ∨ ∃ l, label f = some l ∧ l.2.length = 3 := by
  rcases h.frame f with heq | ⟨l', hf, hl, -⟩
  · exact .inl heq
  · exact .inr ⟨l', hf, hl⟩

theorem UnmapEffect.virtToPhys_eq (hl : Labelled label m.heap) (ht : label table = some l)
  (hle : I + l.2.length = 4) (h : UnmapEffect freePhysical I table l vs ve label m m') {y : ℕ}
  (hy : ∀ x, vs ≤ x → x < ve → tableIndex I x ≠ tableIndex I y) :
  virtToPhys m'.heap I table y = virtToPhys m.heap I table y := by
  cases I with
  | zero => rfl
  | succ I =>
    refine follows_virtToPhys.of_entry hl ht hle (h.others _ hy) fun g l' hg hb ↦ ?_
    rcases h.frame g with heq | ⟨l'', hg', -, hto⟩
    · exact heq
    · cases hg.symm.trans hg'
      rcases hto with rfl | ⟨x, hx, hx', hb'⟩
      · exact absurd hb (not_below_childLabel _ _)
      · exact absurd (index_eq_of_below hb' hb) (hy x hx hx')

theorem page_lt_page {x y : ℕ} (hI : I ≠ 0) (hx : x < y)
  (hi : tableIndex I x ≠ tableIndex I y) : x / pageSize < y / pageSize := by
  obtain ⟨I, rfl⟩ := Nat.exists_eq_succ_of_ne_zero hI
  exact lt_of_le_of_ne (Nat.div_le_div_right hx.le) fun he ↦ hi (tableIndex_of_page he)

theorem UnmapEffect.trans (hI : I ≠ 0) (hl : Labelled label m.heap) (ht : label table = some l)
  (hlv : I + l.2.length = 4) (h : UnmapEffect freePhysical I table l vs a label m m')
  (h' : UnmapEffect freePhysical I table l a b label m' m'') (hv : vs ≤ a) (ha : a ≤ b)
  (hs : ∀ x y, vs ≤ x → x < a → a ≤ y → y < b → tableIndex I x ≠ tableIndex I y) :
  UnmapEffect freePhysical I table l vs b label m m'' := by
  obtain ⟨xs, fs, hpu, hp, hfr⟩ := h.pushed
  obtain ⟨ys, gs, hpu', hp', hfr'⟩ := h'.pushed
  refine ⟨fun f ↦ ?_, fun j hj ↦ ?_, ys ++ xs, gs ++ fs, ?_, ⟨?_, fun x hx ↦ ?_, ?_⟩, fun hf ↦ ?_⟩
  · rcases h'.frame f with heq | ⟨l', hf, hle, hto⟩
    · rcases h.frame f with heq' | ⟨l', hf, hle, hto⟩
      · exact .inl (heq.trans heq')
      · exact .inr ⟨l', hf, hle, hto.mono le_rfl ha⟩
    · exact .inr ⟨l', hf, hle, hto.mono hv le_rfl⟩
  · rw [h'.others j fun x hx hx' ↦ hj x (by omega) hx',
      h.others j fun x hx hx' ↦ hj x hx (by omega)]
  · rw [hpu', hpu, List.append_assoc]
  · rw [map_append, map_append, hp.frames, hp'.frames]
    congr 1
    refine map_congr_left fun y hy ↦ ?_
    obtain ⟨hy, hy'⟩ := hp'.bounds y hy
    exact h.virtToPhys_eq hl ht hlv fun x hx hx' ↦ hs x y hx hx' hy hy'
  · rcases mem_append.mp hx with hx | hx
    · have := hp'.bounds x hx
      omega
    · have := hp.bounds x hx
      omega
  · refine pairwise_append.mpr ⟨hp'.pages, hp.pages, fun y hy x hx ↦ ?_⟩
    obtain ⟨hx, hx'⟩ := hp.bounds x hx
    obtain ⟨hy, hy'⟩ := hp'.bounds y hy
    exact page_lt_page hI (by omega) (hs x y hx hx' hy hy')
  · rw [hfr hf, hfr' hf]
    rfl

theorem unmapPage_effect (ht : label table = some l) (hl : l.2.length = 3) (ha : a < b)
  (h : unmapPage freePhysical table (tableIndex 1 a) a m = .ok m') :
  UnmapEffect freePhysical 1 table l a b label m m' := by
  rw [unmapPage] at h
  split at h
  next hp =>
    cases h
    refine ⟨fun f ↦ ?_, fun j hj ↦ ?_, ?_⟩
    · rcases eq_or_ne f table with rfl | hne
      · exact .inr ⟨l, ht, hl, .inl rfl⟩
      · exact .inl (setEntry_of_ne hne)
    · exact (setEntry_table j).trans (if_neg (hj a le_rfl ha).symm)
    · cases freePhysical with
      | false => exact ⟨[], [], rfl, .nil .., fun _ ↦ rfl⟩
      | true =>
        refine ⟨[a], [(m.heap table (tableIndex 1 a)).address], rfl, ⟨?_, ?_, ?_⟩,
          fun h ↦ nomatch h⟩
        · simp [virtToPhys, hp]
        · simpa using ha
        · exact pairwise_singleton ..
  next => cases h

theorem unmapTable_effect {d : Frame → ℕ → ℕ → Unmapping → Except Fault Unmapping}
  (hl : Labelled label m.heap) (ht : label table = some l) (hI : I ≠ 0)
  (hlv : I + 1 + l.2.length = 4) (ha : a < b)
  (hi : ∀ x, a ≤ x → x < b → tableIndex (I + 1) x = tableIndex (I + 1) a)
  (hd : ∀ c, label c = some (childLabel l (tableIndex (I + 1) a)) → d c a b m = .ok m' →
  UnmapEffect freePhysical I c (childLabel l (tableIndex (I + 1) a)) a b label m m')
  (h : unmapTable d table (tableIndex (I + 1) a) a b m = .ok m') :
  UnmapEffect freePhysical (I + 1) table l a b label m m' := by
  rw [unmapTable] at h
  split at h
  next hpr =>
    split at h
    next => cases h
    next hs =>
      rw [Bool.not_eq_true] at hs
      have he := hd _ (hl.child table l ht (by omega) _ hpr hs) h
      obtain ⟨xs, fs, hpu, hp, hfr⟩ := he.pushed
      refine ⟨fun f ↦ ?_, fun j _ ↦ ?_, xs, fs, hpu, ⟨?_, hp.bounds, hp.pages⟩, hfr⟩
      · rcases he.frame f with heq | ⟨l', hf, hle, hto⟩
        · exact .inl heq
        · exact .inr ⟨l', hf, hle, .inr ⟨a, le_rfl, ha, hto.below⟩⟩
      · rcases he.lowest table with heq | ⟨l', ht', hle⟩
        · rw [heq]
        · cases ht.symm.trans ht'
          omega
      · rw [hp.frames]
        refine map_congr_left fun x hx ↦ ?_
        obtain ⟨hx, hx'⟩ := hp.bounds x hx
        rw [virtToPhys, hi x hx hx', if_pos hpr, if_neg (by simp [hI, hs])]
  next => cases h

theorem vmUnmap_effect (hl : Labelled label m.heap) (ht : label table = some l)
  (hlv : I + l.2.length = 4) (hv : ve < 2 ^ 64)
  (h : vmUnmap freePhysical I table vs ve m = .ok m') :
  UnmapEffect freePhysical I table l vs ve label m m' := by
  induction I generalizing table l m m' vs ve with
  | zero =>
    rw [vmUnmap] at h
    cases h
  | succ I ih =>
    rw [vmUnmap] at h
    rcases lt_or_ge ve vs with hgt | hle
    · rw [entryLoop_of_not_lt (by omega)] at h
      cases h
      exact .refl m
    have hf := entryLoop_invariant (by omega) hv
      (fun cu m₁ ↦ UnmapEffect freePhysical (I + 1) table l vs cu label m m₁ ∧
      ∀ x y, vs ≤ x → x < cu → cu ≤ y → y < ve → tableIndex (I + 1) x ≠ tableIndex (I + 1) y)
      _ hle (fun _ ↦ by rw [← tableIndex_val]; omega) ?_ h ⟨.refl m, fun x y hx hx' ↦ by omega⟩
    · exact hf.1
    · rintro a b m₁ m₂ ha hab hb hin ho ⟨hp, hs⟩ hk
      have hl' := hl.of_lowest hp.lowest
      have hbo : UnmapEffect freePhysical (I + 1) table l a b label m₁ m₂ := by
        rcases Nat.eq_zero_or_pos I with rfl | hI
        · rw [if_pos rfl] at hk
          exact unmapPage_effect ht (by omega) hab hk
        · rw [if_neg hI.ne'] at hk
          refine unmapTable_effect hl' ht hI.ne' hlv hab hin (fun c hc hk ↦ ?_) hk
          refine ih hl' hc ?_ (by omega) hk
          rw [childLabel, length_cons]
          omega
      refine ⟨hp.trans (Nat.succ_ne_zero I) hl ht hlv hbo ha hab.le
        fun x y hx hx' hy hy' ↦ hs x y hx hx' hy (by omega), fun x y hx hx' hy hy' ↦ ?_⟩
      rcases lt_or_ge x a with hxa | hxa
      · exact hs x y hx hxa (by omega) hy'
      · rw [hin x hxa hx']
        exact (ho y hy hy').symm

end Unmapping

open Function Foundation.Fallible

def rootLabel (r : Frame) : Label := (.root r, [])

/-- From entry `n` on the new root gets the entries of `cr3`, and where there are none both get a
new table. -/
structure CloneEffect (cr3 ret : Frame) (n : ℕ) (label : Frame → Option Label) (m : Mapping)
  (label' : Frame → Option Label) (m' : Mapping) : Prop where
  grown : Grown (fun l ↦ l = rootLabel cr3 ∨ l = rootLabel ret) label m label' m'
  stable : Stable m.heap m'.heap cr3
  below : ∀ i : Fin 512, (i : ℕ) < n →
    m'.heap cr3 i = m.heap cr3 i ∧ m'.heap ret i = m.heap ret i
  copied : ∀ i : Fin 512, n ≤ i → m'.heap ret i = m'.heap cr3 i ∧ (m'.heap cr3 i).present = true

variable {label label' label'' : Frame → Option Label} {m m' m'' : Mapping} {cr3 ret : Frame}

theorem childLabel_rootLabel {i : Fin 512} (hi : 256 ≤ (i : ℕ)) (r : Frame) :
  childLabel (rootLabel r) i = (.shared, [i]) := by
  rw [childLabel, rootLabel, if_pos ⟨rfl, hi⟩]

structure CopyEffect (cr3 ret : Frame) (index : Fin 512) (label : Frame → Option Label)
  (m : Mapping) (label' : Frame → Option Label) (m' : Mapping) : Prop where
  grown : Grown (fun l ↦ l = rootLabel cr3 ∨ l = rootLabel ret) label m label' m'
  stable : Stable m.heap m'.heap cr3
  others : ∀ i, i ≠ index → m'.heap cr3 i = m.heap cr3 i ∧ m'.heap ret i = m.heap ret i
  copied : m'.heap ret index = m'.heap cr3 index ∧ (m'.heap cr3 index).present = true

variable {index : Fin 512}

theorem copyEntry_effect (hin : 256 ≤ (index : ℕ)) (hne : cr3 ≠ ret) (hl : Labelled label m.heap)
  (hcr3 : label cr3 = some (rootLabel cr3)) (hr : label ret = some (rootLabel ret))
  (hpr : (m.heap cr3 index).present = true) : CopyEffect cr3 ret index label m label
  { m with heap := setEntry m.heap ret index (m.heap cr3 index) } := by
  have hs : setEntry m.heap ret index (m.heap cr3 index) cr3 = m.heap cr3 := setEntry_of_ne hne
  refine ⟨⟨fun _ _ hf ↦ hf, ?_, ⟨[], rfl, fun f ↦ by simp⟩, fun f l hf ht ↦ ?_⟩,
    fun j hj ↦ ?_, fun i hi ↦ ⟨?_, ?_⟩, ?_, ?_⟩
  · refine hl.of_setEntry hr fun hle hp hsi ↦ ?_
    rw [childLabel_rootLabel hin, ← childLabel_rootLabel hin cr3]
    exact hl.child cr3 _ hcr3 hle index hp hsi
  · refine setEntry_of_ne ?_
    rintro rfl
    exact ht (.inr (Option.some.inj (hf.symm.trans hr)))
  · simp only [hs]
    exact ⟨hj, trivial, trivial⟩
  · exact congrFun hs i
  · exact (setEntry_table i).trans (if_neg hi)
  · simp only [setEntry_table, if_pos, hs]
  · simp only [hs, hpr]

variable {frames : List Frame}

theorem newEntry_effect {frame : Frame} (hin : 256 ≤ (index : ℕ)) (hne : cr3 ≠ ret)
  (hl : Labelled label m.heap) (hcr3 : label cr3 = some (rootLabel cr3))
  (hr : label ret = some (rootLabel ret)) (hfr : label frame = none)
  (hfra : m.frames = frame :: frames) (ha : (m.heap cr3 index).present = false) :
  CopyEffect cr3 ret index label m (update label frame (some (childLabel (rootLabel cr3) index)))
    { m with
      heap := setEntry (setEntry (update m.heap frame emptyTable) cr3 index
          { m.heap cr3 index with present := true, address := frame }) ret index
        { m.heap cr3 index with present := true, address := frame }
      frames } := by
  have hf := ne_of_unlabelled hcr3 hfr
  have hg := addTable_grown hl hcr3 hfr hfra index (m.heap cr3 index).user
  have he : (addTable m cr3 index (m.heap cr3 index).user frame frames).heap cr3 index =
      { m.heap cr3 index with present := true, address := frame } := by
    rw [addTable_table hf, if_pos rfl]
  have hc := copyEntry_effect hin hne hg.labelled (hg.keeps _ _ hcr3) (hg.keeps _ _ hr) (by rw [he])
  rw [he] at hc
  refine ⟨(hg.mono fun _ ↦ .inl).trans hc.grown, ?_, fun i hi ↦ ?_, hc.copied⟩
  · exact (addTable_stable hf ha _).trans hc.stable
  · obtain ⟨ho, hn⟩ := hc.others i hi
    refine ⟨ho.trans ?_, hn.trans (congrFun ?_ i)⟩
    · rw [addTable_table hf, if_neg hi]
    · exact hg.frame ret _ hr fun heq ↦ hne.symm (Owner.root.inj (Prod.mk.inj heq).1)

theorem CopyEffect.cloneEffect {n : ℕ} (hin : (index : ℕ) = n)
  (h : CopyEffect cr3 ret index label m label' m')
  (h' : CloneEffect cr3 ret (n + 1) label' m' label'' m'') :
  CloneEffect cr3 ret n label m label'' m'' := by
  refine ⟨h.grown.trans h'.grown, h.stable.trans h'.stable, fun i hi ↦ ?_, fun i hi ↦ ?_⟩
  · obtain ⟨hcr3, hr⟩ := h'.below i (by omega)
    obtain ⟨hcr3', hr'⟩ := h.others i fun heq ↦ by rw [heq] at hi; omega
    exact ⟨hcr3.trans hcr3', hr.trans hr'⟩
  · rcases eq_or_ne i index with rfl | hne
    · obtain ⟨hcr3, hr⟩ := h'.below i (by omega)
      rw [hcr3, hr]
      exact h.copied
    · exact h'.copied i (by have := Fin.val_ne_of_ne hne; omega)

variable {h : Heap}

theorem cloneLoop_effect {room : ℕ} {r : Heap × List Frame} (hr : room ≤ 256) (hne : cr3 ≠ ret)
  (hl : Labelled label h) (hf : Fresh label frames) (hcr3 : label cr3 = some (rootLabel cr3))
  (hre : label ret = some (rootLabel ret)) (hok : cloneLoop cr3 ret room h frames = .ok r) :
  ∃ label', CloneEffect cr3 ret (512 - room) label ⟨h, frames, 0⟩ label' ⟨r.1, r.2, 0⟩ := by
  induction room generalizing label h frames with
  | zero =>
    cases hok
    refine ⟨label, .refl hl, .refl _ _, fun _ _ ↦ ⟨rfl, rfl⟩, fun i hi ↦ ?_⟩
    omega
  | succ room ih =>
    have hn : 512 - (room + 1) + 1 = 512 - room := by omega
    have hin : 256 ≤ 511 - room := by omega
    cases hp : (h cr3 ⟨511 - room, entry_lt room⟩).present with
    | true =>
      simp only [cloneLoop, hp, if_true] at hok
      have hc : CopyEffect cr3 ret _ label ⟨h, frames, 0⟩ label _ :=
        copyEntry_effect hin hne hl hcr3 hre hp
      obtain ⟨label', he⟩ := ih (by omega) hc.grown.labelled hf hcr3 hre hok
      exact ⟨label', hc.cloneEffect (by simp only; omega) (hn ▸ he)⟩
    | false =>
      cases frames with
      | nil =>
        simp only [cloneLoop, hp] at hok
        cases hok
      | cons frame frames =>
        simp only [cloneLoop, hp] at hok
        have hfr := hf.unlabelled frame (List.mem_cons_self ..)
        have hc : CopyEffect cr3 ret _ label ⟨h, frame :: frames, 0⟩ _ _ :=
          newEntry_effect hin hne hl hcr3 hre hfr rfl hp
        obtain ⟨label', he⟩ := ih (by omega) hc.grown.labelled
          (hf.grown hc.grown) (hc.grown.keeps _ _ hcr3) (hc.grown.keeps _ _ hre) hok
        exact ⟨label', hc.cloneEffect (by simp only; omega) (hn ▸ he)⟩

theorem allocRoot_grown (fs : List Frame) (hl : Labelled label h) (hfr : label ret = none)
  (t : Label → Prop) : Grown t label ⟨h, ret :: fs, 0⟩ (update label ret (some (rootLabel ret)))
  ⟨update h ret emptyTable, fs, 0⟩ := by
  refine ⟨fun f l hf ↦ ?_, hl.alloc hfr (rootLabel ret), ⟨[ret], rfl, fun f ↦ ?_⟩,
    fun f l hf _ ↦ update_of_ne (ne_of_unlabelled hf hfr) ..⟩
  · rw [update_of_ne (ne_of_unlabelled hf hfr), hf]
  · rcases eq_or_ne f ret with rfl | hf
    · simp
    · simp [hf]

theorem cloneUpperHalf_effect {rs : Frame × Heap × List Frame} (hl : Labelled label h)
  (hfr : Fresh label frames) (hc : label cr3 = some (rootLabel cr3))
  (ho : cloneUpperHalf h cr3 frames = .ok rs) :
  ∃ label', label rs.1 = none ∧ label' rs.1 = some (rootLabel rs.1) ∧
  Grown (fun l ↦ l = rootLabel cr3 ∨ l = rootLabel rs.1) label ⟨h, frames, 0⟩ label'
  ⟨rs.2.1, rs.2.2, 0⟩ ∧ Stable h rs.2.1 cr3 ∧ ∀ i : Fin 512, 256 ≤ (i : ℕ) →
  rs.2.1 rs.1 i = rs.2.1 cr3 i ∧ (rs.2.1 cr3 i).present = true := by
  cases frames with
  | nil => cases ho
  | cons ret frames =>
    obtain ⟨⟨h', frames'⟩, hlo, hq⟩ := bind_eq_ok ho
    cases hq
    have hf := hfr.unlabelled ret (List.mem_cons_self ..)
    have hne : cr3 ≠ ret := ne_of_unlabelled hc hf
    have ha := allocRoot_grown frames hl hf fun l ↦ l = rootLabel cr3 ∨ l = rootLabel ret
    obtain ⟨label', he⟩ := cloneLoop_effect le_rfl hne ha.labelled
      (hfr.grown ha) (ha.keeps cr3 _ hc) (update_self ..) hlo
    refine ⟨label', hf, he.grown.keeps ret _ (update_self ..), ha.trans he.grown,
      fun j hj ↦ ?_, he.copied⟩
    have hsa : update h ret emptyTable cr3 = h cr3 := update_of_ne hne ..
    have hs := he.stable j
    simp only [hsa] at hs
    exact hs hj

end ReaverOS.Paging.TableHeap
