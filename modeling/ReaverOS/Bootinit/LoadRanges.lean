import Mathlib.Data.Set.Finite.List
import ReaverOS.Bootinit.Images
import ReaverOS.Foundation.Unfolding

namespace ReaverOS.Bootinit

section Placement

open List

def ElfImage.Ordered (elf : ElfImage) : Prop :=
  ∃ last, elf.loadSegments.getLast? = some last ∧
    ∀ s ∈ elf.loadSegments, s.endAligned ≤ last.endAligned

def ElfImage.extent (elf : ElfImage) : ℕ :=
  (elf.loadSegments.getLast?.map Segment.endAligned).getD 0

def ElfImage.Within (elf : ElfImage) (range : Option (ℕ × ℕ)) : Prop :=
  ∃ base finalSegmentEnd, range = some (base, finalSegmentEnd) ∧
    ∀ s ∈ elf.loadSegments, base + s.endAligned ≤ finalSegmentEnd

namespace World

variable {w : World} {root : Name}

def Sound (w : World) (root : Name) : Event → Prop
  | .loaded y range =>
    w.Reaches root y ∧ isVdso y = false ∧ ∃ elf base, w.initrd y = some elf ∧ range = elf.range base
  | .preloaded y => w.Reaches root y ∧ isVdso y = true
  | .linked _ _ | .dangling | .misread => True

theorem sound {n : ℕ} {e : LoadedElf} {st : LoadState}
  (h : w.load n none root start = .ok (e, st)) : ∀ event ∈ st.log, w.Sound root event := by
  have hg {st : LoadState} {es : List Event} (hs : ∀ event ∈ st.log, w.Sound root event)
    (hev : ∀ event ∈ es, w.Sound root event) : ∀ event ∈ st.log ++ es, w.Sound root event :=
    forall_mem_append.mpr ⟨hs, hev⟩
  refine load_invariant (w := w) (P := w.Reaches root) ?_ ?_ ?_ ?_ .refl h
    (I := fun st ↦ ∀ event ∈ st.log, w.Sound root event) (by simp [start])
  · intro a b ha hb
    exact ha.tail hb
  · intro st es hq hs
    apply hg hs
    intro event he
    have := hq event he
    cases event <;> trivial
  · intro st y hy hv hs
    apply hg hs
    simp [Sound, hy, hv]
  · intro st y el hy hv hl hs
    apply hg hs
    intro event he
    cases mem_singleton.mp he
    exact ⟨hy, hv, el, st.binaryBase, hl, rfl⟩

end World

end Placement

section Visits

open List Foundation DepthFirst

namespace World

variable {w : World} {root : Name}

def room (w : World) (m : Name) : ℕ :=
  if isVdso m then 0 else (w.initrd m).elim 0 fun elf ↦ elf.extent + pageSize

/-- All images together fit below the vdso, so that no address passes 64 bits. -/
structure Fits (w : World) (root : Name) : Prop where
  segment : ∀ m elf, w.Reaches root m → w.initrd m = some elf → ∀ s ∈ elf.loadSegments,
    0 < s.size ∧ s.virtualAddress + s.size + pageSize ≤ 2 ^ 63
  vdso : w.vdsoPreload ≤ 2 ^ 63
  room : ∀ names : List Name, names.Nodup → (∀ m ∈ names, w.Reaches root m) →
    start.binaryBase + (names.map w.room).sum ≤ w.vdsoPreload

variable {n : ℕ}

def ofGraph (graph : List (Name × List Name)) : World where
  initrd name := (graph.lookup name).map fun needed ↦
    { data := [], loadSegments := [⟨0, 4096, 0, 0⟩], needed }
  vdsoPreload := 0x7fffffffe000

variable {graph : List (Name × List Name)}

structure Proper (w : World) (root : Name) : Prop where
  finite : {m | w.Reaches root m}.Finite
  acyclic : ∀ m, ¬ Relation.TransGen (fun a b ↦ b ∈ w.needed a) m m
  present : ∀ m, w.Reaches root m → (w.initrd m).isSome

def pair : World :=
  ofGraph [(['r'], [['a'], ['b']]), (['b'], [['a']]), (['a'], [])]

def passed : World :=
  ofGraph [(['r'], [['a'], ['b'], ['c']]), (['b'], [['a']]), (['a'], []), (['c'], [['d']]),
    (['d'], [])]

end World

end Visits

open Foundation Unfolding Option

section Calls

open Foundation.Fallible List

def calls : List Event → List Name
  | [] => []
  | .loaded y _ :: events => y :: calls events
  | .preloaded y :: events => y :: calls events
  | .linked _ _ :: events => calls events
  | .dangling :: events => calls events
  | .misread :: events => calls events

theorem calls_append (es events' : List Event) :
  calls (es ++ events') = calls es ++ calls events' := by
  induction es with
  | nil => rfl
  | cons e es ih => cases e <;> simp [calls, ih]

theorem calls_of_quiet {es : List Event} (h : ∀ e ∈ es, e.Quiet) : calls es = [] := by
  induction es with
  | nil => rfl
  | cons e es ih =>
    obtain ⟨he, hv⟩ := forall_mem_cons.mp h
    cases e with
    | loaded => cases he
    | preloaded => cases he
    | _ => exact ih hv

def filenames (d : Dependencies) : List Name :=
  d.labels.map Loaded.filename

theorem filenames_append (d d' : Dependencies) :
  filenames (d.append d') = filenames d ++ filenames d' := by
  induction d with
  | nil => rfl
  | tree a c r _ i =>
    simp only [filenames, Forest.append, Forest.labels, map_cons, map_append] at i ⊢
    rw [i, cons_append, List.append_assoc]
  | link t r ih => exact ih

theorem filenames_rootOf_none (r : Loaded) (done : Dependencies) :
  filenames (rootOf none r done) = r.filename :: filenames done := by
  simp [rootOf, filenames, Forest.labels]

def prepared (names : List Name) (y : Name) : Bool :=
  names.any (StringView.equal · y) || StringView.equal unassigned.filename y

theorem isSome_isSharedObjectPrepared {y : Name} (hy : y ≠ []) (d : Dependencies) :
  (isSharedObjectPrepared y d).1.isSome = (filenames d).any (StringView.equal · y) := by
  have hg : ¬ StringView.equal unassigned.filename y = true := by
    rwa [equal_unassigned_iff]
  induction d with
  | nil => rfl
  | tree a c r i ihr =>
    simp only [filenames, Forest.labels, map_cons, map_append, any_cons, any_append] at i ihr ⊢
    rw [isSharedObjectPrepared]
    split
    · next h => simp [h]
    · next h =>
      rw [← i, ← ihr]
      cases hc : isSharedObjectPrepared y c with
      | mk b m => cases b <;> simp [h]
  | link t r ih =>
    rw [isSharedObjectPrepared, if_neg hg]
    exact ih

def asElement (run : Except Fault (LoadedElf × LoadState)) :
  Except Fault (Dependencies × LoadState) :=
  run.map fun p ↦ (.tree p.1.image p.1.dependencies .nil, p.2)

theorem asElement_eq_ok {r : Except Fault (LoadedElf × LoadState)} {e : LoadedElf}
  {st : LoadState} (h : r = .ok (e, st)) :
  asElement r = .ok (.tree e.image e.dependencies .nil, st) := by
  rw [h]
  rfl

section Mention

variable {root : Dependencies} {y : Name}

theorem mention_of_prepared (ld : Loader) (st : LoadState)
  (h : prepared (filenames root) y = true) : ∃ t es, (∀ ev ∈ es, ev.Quiet) ∧
  mention ld root y st = .ok (.link t .nil, st.record es) := by
  have hq (ev : Event) (he : ev.Quiet) :
    ∀ e ∈ List.replicate (isSharedObjectPrepared y root).2 .misread ++ [ev], e.Quiet :=
    forall_mem_append.mpr ⟨quiet_replicate _, forall_mem_singleton.mpr he⟩
  rw [mention]
  cases hf : (isSharedObjectPrepared y root).1 with
  | some f =>
    refine ⟨f.id, _, hq (.linked y f.filename) trivial, ?_⟩
    simp only [LoadState.record, List.append_assoc]
  | none =>
    have hy : y = [] := by
      by_contra hy
      have hn := isSome_isSharedObjectPrepared hy root
      rw [hf] at hn
      rw [prepared, ← hn, isSome_none, Bool.false_or, equal_unassigned_iff] at h
      exact hy h
    refine ⟨unassigned.id, _, hq .dangling trivial, ?_⟩
    simp only [equal_unassigned_iff, if_pos hy, LoadState.record, List.append_assoc]

theorem mention_of_not_prepared (ld : Loader) (st : LoadState)
  (h : prepared (filenames root) y = false) : ∃ es, (∀ e ∈ es, e.Quiet) ∧
  mention ld root y st = asElement (ld root y (st.record es)) := by
  rw [prepared, Bool.or_eq_false_iff] at h
  have hy : y ≠ [] := by
    intro hy
    rw [equal_unassigned_iff.mpr hy] at h
    cases h.2
  have hn : (isSharedObjectPrepared y root).1 = none := by
    have := isSome_isSharedObjectPrepared hy root
    rw [h.1] at this
    exact not_isSome_iff_eq_none.mp (Bool.eq_false_iff.mp this)
  refine ⟨_, quiet_replicate (isSharedObjectPrepared y root).2, ?_⟩
  rw [mention, hn]
  simp only [h.2, Bool.false_eq_true, if_false]
  cases ld root y (st.record (List.replicate (isSharedObjectPrepared y root).2 .misread)) <;> rfl

end Mention

structure Meets (run : Except Fault (Dependencies × LoadState)) (st : LoadState)
  (done : List Name) (ends : Prop) (names : List Name) : Prop where
  returns : (∃ p, run = .ok p) ↔ ends
  calls_eq : ∀ d st', run = .ok (d, st') → calls st'.log = calls st.log ++ names
  filenames_eq : ∀ d st', run = .ok (d, st') → filenames d = done ++ names

section Row

variable {load : Loader} {y : Name} {A B : Prop} {l l' : List Name}

theorem calls_record (st : LoadState) {es : List Event} (h : ∀ e ∈ es, e.Quiet) :
  calls (st.record es).log = calls st.log := by
  rw [LoadState.record, calls_append, calls_of_quiet h, List.append_nil]

variable {root : Dependencies}

theorem mention_meets_of_prepared (ld : Loader) (st : LoadState)
  (h : prepared (filenames root) y = true) : Meets (mention ld root y st) st [] True [] := by
  obtain ⟨t, es, hq, he⟩ := mention_of_prepared ld st h
  rw [he]
  refine ⟨⟨fun _ ↦ trivial, fun _ ↦ ⟨_, rfl⟩⟩, ?_, ?_⟩
  · intro d st' h
    cases h
    rw [calls_record st hq, List.append_nil]
  · intro d st' h
    cases h
    rfl

theorem mention_meets_of_not_prepared (st : LoadState) (h : prepared (filenames root) y = false)
  (hl : ∀ st, Meets (asElement (load root y st)) st [] A l) :
  Meets (mention load root y st) st [] A l := by
  obtain ⟨es, hq, he⟩ := mention_of_not_prepared load st h
  rw [he]
  refine ⟨(hl _).returns, ?_, (hl _).filenames_eq⟩
  intro d st' h
  rw [(hl _).calls_eq d st' h, calls_record st hq]

theorem meets_cons (r : Dependencies → Dependencies) (dn : Dependencies) {ys : List Name}
  {st : LoadState} (h : Meets (mention load (r dn) y st) st [] A l) (hr : ∀ d s, filenames d = l →
  Meets (loadNeeded load r (dn.append d) ys s) s (filenames dn ++ l) B l') :
  Meets (loadNeeded load r dn (y :: ys) st) st (filenames dn) (A ∧ B) (l ++ l') := by
  refine ⟨⟨?_, ?_⟩, ?_, ?_⟩
  · rintro ⟨⟨d', st'⟩, hp⟩
    obtain ⟨d, s, hm, hs⟩ := loadNeeded_cons_eq_ok hp
    have hf := h.filenames_eq d s hm
    exact ⟨h.returns.mp ⟨_, hm⟩, (hr d s hf).returns.mp ⟨_, hs⟩⟩
  · intro he
    obtain ⟨⟨d, s⟩, hm⟩ := h.returns.mpr he.1
    have hf := h.filenames_eq d s hm
    obtain ⟨p, hp⟩ := (hr d s hf).returns.mpr he.2
    exact ⟨p, by rw [loadNeeded, hm]; exact hp⟩
  · intro d' st' hp
    obtain ⟨d, s, hm, hs⟩ := loadNeeded_cons_eq_ok hp
    have hf := h.filenames_eq d s hm
    rw [(hr d s hf).calls_eq d' st' hs, h.calls_eq d s hm, List.append_assoc]
  · intro d' st' hp
    obtain ⟨d, s, hm, hs⟩ := loadNeeded_cons_eq_ok hp
    have hf := h.filenames_eq d s hm
    rw [(hr d s hf).filenames_eq d' st' hs, List.append_assoc]

theorem loadNeeded_nil_meets {r : Dependencies → Dependencies} {dn : Dependencies}
  {st : LoadState} : Meets (loadNeeded load r dn [] st) st (filenames dn) True [] := by
  refine ⟨⟨fun _ ↦ trivial, fun _ ↦ ⟨_, rfl⟩⟩, ?_, ?_⟩
  · intro d st' h
    cases h
    exact (List.append_nil _).symm
  · intro d st' h
    cases h
    exact (List.append_nil _).symm

theorem inner_meets {nx : Name → List Name} {n : ℕ} {ns : List Name} (hl : ∀ y ∈ ns, ∀ st,
  Meets (asElement (load root y st)) st [] (Ends nx n y) (unfolding nx n y))
  (dn : Dependencies) (st : LoadState) :
  Meets (loadNeeded load (fun _ ↦ root) dn ns st) st (filenames dn)
  (∀ y ∈ ns.filter (!prepared (filenames root) ·), Ends nx n y)
  ((ns.filter (!prepared (filenames root) ·)).flatMap (unfolding nx n)) := by
  induction ns generalizing dn st with
  | nil => simpa using loadNeeded_nil_meets
  | cons y ns ih =>
    have hr (d : Dependencies) (s : LoadState) :=
      ih (fun z hz ↦ hl z (mem_cons_of_mem _ hz)) (dn.append d) s
    simp only [filenames_append] at hr
    cases hy : prepared (filenames root) y with
    | true =>
      have h := meets_cons (fun _ ↦ root) dn (mention_meets_of_prepared load st hy)
        fun d s hd ↦ hd ▸ hr d s
      simpa [filter_cons, hy] using h
    | false =>
      have h := meets_cons (fun _ ↦ root) dn
        (mention_meets_of_not_prepared st hy (hl y mem_cons_self)) fun d s hd ↦ hd ▸ hr d s
      simpa [filter_cons, hy] using h

theorem outer_meets {r : Loaded} {nx : List Name → Name → List Name} {n : ℕ} {ns : List Name}
  (hl : ∀ y ∈ ns, ∀ root st, Meets (asElement (load root y st)) st []
  (Ends (nx (filenames root)) n y) (unfolding (nx (filenames root)) n y))
  (dn : Dependencies) (st : LoadState) :
  Meets (loadNeeded load (rootOf none r) dn ns st) st (filenames dn)
  (AllEnd prepared nx n (r.filename :: filenames dn) ns)
  (unfoldings prepared nx n (r.filename :: filenames dn) ns) := by
  induction ns generalizing dn st with
  | nil => exact loadNeeded_nil_meets
  | cons y ns ih =>
    have hr (d : Dependencies) (s : LoadState) :=
      ih (fun z hz ↦ hl z (mem_cons_of_mem _ hz)) (dn.append d) s
    simp only [filenames_append] at hr
    have hro := filenames_rootOf_none r dn
    rw [AllEnd, unfoldings]
    cases hy : prepared (r.filename :: filenames dn) y with
    | true =>
      have h := meets_cons (rootOf none r) dn (mention_meets_of_prepared load st (hro ▸ hy))
        fun d s hd ↦ hd ▸ hr d s
      simpa using h
    | false =>
      have h := meets_cons (rootOf none r) dn (mention_meets_of_not_prepared st (hro ▸ hy)
        (hl y mem_cons_self (rootOf none r dn))) fun d s hd ↦ hd ▸ hr d s
      simpa [hro] using h

end Row

end Calls

namespace World

def entries (w : World) (y : Name) : List Name :=
  if isVdso y then [] else w.needed y

def callees (w : World) (names : List Name) (y : Name) : List Name :=
  (w.entries y).filter (!prepared names ·)

structure Closed (w : World) (images : Finset Name) : Prop where
  present : ∀ m ∈ images, m = vdsoName ∨ (w.initrd m).isSome
  needed : ∀ m ∈ images, ∀ y ∈ w.needed m, y ∈ images

variable {w : World} {images : Finset Name} {y : Name}

theorem Closed.cases (h : w.Closed images) (hy : y ∈ images) : isVdso y = true ∧ w.entries y = [] ∨
  isVdso y = false ∧ ∃ e, w.initrd y = some e ∧ w.entries y = e.needed ∧
  ∀ z ∈ e.needed, z ∈ images := by
  cases hv : isVdso y with
  | true => exact .inl ⟨rfl, by rw [entries, hv, if_pos rfl]⟩
  | false =>
    have hs := (h.present y hy).resolve_left (ne_vdsoName hv)
    obtain ⟨e, he⟩ := isSome_iff_exists.mp hs
    have hn := needed_eq hv he
    refine .inr ⟨rfl, e, he, ?_, ?_⟩
    · rw [entries, hv, if_neg Bool.false_ne_true, hn]
    · rw [← hn]
      exact h.needed y hy

variable {n : ℕ} {st : LoadState}

theorem load_meets_of_row {e : ElfImage} {r : Option Dependencies}
  {A : Prop} {l : List Name} (hv : isVdso y = false) (he : w.initrd y = some e)
  (hr : Meets (loadNeeded (fun r ↦ w.load n (some r)) (rootOf r (w.place y e st).1)
  .nil e.needed (w.place y e st).2) (w.place y e st).2 [] A l) :
  Meets (asElement (w.load (n + 1) r y st)) st [] A (y :: l) := by
  rw [load_succ_of_plain st hv he]
  cases hl : loadNeeded (fun r ↦ w.load n (some r)) (rootOf r (w.place y e st).1)
    .nil e.needed (w.place y e st).2 with
  | error f =>
    rw [hl] at hr
    refine ⟨?_, ?_, ?_⟩
    · rw [← hr.returns]
      simp [asElement, Except.map]
    · intro d st' h
      cases h
    · intro d st' h
      cases h
  | ok p =>
    rw [hl] at hr
    refine ⟨?_, ?_, ?_⟩
    · rw [← hr.returns]
      exact ⟨fun _ ↦ ⟨_, rfl⟩, fun _ ↦ ⟨_, rfl⟩⟩
    · intro d st' h
      cases h
      rw [hr.calls_eq p.1 p.2 rfl, place_log, calls_append, List.append_assoc]
      rfl
    · intro d st' h
      cases h
      have hp : (p.1.labels.map Loaded.filename) = l := hr.filenames_eq p.1 p.2 rfl
      simp [filenames, Forest.labels, hp, place]

theorem load_meets_of_vdso {root : Option Dependencies}
  (hv : isVdso y = true) : Meets (asElement (w.load (n + 1) root y st)) st [] True [y] := by
  rw [load, hv, if_pos rfl]
  refine ⟨⟨fun _ ↦ trivial, fun _ ↦ ⟨_, rfl⟩⟩, ?_, ?_⟩
  · intro d st' h
    cases h
    rw [preload_log, calls_append]
    rfl
  · intro d st' h
    cases h
    rfl

theorem load_meets (h : w.Closed images) (n : ℕ) (hy : y ∈ images) (root : Dependencies)
  (st : LoadState) :
  Meets (asElement (w.load n (some root) y st)) st [] (Ends (w.callees (filenames root)) n y)
  (unfolding (w.callees (filenames root)) n y) := by
  induction n generalizing y st with
  | zero =>
    constructor <;> simp [load, asElement, Except.map, Ends]
  | succ n ih =>
    rw [Ends, unfolding, callees]
    obtain ⟨hv, he⟩ | ⟨hv, elf, hel, he, hi⟩ := h.cases hy
    · rw [he]
      simpa using load_meets_of_vdso hv
    · rw [he]
      have hl (z : Name) (hz : z ∈ elf.needed) (st : LoadState) :
          Meets (asElement ((fun root ↦ w.load n (some root)) root z st)) st []
            (Ends (w.callees (filenames root)) n z) (unfolding (w.callees (filenames root)) n z) :=
        ih (hi z hz) st
      exact load_meets_of_row hv hel (inner_meets hl .nil (w.place y elf st).2)

def walks (w : World) (root : Name) (n : ℕ) : List Name :=
  unfoldings prepared w.callees n [root] (w.entries root)

theorem start_meets (h : w.Closed images) (n : ℕ) {r : Name} (hr : r ∈ images) :
  Meets (asElement (w.load (n + 1) none r start)) start []
  (AllEnd prepared w.callees n [r] (w.entries r)) (r :: w.walks r n) := by
  rw [walks]
  obtain ⟨hv, he⟩ | ⟨hv, e, hel, he, hi⟩ := h.cases hr
  · rw [he]
    exact load_meets_of_vdso hv
  · rw [he]
    have hl (z : Name) (hz : z ∈ e.needed) (r : Dependencies) (st : LoadState) :
      Meets (asElement ((fun r ↦ w.load n (some r)) r z st)) st []
      (Ends (w.callees (filenames r)) n z) (unfolding (w.callees (filenames r)) n z) :=
      load_meets h n (hi z hz) r st
    exact load_meets_of_row hv hel (outer_meets hl .nil (w.place r e start).2)

theorem length_walks_le {r : Name} {e : LoadedElf}
  (h : w.Closed images) (hr : r ∈ images) (hru : w.load n none r start = .ok (e, st))
  (hc : (calls st.log).tail.length ≤ images.card) :
  (w.walks r (images.card + 1)).length ≤ images.card := by
  cases n with
  | zero => cases hru
  | succ n =>
    have hm := start_meets h n hr
    have he := hm.returns.mp ⟨_, asElement_eq_ok hru⟩
    have hl : calls st.log = r :: w.walks r n := hm.calls_eq _ _ (asElement_eq_ok hru)
    rw [hl, List.tail_cons] at hc
    have heq := (he.of_length_lt (Nat.lt_succ_of_le hc)).2
    rw [walks, heq]
    exact hc

theorem finitely_many_calls_iff (w : World) (images : Finset Name) (root : Name)
    (h : w.Closed images) (hroot : root ∈ images) :
    (∃ n e st, w.load n none root start = .ok (e, st) ∧ (calls st.log).tail.length ≤ images.card) ↔
      (w.walks root (images.card + 1)).length ≤ images.card := by
  constructor
  · rintro ⟨n, e, st, hr, hc⟩
    exact length_walks_le h hroot hr hc
  · intro hw
    have hm := start_meets h (images.card + 1) hroot
    obtain ⟨p, hp⟩ := hm.returns.mpr (allEnd_of_length_lt (Nat.lt_succ_of_le hw))
    cases hr : w.load (images.card + 2) none root start with
    | error f =>
      rw [hr] at hp
      cases hp
    | ok q =>
      refine ⟨_, q.1, q.2, hr, ?_⟩
      have hl := hm.calls_eq _ _ (asElement_eq_ok hr)
      rw [hl]
      exact hw

def back : World :=
  ofGraph [(['r'], [['a']]), (['a'], [['r']])]

theorem back_finitely_many_calls :
  back.Closed {['r'], ['a']} ∧ ['r'] ∈ ({['r'], ['a']} : Finset Name) ∧
  ∃ n e st, back.load n none ['r'] start = .ok (e, st) ∧
  (calls st.log).tail.length ≤ Finset.card {['r'], ['a']} := by
  have hc : back.Closed {['r'], ['a']} := ⟨by decide, by decide⟩
  exact ⟨hc, by decide, (finitely_many_calls_iff back _ ['r'] hc (by decide)).mpr (by decide)⟩

def ring : World :=
  ofGraph [(['r'], [['a']]), (['a'], [['b']]), (['b'], [['a']])]

def doubled : World :=
  ofGraph [(['r'], [['a']]), (['a'], [['b'], ['c']]), (['b'], [['c']]), (['c'], [['d']]),
    (['d'], [])]

theorem ring_load_ne_ok (hc : ring.Closed {['r'], ['a'], ['b']}) (n : ℕ)
  (p : LoadedElf × LoadState) : ring.load n none ['r'] start ≠ .ok p := by
  intro hr
  cases n with
  | zero => cases hr
  | succ n =>
    have he := (start_meets hc n (by decide)).returns.mp ⟨_, asElement_eq_ok hr⟩
    have hn : ∀ x ∈ ({['a'], ['b']} : Finset Name),
      ∃ y ∈ ring.callees [['r']] x, y ∈ ({['a'], ['b']} : Finset Name) := by
      decide
    exact not_ends (s := {x | x ∈ ({['a'], ['b']} : Finset Name)}) hn n (by decide) he.1

theorem not_finitely_many_calls : (ring.Closed {['r'], ['a'], ['b']} ∧
      ∀ n p, ring.load n none ['r'] start ≠ .ok p) ∧
    (doubled.Closed {['r'], ['a'], ['b'], ['c'], ['d']} ∧
      ¬ ∃ n e st, doubled.load n none ['r'] start = .ok (e, st) ∧
        (calls st.log).tail.length ≤ Finset.card {['r'], ['a'], ['b'], ['c'], ['d']}) := by
  have hr : ring.Closed {['r'], ['a'], ['b']} := ⟨by decide, by decide⟩
  have hd : doubled.Closed {['r'], ['a'], ['b'], ['c'], ['d']} := ⟨by decide, by decide⟩
  refine ⟨⟨hr, ring_load_ne_ok hr⟩, hd, ?_⟩
  rintro ⟨n, e, st, hru, hc⟩
  have := length_walks_le hd (by decide) hru hc
  exact absurd this (by decide)

end World

end ReaverOS.Bootinit
