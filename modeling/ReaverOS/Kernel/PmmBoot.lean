import Mathlib.Algebra.BigOperators.Group.List.Basic
import Mathlib.Algebra.BigOperators.Ring.List
import ReaverOS.Foundation.Arcs
import ReaverOS.Kernel.Pmm

namespace ReaverOS.Kernel.Pmm

section Boot

open List Function Foundation.Fallible

structure Booted (s : State) (total : ℕ) : Prop where
  unlocked : ∀ layer, (s.infos layer).lock = 0
  free : ∀ layer, s.freeFrames layer = (s.infos layer).numFrames
  used : ∀ layer, layer ≠ 0 → s.usedFrames layer = 0
  room : pageSizes 0 * (s.usedFrames 0 + (s.infos 0).numFrames) +
    pageSizes 1 * (s.infos 1).numFrames + pageSizes 2 * (s.infos 2).numFrames ≤ total

variable {s : State} {total : ℕ}

theorem Booted.mono {total' : ℕ} (h : Booted s total) (hl : total ≤ total') : Booted s total' :=
  ⟨h.unlocked, h.free, h.used, h.room.trans hl⟩

theorem booted_initial : Booted {} 0 := by
  refine ⟨fun _ ↦ rfl, fun _ ↦ rfl, fun _ _ ↦ rfl, by decide⟩

def Carves (total size : ℕ) (c : Carving) : Prop :=
  c.remaining ≤ size ∧ Booted c.state (total + (size - c.remaining))

theorem Carving.push_eq (c : Carving) (i : ℕ) (hl : (c.state.infos i).lock = 0) : c.push i = .ok {
    state := { c.state with
      header := update c.state.header c.start (c.state.infos i).stack
      infos := update c.state.infos i
        { c.state.infos i with stack := c.start, numFrames := inc (c.state.infos i).numFrames }
      freeFrames := update c.state.freeFrames i (inc (c.state.freeFrames i)) }
    start := (c.start + pageSizes i) % 2 ^ 64
    remaining := c.remaining - pageSizes i } := by
  rw [Carving.push, instancePush, acquire_eq (.inl hl), ok_bind, release_pushFrame_held]
  rfl

variable {size : ℕ} {c : Carving}

theorem Carves.push (h : Carves total size c) {i : ℕ} (hi : i < pageSizeCount)
  (hle : pageSizes i ≤ c.remaining) : ∃ d, c.push i = .ok d ∧ Carves total size d := by
  obtain ⟨hre, hb⟩ := h
  refine ⟨_, c.push_eq i (hb.unlocked i), by simp only; omega, fun l ↦ ?_, fun l ↦ ?_, hb.used, ?_⟩
  · rcases eq_or_ne l i with rfl | hne
    · simpa only [update_self] using hb.unlocked l
    · simpa only [update_of_ne hne] using hb.unlocked l
  · rcases eq_or_ne l i with rfl | hne
    · simp only [update_self, hb.free l]
    · simpa only [update_of_ne hne] using hb.free l
  · have hr := hb.room
    obtain rfl | rfl | rfl : i = 0 ∨ i = 1 ∨ i = 2 := by
      rw [pageSizeCount] at hi
      omega
    all_goals
      simp only [pageSizes, inc, update_apply, Nat.reduceEqDiff, reduceIte] at hr hle ⊢
      omega

theorem Carves.pushWhile (h : Carves total size c) (m : ℕ → Bool) {i : ℕ}
  (hi : i < pageSizeCount) (n : ℕ) : ∃ d, c.pushWhile m i n = .ok d ∧ Carves total size d := by
  induction n generalizing c with
  | zero => exact ⟨c, rfl, h⟩
  | succ n ih =>
    rw [Carving.pushWhile]
    split
    next hc =>
      obtain ⟨d, hd, hca⟩ := h.push hi hc.2
      rw [hd, ok_bind]
      exact ih hca
    next => exact ⟨c, rfl, h⟩

theorem Carves.carve (h : Carves total size c) : ∃ d, carve c = .ok d ∧ Carves total size d := by
  obtain ⟨c₁, h₁, hc₁⟩ := h.pushWhile _ (by decide : 0 < pageSizeCount) _
  obtain ⟨c₂, h₂, hc⟩ := hc₁.pushWhile _ (by decide : 1 < pageSizeCount) _
  obtain ⟨c₃, h₃, hc₃⟩ := hc.pushWhile _ (by decide : 2 < pageSizeCount) _
  obtain ⟨c₄, h₄, hc₄⟩ := hc₃.pushWhile _ (by decide : 1 < pageSizeCount) _
  obtain ⟨c₅, h₅, hc₅⟩ := hc₄.pushWhile _ (by decide : 0 < pageSizeCount) _
  refine ⟨c₅, ?_, hc₅⟩
  rw [Pmm.carve, Carving.climb, h₁, ok_bind, Carving.climb, h₂, ok_bind, Carving.descend, h₃,
    ok_bind, Carving.descend, h₄, ok_bind, Carving.descend, h₅]

variable {e : MemoryMapEntry} {bound : ℕ}

theorem addRegion_booted (st : ℕ) (h : Booted s total) (hs : size ≤ bound)
  (he : e.length ≤ bound) : ∃ t, addRegion s st size e = .ok t ∧ Booted t (total + bound) := by
  rw [addRegion]
  split
  next =>
    have hc : Carves total size ⟨s, st, size⟩ := by
      refine ⟨le_rfl, ?_⟩
      rw [Nat.sub_self]
      exact h
    obtain ⟨c, hc, -, hb⟩ := hc.carve
    rw [hc, ok_bind]
    exact ⟨_, rfl, hb.mono (by omega)⟩
  next =>
    split
    next =>
      refine ⟨_, rfl, h.unlocked, h.free, fun l hl ↦ ?_, ?_⟩
      · simpa only [update_of_ne hl] using h.used l hl
      · have hr := h.room
        simp only [update_self, pageSizes] at hr ⊢
        omega
    next => exact ⟨s, rfl, h.mono (by omega)⟩

theorem reserveLow_booted (st : ℕ) (h : Booted s total) (he : e.length ≤ size) :
  ∃ t, reserveLow s st size e = .ok t ∧ Booted t (total + size) := by
  rw [reserveLow]
  split
  next =>
    split
    next => exact ⟨_, rfl, h.unlocked, h.free, h.used, h.room.trans (Nat.le_add_right ..)⟩
    next => exact addRegion_booted _ ⟨h.unlocked, h.free, h.used, h.room⟩ (by omega) he
  next => exact addRegion_booted _ h le_rfl he

theorem merge_spec (start size : ℕ) (e : MemoryMapEntry) (rest : List MemoryMapEntry)
  (he : e.length ≤ size) (hs : size + (rest.map MemoryMapEntry.length).sum < 2 ^ 64) :
  ∃ size' last rest', merge start size e rest = (size', last, rest') ∧ last.length ≤ size' ∧
  rest'.length ≤ rest.length ∧ size' + (rest'.map MemoryMapEntry.length).sum =
  size + (rest.map MemoryMapEntry.length).sum := by
  induction rest generalizing size e with
  | nil => exact ⟨size, e, [], rfl, he, le_rfl, rfl⟩
  | cons next rest ih =>
    rw [merge]
    simp only [map_cons, sum_cons] at hs ⊢
    split
    next =>
      rw [Nat.mod_eq_of_lt (by omega)]
      obtain ⟨size', last, rest', hm, hl, hle, heq⟩ :=
        ih (size + next.length) next (by omega) (by omega)
      exact ⟨size', last, rest', hm, hl, hle.trans (Nat.le_succ _), by omega⟩
    next => exact ⟨size, e, next :: rest, rfl, he, le_rfl, rfl⟩

theorem initializeFrom_booted (n : ℕ) (mm : List MemoryMapEntry) (h : Booted s total)
  (hf : mm.length ≤ n) (hs : total + (mm.map MemoryMapEntry.length).sum < 2 ^ 64) :
  ∃ t, initializeFrom n mm s = .ok t ∧ Booted t (total + (mm.map MemoryMapEntry.length).sum) := by
  induction n generalizing mm s total with
  | zero =>
    cases eq_nil_of_length_eq_zero (Nat.le_zero.mp hf)
    exact ⟨s, rfl, h⟩
  | succ n ih =>
    cases mm with
    | nil => exact ⟨s, rfl, h⟩
    | cons e rest =>
      simp only [map_cons, sum_cons, length_cons] at hs hf ⊢
      obtain ⟨size, la, rest', hm, hla, hle, heq⟩ :=
        merge_spec e.physicalStart e.length e rest le_rfl (by omega)
      obtain ⟨t, ht, hb⟩ := reserveLow_booted e.physicalStart h hla
      obtain ⟨u, hu, hl⟩ := ih rest' hb (by omega) (by omega)
      refine ⟨u, ?_, hl.mono (by omega)⟩
      rw [initializeFrom, hm]
      simp only [ht, ok_bind]
      exact hu

theorem initializePmm_booted (mm : List MemoryMapEntry)
  (hs : (mm.map MemoryMapEntry.length).sum < 2 ^ 64) : ∃ s, initializePmm mm = .ok s ∧
  Booted s (mm.map MemoryMapEntry.length).sum := by
  simpa only [initializePmm, zero_add] using
    initializeFrom_booted mm.length mm booted_initial le_rfl (by omega)

end Boot

section Counters

open List Function Foundation Fallible Runs Walk

def heldFrom (layer : ℕ) (outstanding : List Block) : ℕ :=
  outstanding.countP fun b ↦ b.layer == layer

def CountersExact (initial : ℕ → ℕ) (x : System) : Prop :=
  ∀ layer < pageSizeCount, x.state.freeFrames layer = (frames x.state layer).length ∧
    x.state.usedFrames layer = initial layer + heldFrom layer x.outstanding

def NoWrap (x y : System) : Prop :=
  ∀ layer < pageSizeCount, y.state.freeFrames layer ≤ x.state.freeFrames layer + 1 ∧
    y.state.usedFrames layer ≤ x.state.usedFrames layer + 1

def NoSplit (x : System) : Op → Prop
  | .pop layer => (x.state.infos layer).numFrames ≠ 0
  | .push _ => True
  | .use _ _ => True

structure LayerAccounted (initial : ℕ → ℕ) (x : System) (layer : ℕ) : Prop where
  free : x.state.freeFrames layer = (x.state.infos layer).numFrames
  used : x.state.usedFrames layer = initial layer + heldFrom layer x.outstanding
  room : initial layer + (x.state.infos layer).numFrames + heldFrom layer x.outstanding < 2 ^ 64

structure Accounted (initial : ℕ → ℕ) (x : System) : Prop where
  layer : ∀ layer < pageSizeCount, LayerAccounted initial x layer
  held : ∀ b ∈ x.outstanding, b.layer < pageSizeCount

variable {initial : ℕ → ℕ} {x y : System} {op : Op} {s t : State} {layer : ℕ}

theorem length_frames : (frames s layer).length = (s.infos layer).numFrames :=
  length_walk ..

@[simp]
theorem heldFrom_cons (b : Block) (os : List Block) : heldFrom layer (b :: os) =
  heldFrom layer os + if b.layer = layer then 1 else 0 := by
  simp [heldFrom, countP_cons]

theorem heldFrom_erase (ly : ℕ) {b : Block} {outstanding : List Block} (hb : b ∈ outstanding) :
  heldFrom ly (outstanding.erase b) + (if b.layer = ly then 1 else 0) =
  heldFrom ly outstanding := by
  rw [← heldFrom_cons]
  exact ((perm_cons_erase hb).countP_eq _).symm

theorem Accounted.exact (h : Accounted initial x) : CountersExact initial x := by
  intro l hl
  rw [length_frames]
  exact ⟨(h.layer l hl).free, (h.layer l hl).used⟩

theorem accounted_popped (h : Accounted initial x) (hl : layer < pageSizeCount)
  (hn : (x.state.infos layer).numFrames ≠ 0) (f : ℕ) :
  Accounted initial ⟨popped x.state layer, ⟨layer, f⟩ :: x.outstanding⟩ ∧
  NoWrap x ⟨popped x.state layer, ⟨layer, f⟩ :: x.outstanding⟩ := by
  have hs (l : ℕ) (hl : l < pageSizeCount) :
    LayerAccounted initial ⟨popped x.state layer, ⟨layer, f⟩ :: x.outstanding⟩ l ∧
    (popped x.state layer).freeFrames l ≤ x.state.freeFrames l + 1 ∧
    (popped x.state layer).usedFrames l ≤ x.state.usedFrames l + 1 := by
    obtain ⟨hf, hu, hr⟩ := h.layer l hl
    rcases eq_or_ne layer l with rfl | hne
    · refine ⟨⟨?_, ?_, ?_⟩, ?_, ?_⟩
      all_goals simp only [popped, heldFrom_cons, update_self, reduceIte, inc, dec]
      all_goals omega
    · refine ⟨⟨?_, ?_, ?_⟩, ?_, ?_⟩
      all_goals simp only [popped, heldFrom_cons, update_of_ne hne.symm, if_neg hne]
      all_goals omega
  refine ⟨⟨fun l hl ↦ (hs l hl).1, ?_⟩, fun l hl ↦ (hs l hl).2⟩
  intro b hb
  rcases mem_cons.mp hb with rfl | hb
  · exact hl
  · exact h.held b hb

theorem accounted_pushed (h : Accounted initial x) {b : Block} (hb : b ∈ x.outstanding) :
  Accounted initial ⟨pushed x.state b.layer b.address, x.outstanding.erase b⟩ ∧
  NoWrap x ⟨pushed x.state b.layer b.address, x.outstanding.erase b⟩ := by
  have hs (l : ℕ) (hl : l < pageSizeCount) :
    LayerAccounted initial ⟨pushed x.state b.layer b.address, x.outstanding.erase b⟩ l ∧
    (pushed x.state b.layer b.address).freeFrames l ≤ x.state.freeFrames l + 1 ∧
    (pushed x.state b.layer b.address).usedFrames l ≤ x.state.usedFrames l + 1 := by
    obtain ⟨hf, hu, hr⟩ := h.layer l hl
    have he := heldFrom_erase l hb
    rcases eq_or_ne b.layer l with rfl | hne
    · rw [if_pos rfl] at he
      refine ⟨⟨?_, ?_, ?_⟩, ?_, ?_⟩
      all_goals simp only [pushed, update_self, inc, dec]
      all_goals omega
    · rw [if_neg hne] at he
      refine ⟨⟨?_, ?_, ?_⟩, ?_, ?_⟩
      all_goals simp only [pushed, update_of_ne hne.symm]
      all_goals omega
  exact ⟨⟨fun l hl ↦ (hs l hl).1, fun c hc ↦ h.held c (mem_of_mem_erase hc)⟩,
    fun l hl ↦ (hs l hl).2⟩

theorem accounted_used (h : Accounted initial x) (b : Block) (cs : ℕ → ℕ) :
  Accounted initial { x with state := used x.state b cs } ∧
  NoWrap x { x with state := used x.state b cs } :=
  ⟨⟨fun l hl ↦ ⟨(h.layer l hl).free, (h.layer l hl).used, (h.layer l hl).room⟩, h.held⟩,
    fun _ _ ↦ ⟨Nat.le_succ _, Nat.le_succ _⟩⟩

theorem accounted_step (h : Accounted initial x) (ho : NoSplit x op)
  (hs : step true x op = some y) : Accounted initial y ∧ NoWrap x y := by
  rcases step_cases hs with ⟨layer, frame, t, rfl, hpo, rfl⟩ | ⟨b, hb, t, rfl, hp, rfl⟩ |
    ⟨b, hb, contents, rfl, rfl⟩
  · rcases lt_or_ge layer pageSizeCount with hl | hl
    · cases hpo.symm.trans (pop_eq hl (.inr rfl) ho)
      exact accounted_popped h hl ho _
    · rw [pop, if_pos hl] at hpo
      cases hpo
  · cases hp.symm.trans (push_eq (h.held b hb) (.inr rfl))
    exact accounted_pushed h hb
  · exact accounted_used h b contents

theorem accounted_reachable (h : Accounted initial x) (hr : Reachable (step true) NoSplit x y) :
  Accounted initial y :=
  hr.invariant h fun _ _ _ hi ho hs ↦ (accounted_step hi ho hs).1

theorem Booted.accounted {tt : ℕ} (h : Booted s tt) (ht : tt < 2 ^ 64) :
  Accounted s.usedFrames ⟨s, []⟩ := by
  refine ⟨fun l hl ↦ ⟨h.free l, rfl, ?_⟩, fun b hb ↦ absurd hb not_mem_nil⟩
  have hr := h.room
  have h₁ := h.used 1 (by decide)
  have h₂ := h.used 2 (by decide)
  obtain rfl | rfl | rfl : l = 0 ∨ l = 1 ∨ l = 2 := by
    rw [pageSizeCount] at hl
    omega
  all_goals
    simp only [heldFrom, countP_nil, pageSizes] at hr ⊢
    omega

def SameAbove (layer : ℕ) (s t : State) : Prop :=
  ∀ l, layer < l → t.infos l = s.infos l ∧ t.freeFrames l = s.freeFrames l

theorem SameAbove.trans {u : State} (h : SameAbove layer s t) (h' : SameAbove layer t u) :
  SameAbove layer s u :=
  fun l hl ↦ ⟨(h' l hl).1.trans (h l hl).1, (h' l hl).2.trans (h l hl).2⟩

theorem sameAbove_setInfo (info : StackInfo) : SameAbove layer s (s.setInfo layer info) :=
  fun _ hl ↦ ⟨update_of_ne hl.ne' .., rfl⟩

theorem pushAll_sameAbove (hl : layer < pageSizeCount) (ps : List ℕ)
  (h : pushAll true layer ps s = .ok t) : SameAbove layer s t := by
  induction ps generalizing s with
  | nil =>
    cases h
    exact fun _ _ ↦ ⟨rfl, rfl⟩
  | cons p ps ih =>
    rw [pushAll, push_eq hl (.inr rfl), ok_bind] at h
    refine SameAbove.trans (fun l hl ↦ ?_) (ih h)
    exact ⟨update_of_ne hl.ne' .., update_of_ne hl.ne' ..⟩

theorem popAbove_split (a : ℕ) (hl : layer + a + 1 = pageSizeCount)
  (hn : (s.infos layer).numFrames = 0) {f : ℕ} (hpo : popAbove true a layer s = .ok (f, t)) :
  ∃ l, layer < l ∧ l < pageSizeCount ∧ (s.infos l).numFrames ≠ 0 ∧
  (t.infos l).numFrames = dec (s.infos l).numFrames ∧ t.freeFrames l = s.freeFrames l := by
  induction a generalizing layer s f t with
  | zero =>
    rw [popAbove, acquire_eq (.inr rfl), ok_bind, if_pos (by rwa [held_infos_self])] at hpo
    cases hpo
  | succ a ih =>
    rw [popAbove, acquire_eq (.inr rfl), ok_bind, if_pos (by rwa [held_infos_self])] at hpo
    obtain ⟨⟨h, u⟩, hh, hpo⟩ := bind_eq_ok hpo
    obtain ⟨v, hp, hpo⟩ := bind_eq_ok hpo
    cases hpo
    have hs : SameAbove layer u ((v.popFrame layer).release layer) :=
      ((pushAll_sameAbove (by omega) _ hp).trans (sameAbove_setInfo _)).trans (sameAbove_setInfo _)
    have hhe : SameAbove layer s (held s layer) := sameAbove_setInfo _
    obtain ⟨l, hl, hc, hne, hi, hfr⟩ : ∃ l, layer < l ∧ l < pageSizeCount ∧
      ((held s layer).infos l).numFrames ≠ 0 ∧
      (u.infos l).numFrames = dec ((held s layer).infos l).numFrames ∧
      u.freeFrames l = (held s layer).freeFrames l := by
      rcases eq_or_ne ((held s layer).infos (layer + 1)).numFrames 0 with he | hf
      · obtain ⟨l, hl, hr⟩ := ih (by omega) he hh
        exact ⟨l, Nat.lt_of_succ_lt hl, hr⟩
      · cases hh.symm.trans (popAbove_eq a (.inr rfl) hf)
        exact ⟨layer + 1, Nat.lt_succ_self _, by omega, hf, by simp only [popped, update_self],
          rfl⟩
    refine ⟨l, hl, hc, ?_, ?_, ?_⟩
    · rwa [← (hhe l hl).1]
    · rw [(hs l hl).1, hi, (hhe l hl).1]
    · rw [(hs l hl).2, hfr, (hhe l hl).2]

theorem pushAll_returns (hl : layer < pageSizeCount) (ps : List ℕ) (s : State) :
  ∃ t, pushAll true layer ps s = .ok t := by
  induction ps generalizing s with
  | nil => exact ⟨s, rfl⟩
  | cons p ps ih =>
    rw [pushAll, push_eq hl (.inr rfl), ok_bind]
    exact ih _

theorem popAbove_returns (a : ℕ) (hl : layer + a + 1 = pageSizeCount) {l : ℕ}
  (hle : layer ≤ l) (hlt : l < pageSizeCount) (hf : (s.infos l).numFrames ≠ 0) :
  ∃ r, popAbove true a layer s = .ok r := by
  induction a generalizing layer s with
  | zero =>
    obtain rfl : l = layer := by omega
    exact ⟨_, popAbove_eq 0 (.inr rfl) hf⟩
  | succ a ih =>
    rcases eq_or_ne (s.infos layer).numFrames 0 with hn | hn
    · have hne : l ≠ layer := fun h ↦ hf (h ▸ hn)
      obtain ⟨⟨hi, u⟩, hh⟩ := @ih (held s layer) (layer + 1) (by omega) (by omega)
        (by rwa [held_infos_of_ne hne])
      obtain ⟨v, hv⟩ := pushAll_returns (by omega : layer < pageSizeCount) (split layer hi) u
      rw [popAbove, acquire_eq (.inr rfl), ok_bind, if_pos (by rwa [held_infos_self]), hh, ok_bind]
      simp only [hv, ok_bind]
      exact ⟨_, rfl⟩
    · exact ⟨_, popAbove_eq _ (.inr rfl) hn⟩

theorem not_exact_of_split (h : Accounted initial x) (ho : ¬ NoSplit x op)
  (hs : step true x op = some y) : ¬ CountersExact initial y := by
  rcases step_cases hs with ⟨layer, f, t, rfl, hpo, rfl⟩ | ⟨b, hb, t, rfl, hp, rfl⟩ |
    ⟨b, hb, contents, rfl, rfl⟩
  · have hn := not_not.mp ho
    rw [pop] at hpo
    split at hpo
    next => cases hpo
    next hl =>
      obtain ⟨⟨f, u⟩, hi, hq⟩ := bind_eq_ok hpo
      cases hq
      obtain ⟨l, hlt, hc, hne, hin, hf⟩ :=
        popAbove_split (pageSizeCount - 1 - layer) (by omega) hn hi
      obtain ⟨he, -, hr⟩ := h.layer l hc
      intro hy
      have hba := (hy l hc).1
      rw [length_frames] at hba
      simp only [update_of_ne hlt.ne', hin, hf, dec] at hba
      omega
  · exact absurd trivial ho
  · exact absurd trivial ho

theorem counters_exact_of_noSplit (memmap : List MemoryMapEntry)
    (hsum : (memmap.map MemoryMapEntry.length).sum < 2 ^ 64) : ∃ s, initializePmm memmap = .ok s ∧
      ∀ x, Reachable (step true) NoSplit ⟨s, []⟩ x → CountersExact s.usedFrames x ∧
        ∀ op y, step true x op = some y →
          (CountersExact s.usedFrames y ∧ NoWrap x y ↔ NoSplit x op) := by
  obtain ⟨s, hs, hb⟩ := initializePmm_booted memmap hsum
  refine ⟨s, hs, fun x hx ↦ ?_⟩
  have ha := accounted_reachable (hb.accounted hsum) hx
  refine ⟨ha.exact, fun op y hst ↦ ⟨fun h ↦ ?_, fun ho ↦ ?_⟩⟩
  · by_contra ho
    exact not_exact_of_split ha ho hst h.1
  · obtain ⟨hy, hw⟩ := accounted_step ha ho hst
    exact ⟨hy.exact, hw⟩

theorem counters_exact_largeFrame : ∃ s y, initializePmm [⟨0x200000, 0x200000, .free, 0⟩] = .ok s ∧
  step true ⟨s, []⟩ (.pop 1) = some y ∧ CountersExact s.usedFrames y := by
  obtain ⟨s, hs, hr⟩ := counters_exact_of_noSplit [⟨0x200000, 0x200000, .free, 0⟩] (by decide)
  have hl : (s.infos 1).numFrames ≠ 0 := by
    cases hs
    decide
  have hp : step true ⟨s, []⟩ (.pop 1) = some ⟨popped s 1, [⟨1, (s.infos 1).stack⟩]⟩ := by
    rw [step, pop_eq (by decide) (.inr rfl) hl]
  exact ⟨s, _, hs, hp, (((hr _ (Reachable.refl ..)).2 _ _ hp).mpr hl).1⟩

theorem counters_not_exact : ¬ ∀ memmap s, initializePmm memmap = .ok s →
      ∀ x, Reachable (step true) Unrestricted ⟨s, []⟩ x → CountersExact s.usedFrames x := by
  intro h
  obtain ⟨s, hs, hb⟩ := initializePmm_booted [⟨0x200000, 0x200000, .free, 0⟩] (by decide)
  have he : (s.infos 0).numFrames = 0 := by
    cases hs
    rfl
  have hl : (s.infos 1).numFrames ≠ 0 := by
    cases hs
    decide
  obtain ⟨⟨frame, t⟩, hp⟩ := popAbove_returns (pageSizeCount - 1) rfl (Nat.zero_le 1) (by decide) hl
  have hst : ∃ y, step true ⟨s, []⟩ (.pop 0) = some y := by
    rw [step, pop, if_neg (by decide), instancePop, Nat.sub_zero, hp]
    exact ⟨_, rfl⟩
  obtain ⟨y, hy⟩ := hst
  have hsp : ¬ NoSplit ⟨s, []⟩ (.pop 0) := fun hn ↦ hn he
  refine not_exact_of_split (hb.accounted (by decide)) hsp hy ?_
  exact h _ s hs y (Reachable.head (.pop 0) trivial hy (Reachable.refl ..))

end Counters

section Tiles

open List Function Foundation Arcs Fallible Block

variable {s t : State} {c : Carving} {target : Set ℕ} {i : ℕ} {b : Block}

theorem pageSizes_dvd (h : i < pageSizeCount) : pageSizes i ∣ 2 ^ 64 := by
  obtain rfl | rfl | rfl : i = 0 ∨ i = 1 ∨ i = 2 := by
    rw [pageSizeCount] at h
    omega
  all_goals decide

theorem pageSizes_zero_dvd (h : i < pageSizeCount) : pageSizes 0 ∣ pageSizes i := by
  obtain rfl | rfl | rfl : i = 0 ∨ i = 1 ∨ i = 2 := by
    rw [pageSizeCount] at h
    omega
  all_goals decide

theorem pageSizes_pos (h : i < pageSizeCount) : 0 < pageSizes i :=
  lt_of_lt_of_le (by decide) (pageSizes_zero_le h)

theorem Block.Valid.end_le (h : b.Valid) : b.address + pageSizes b.layer ≤ 2 ^ 64 :=
  add_le_of_dvd (pageSizes_dvd h.1) h.2.1 h.2.2

theorem Block.Valid.apart {a : Block} (ha : a.Valid) (hb : b.Valid)
  (h : Disjoint a.bytes b.bytes) : Apart a b := by
  have ha := pageSizes_pos ha.1
  have hb := pageSizes_pos hb.1
  rw [bytes, bytes, Set.Ico_disjoint_Ico] at h
  rw [Apart]
  omega

theorem WellFormed.lend (h : WellFormed s []) (hb : b.Valid)
  (hd : Disjoint (freeBytes s) b.bytes) : WellFormed s [b] := by
  have hv : ∀ a ∈ blocks s, a.Valid := fun a ha ↦ h.valid a (mem_append_left _ ha)
  refine ⟨pairwise_append.mpr ⟨(pairwise_append.mp h.apart).1,
    pairwise_singleton .., fun a ha x hx ↦ ?_⟩, fun a ha ↦ ?_, h.unlocked⟩
  · cases mem_singleton.mp hx
    have hf : a.bytes ⊆ freeBytes s := fun y hy ↦ ⟨a, ha, hy⟩
    exact (hv a ha).apart hb (hd.mono_left hf)
  · rcases mem_append.mp ha with ha | ha
    · exact hv a ha
    · cases mem_singleton.mp ha
      exact hb

theorem blocks_pushed (h : WellFormed s [b]) :
  (blocks (pushed s b.layer b.address)).Perm (b :: blocks s) := by
  have hm := mem_singleton_self b
  have hl := (h.valid b (mem_append_right _ hm)).1
  have hr := h.numFrames_le hl
  exact blocks_perm hl (fun l hl hn ↦ frames_pushed_of_ne hn (h.address_notMem hm hl))
    (frames_pushed (by omega) (h.address_notMem hm hl))

theorem freeBytes_pushed (h : WellFormed s [b]) :
  freeBytes (pushed s b.layer b.address) = freeBytes s ∪ b.bytes := by
  ext x
  simp only [freeBytes, Set.mem_ofPred_eq, (blocks_pushed h).mem_iff, mem_cons,
    Set.mem_union, exists_eq_or_imp, or_comm]

structure Tiling (s : State) (target : Set ℕ) (c : Carving) : Prop where
  wellFormed : WellFormed c.state []
  counted : ∀ layer, c.state.freeFrames layer = (c.state.infos layer).numFrames
  disjoint : Disjoint (freeBytes c.state) (arc (2 ^ 64) c.start c.remaining)
  union : freeBytes c.state ∪ arc (2 ^ 64) c.start c.remaining = target
  start_lt : c.start < 2 ^ 64
  start_dvd : pageSizes 0 ∣ c.start
  remaining_lt : c.remaining < 2 ^ 64
  remaining_dvd : pageSizes 0 ∣ c.remaining
  used : c.state.usedFrames = s.usedFrames
  bottom : c.state.sub1MBottom = s.sub1MBottom
  top : c.state.sub1MTop = s.sub1MTop

theorem Tiling.push (h : Tiling s target c) (hi : i < pageSizeCount)
  (hdv : pageSizes i ∣ c.start) (hle : pageSizes i ≤ c.remaining) :
  ∃ d, c.push i = .ok d ∧ Tiling s target d ∧
  d.start = (c.start + pageSizes i) % 2 ^ 64 ∧ d.remaining = c.remaining - pageSizes i := by
  have hv : (Block.mk i c.start).Valid := ⟨hi, hdv, h.start_lt⟩
  have hb : (Block.mk i c.start).bytes = arc (2 ^ 64) c.start (pageSizes i) :=
    (arc_eq_Ico hv.end_le).symm
  have hs : arc (2 ^ 64) c.start c.remaining = (Block.mk i c.start).bytes ∪
      arc (2 ^ 64) ((c.start + pageSizes i) % 2 ^ 64) (c.remaining - pageSizes i) := by
    rw [hb, ← arc_add, Nat.add_sub_cancel' hle]
  have hr : Disjoint (Block.mk i c.start).bytes
      (arc (2 ^ 64) ((c.start + pageSizes i) % 2 ^ 64) (c.remaining - pageSizes i)) := by
    have hlt := h.remaining_lt
    rw [hb]
    exact disjoint_arc_add (by omega)
  have hd := h.disjoint
  rw [hs, Set.disjoint_union_right] at hd
  have hl := h.wellFormed.lend hv hd.1
  have hp := wellFormed_pushed hl (mem_singleton_self _)
  rw [erase_cons_head] at hp
  refine ⟨_, c.push_eq i (h.wellFormed.unlocked i), ⟨?_, fun l ↦ ?_, ?_, ?_, ?_, ?_, ?_, ?_,
    h.used, h.bottom, h.top⟩, rfl, rfl⟩
  · exact ⟨hp.apart, hp.valid, hp.unlocked⟩
  · rcases eq_or_ne l i with rfl | hne
    · simp only [update_self, h.counted l]
    · simpa only [update_of_ne hne] using h.counted l
  · change Disjoint (freeBytes (pushed c.state i c.start)) _
    rw [freeBytes_pushed hl]
    exact Set.disjoint_union_left.mpr ⟨hd.2, hr⟩
  · change freeBytes (pushed c.state i c.start) ∪ _ = target
    rw [freeBytes_pushed hl, Set.union_assoc, ← hs, h.union]
  · exact Nat.mod_lt _ (by decide)
  · exact (Nat.dvd_mod_iff (by decide)).mpr (Nat.dvd_add h.start_dvd (pageSizes_zero_dvd hi))
  · exact lt_of_le_of_lt (Nat.sub_le ..) h.remaining_lt
  · exact Nat.dvd_sub h.remaining_dvd (pageSizes_zero_dvd hi)

theorem Tiling.pushWhile (h : Tiling s target c) (m : ℕ → Bool) (hi : i < pageSizeCount)
  (hre : pageSizes i ∣ c.start ∨ c.remaining < pageSizes i) (n : ℕ)
  (hfu : c.remaining / pageSizes i ≤ n) :
  ∃ d, c.pushWhile m i n = .ok d ∧ Tiling s target d ∧ d.remaining ≤ c.remaining ∧
  (m d.start = false ∨ d.remaining < pageSizes i) ∧
  ∀ p, p ∣ pageSizes i → p ∣ c.start → p ∣ d.start := by
  have hpo := pageSizes_pos hi
  induction n generalizing c with
  | zero =>
    have hlt := (Nat.div_eq_zero_iff_lt hpo).mp (Nat.le_zero.mp hfu)
    exact ⟨c, rfl, h, le_rfl, .inr hlt, fun _ _ hp ↦ hp⟩
  | succ n ih =>
    rw [Carving.pushWhile]
    split
    next hm =>
      have hdv := hre.resolve_right (not_lt.mpr hm.2)
      obtain ⟨d, hd, ht, hs, hr⟩ := h.push hi hdv hm.2
      have hn (p : ℕ) (hp : p ∣ pageSizes i) (hc : p ∣ c.start) : p ∣ d.start := by
        rw [hs]
        exact (Nat.dvd_mod_iff (hp.trans (pageSizes_dvd hi))).mpr (dvd_add hc hp)
      have hdi : c.remaining / pageSizes i = d.remaining / pageSizes i + 1 := by
        rw [hr, Nat.div_eq_sub_div hpo hm.2]
      obtain ⟨f, hf, ht, hle, hst, hk⟩ := ih ht (.inl (hn _ dvd_rfl hdv)) (by omega)
      refine ⟨f, ?_, ht, by omega, hst, fun p hp hc ↦ hk p hp (hn p hp hc)⟩
      rw [hd, ok_bind, hf]
    next hm =>
      refine ⟨c, rfl, h, le_rfl, ?_, fun _ _ hp ↦ hp⟩
      rw [not_and_or, Bool.not_eq_true, not_le] at hm
      exact hm

theorem Tiling.carve (h : Tiling s target c) :
  ∃ d, carve c = .ok d ∧ Tiling s target d ∧ d.remaining = 0 := by
  have h01 : pageSizes 0 < pageSizes 1 := by decide
  have h12 : pageSizes 1 < pageSizes 2 := by decide
  obtain ⟨c₁, h₁, t₁, -, stop₁, -⟩ := h.pushWhile
    (fun start ↦ start % pageSizes (0 + 1) != 0) (by decide : 0 < pageSizeCount)
    (.inl h.start_dvd) _ le_rfl
  have ready₁ : pageSizes 1 ∣ c₁.start ∨ c₁.remaining < pageSizes 1 :=
    stop₁.imp (fun hs ↦ Nat.dvd_of_mod_eq_zero (by simpa using hs)) fun hs ↦ hs.trans h01
  obtain ⟨c₂, h₂, t₂, -, st, -⟩ := t₁.pushWhile
    (fun start ↦ start % pageSizes (1 + 1) != 0) (by decide : 1 < pageSizeCount) ready₁ _ le_rfl
  have ready₂ : pageSizes 2 ∣ c₂.start ∨ c₂.remaining < pageSizes 1 :=
    st.imp_left fun hs ↦ Nat.dvd_of_mod_eq_zero (by simpa using hs)
  obtain ⟨c₃, h₃, t₃, l, -, k⟩ := t₂.pushWhile (fun _ ↦ true)
    (by decide : 2 < pageSizeCount) (ready₂.imp_right fun hs ↦ hs.trans h12) _ le_rfl
  -- Descending from the largest pages, the next smaller ones are aligned too.
  have ready₃ : pageSizes 1 ∣ c₃.start ∨ c₃.remaining < pageSizes 1 :=
    ready₂.imp (fun hs ↦ k _ (by decide) ((by decide : pageSizes 1 ∣ pageSizes 2).trans hs))
      l.trans_lt
  obtain ⟨c₄, h₄, t₄, -⟩ := t₃.pushWhile (fun _ ↦ true) (by decide : 1 < pageSizeCount) ready₃ _
    le_rfl
  obtain ⟨c₅, h₅, t₅, -, sto, -⟩ := t₄.pushWhile (fun _ ↦ true) (by decide : 0 < pageSizeCount)
    (.inl t₄.start_dvd) _ le_rfl
  have hlt := sto.resolve_left (by simp)
  refine ⟨c₅, ?_, t₅, Nat.eq_zero_of_dvd_of_lt t₅.remaining_dvd hlt⟩
  rw [Pmm.carve, Carving.climb, h₁, ok_bind, Carving.climb, h₂, ok_bind, Carving.descend, h₃,
    ok_bind, Carving.descend, h₄, ok_bind, Carving.descend, h₅]

end Tiles

section Regions

open Foundation.Arcs List

namespace MemoryMapEntry

def bytes (e : MemoryMapEntry) : Set ℕ := Set.Ico e.physicalStart (e.physicalStart + e.length)

structure Sane (e : MemoryMapEntry) : Prop where
  start_dvd : pageSizes 0 ∣ e.physicalStart
  length_dvd : pageSizes 0 ∣ e.length
  start_lt : e.physicalStart < 2 ^ 64
  length_lt : e.length < 2 ^ 64
  end_le : e.physicalStart + e.length ≤ 2 ^ 64

def Mergeable (e f : MemoryMapEntry) : Prop :=
  e.type = f.type ∧ e.attributes = f.attributes ∧
    (e.physicalStart + e.length) % 2 ^ 64 = f.physicalStart

instance (e f : MemoryMapEntry) : Decidable (Mergeable e f) :=
  inferInstanceAs (Decidable (_ ∧ _))

end MemoryMapEntry

open MemoryMapEntry

def memory (memmap : List MemoryMapEntry) : Set ℕ := {x | ∃ e ∈ memmap, x ∈ e.bytes}

def freeMemory (memmap : List MemoryMapEntry) : Set ℕ :=
  {x | ∃ e ∈ memmap, e.type = .free ∧ x ∈ e.bytes}

def totalLength (memmap : List MemoryMapEntry) : ℕ := (memmap.map MemoryMapEntry.length).sum

variable {s t : State} {e : MemoryMapEntry} {rest done group : List MemoryMapEntry}

theorem memory_append : memory (done ++ group) = memory done ∪ memory group := by
  ext x
  simp only [memory, Set.mem_ofPred_eq, Set.mem_union, mem_append, or_and_right, exists_or]

theorem freeMemory_append : freeMemory (done ++ group) = freeMemory done ∪ freeMemory group := by
  ext x
  simp only [freeMemory, Set.mem_ofPred_eq, Set.mem_union, mem_append, or_and_right, exists_or]

theorem memory_cons : memory (e :: rest) = e.bytes ∪ memory rest := by
  ext x
  simp only [memory, Set.mem_ofPred_eq, Set.mem_union, mem_cons, exists_eq_or_imp]

theorem freeMemory_subset : freeMemory rest ⊆ memory rest := by
  rintro x ⟨e, he, -, hx⟩
  exact ⟨e, he, hx⟩

theorem freeMemory_eq (h : ∀ f ∈ group, f.type = .free) : freeMemory group = memory group := by
  refine freeMemory_subset.antisymm ?_
  rintro x ⟨e, he, hx⟩
  exact ⟨e, he, h e he, hx⟩

def adjacent : MemoryMapEntry → List MemoryMapEntry → List MemoryMapEntry
  | _, [] => []
  | e, f :: rest => if Mergeable e f then f :: adjacent f rest else []

theorem adjacent_append_drop (e : MemoryMapEntry) (rest : List MemoryMapEntry) :
  adjacent e rest ++ rest.drop (adjacent e rest).length = rest := by
  induction rest generalizing e with
  | nil => rfl
  | cons f rest ih =>
    rw [adjacent]
    split
    next => rw [length_cons, drop_succ_cons, cons_append, ih f]
    next => rfl

theorem cons_adjacent_append_drop (e : MemoryMapEntry) (rest : List MemoryMapEntry) :
  (e :: adjacent e rest) ++ rest.drop (adjacent e rest).length = e :: rest :=
  congrArg (e :: ·) (adjacent_append_drop e rest)

theorem adjacent_subset (e : MemoryMapEntry) (rest : List MemoryMapEntry) :
  adjacent e rest ⊆ rest := by
  intro f hf
  rw [← adjacent_append_drop e rest]
  exact mem_append_left _ hf

theorem type_of_mem_adjacent (e : MemoryMapEntry) (xs : List MemoryMapEntry) :
  ∀ f ∈ adjacent e xs, f.type = e.type := by
  induction xs generalizing e with
  | nil => exact fun f hf ↦ absurd hf (not_mem_nil)
  | cons g xs ih =>
    rw [adjacent]
    split
    next hg =>
      intro f hf
      rcases mem_cons.mp hf with rfl | hf
      · exact hg.1.symm
      · exact (ih g f hf).trans hg.1.symm
    next => exact fun f hf ↦ absurd hf (not_mem_nil)

theorem merge_eq (st tt : ℕ) (e : MemoryMapEntry) (xs : List MemoryMapEntry)
  (he : (st + tt) % 2 ^ 64 = (e.physicalStart + e.length) % 2 ^ 64) : merge st (tt % 2 ^ 64) e xs =
  ((tt + totalLength (adjacent e xs)) % 2 ^ 64, (adjacent e xs).getLastD e,
  xs.drop (adjacent e xs).length) := by
  induction xs generalizing e tt with
  | nil => rfl
  | cons f xs ih =>
    rw [merge, adjacent, Nat.add_mod_mod, he]
    by_cases hf : Mergeable e f
    · have hs := hf.2.2
      rw [if_pos hf, if_pos ⟨hf.1, hf.2.1, hs⟩, Nat.mod_add_mod, ih (tt + f.length) f]
      · simp only [totalLength, map_cons, sum_cons, length_cons,
          drop_succ_cons, getLastD_cons, add_assoc]
      · rw [← add_assoc, Nat.add_mod, he, hs, Nat.add_mod_mod]
    · rw [if_neg hf]
      exact if_neg hf

theorem arc_adjacent (st tt : ℕ) (e : MemoryMapEntry) (xs : List MemoryMapEntry)
  (h : ∀ f ∈ xs, f.Sane) (he : (st + tt) % 2 ^ 64 = (e.physicalStart + e.length) % 2 ^ 64) :
  arc (2 ^ 64) st (tt + totalLength (adjacent e xs)) =
  arc (2 ^ 64) st tt ∪ memory (adjacent e xs) := by
  induction xs generalizing e tt with
  | nil => simp [adjacent, totalLength, memory]
  | cons f xs ih =>
    rw [adjacent]
    split
    next hf =>
      have hs := he.trans hf.2.2
      have hb : arc (2 ^ 64) f.physicalStart f.length = f.bytes :=
        arc_eq_Ico (h f (mem_cons_self ..)).end_le
      rw [totalLength, map_cons, sum_cons, ← add_assoc, ← totalLength,
        ih (tt + f.length) f fun g hg ↦ h g (mem_cons_of_mem _ hg), arc_add, hs,
        hb, memory_cons, Set.union_assoc]
      rw [← add_assoc, Nat.add_mod, hs, Nat.add_mod_mod]
    next => simp [totalLength, memory]

theorem arc_region (he : e.Sane) (hs : ∀ f ∈ rest, f.Sane) :
  arc (2 ^ 64) e.physicalStart (totalLength (e :: adjacent e rest)) =
  memory (e :: adjacent e rest) := by
  rw [memory_cons, totalLength, map_cons, sum_cons, ← totalLength,
    arc_adjacent _ _ e rest hs rfl, arc_eq_Ico he.end_le]
  rfl

theorem merge_region (he : e.Sane) (xs : List MemoryMapEntry) :
  merge e.physicalStart e.length e xs =
  (totalLength (e :: adjacent e xs) % 2 ^ 64, (adjacent e xs).getLastD e,
  xs.drop (adjacent e xs).length) := by
  have h := merge_eq e.physicalStart e.length e xs rfl
  rwa [Nat.mod_eq_of_lt he.length_lt] at h

theorem pageSizes_dvd_totalLength (h : ∀ f ∈ group, f.Sane) : pageSizes 0 ∣ totalLength group := by
  refine dvd_sum fun n hn ↦ ?_
  obtain ⟨f, hf, rfl⟩ := mem_map.mp hn
  exact (h f hf).length_dvd

end Regions

open Function Foundation Arcs Fallible Runs Block MemoryMapEntry

variable {s t : State} {e : MemoryMapEntry} {rest done group : List MemoryMapEntry}

structure Settled (s : State) : Prop where
  wellFormed : WellFormed s []
  counted : ∀ layer, s.freeFrames layer = (s.infos layer).numFrames

theorem Settled.of_eq (h : Settled s) (hi : t.infos = s.infos) (hh : t.header = s.header)
  (hf : t.freeFrames = s.freeFrames) : Settled t := by
  have hb : blocks t = blocks s := by simp only [blocks, frames, hi, hh]
  exact ⟨⟨hb ▸ h.wellFormed.apart, hb ▸ h.wellFormed.valid,
    hi ▸ h.wellFormed.unlocked⟩, fun layer ↦ by rw [hi, hf, h.counted]⟩

theorem settled_initial : Settled {} := by
  have hb : blocks {} = [] := rfl
  refine ⟨⟨?_, ?_, fun _ ↦ rfl⟩, fun _ ↦ rfl⟩
  · rw [hb]
    exact .nil
  · rw [hb]
    simp

theorem addRegion_spec (st z : ℕ) (e : MemoryMapEntry) (h : Settled s)
  (hs : st < 2 ^ 64) (hst : pageSizes 0 ∣ st) (hsi : z < 2 ^ 64) (hsize_dvd : pageSizes 0 ∣ z)
  (hd : Disjoint (freeBytes s) (arc (2 ^ 64) st z)) : ∃ t, addRegion s st z e = .ok t ∧ Settled t ∧
  freeBytes t = freeBytes s ∪ (if e.type = .free then arc (2 ^ 64) st z else ∅) ∧
  t.usedFrames 0 = (if countedAsUsed e.type then
  (s.usedFrames 0 + e.length / pageSizes 0) % 2 ^ 64 else s.usedFrames 0) ∧
  t.sub1MBottom = s.sub1MBottom ∧ t.sub1MTop = s.sub1MTop := by
  rw [addRegion]
  split
  next hf =>
    have ht : Tiling s (freeBytes s ∪ arc (2 ^ 64) st z) ⟨s, st, z⟩ :=
      ⟨h.wellFormed, h.counted, hd, rfl, hs, hst, hsi, hsize_dvd, rfl, rfl,
        rfl⟩
    obtain ⟨c, hc, ht, hz⟩ := ht.carve
    have hu := ht.union
    rw [hz, arc_zero, Set.union_empty] at hu
    refine ⟨c.state, by rw [hc]; rfl, ⟨ht.wellFormed, ht.counted⟩, hu, ?_, ht.bottom, ht.top⟩
    rw [ht.used, hf]
    rfl
  next =>
    rw [Set.union_empty]
    split
    next =>
      refine ⟨_, rfl, h.of_eq rfl rfl rfl, rfl, ?_, rfl, rfl⟩
      simp only [update_self]
    next => exact ⟨s, rfl, h, rfl, rfl, rfl, rfl⟩

variable {start size : ℕ}

structure Sound (done : List MemoryMapEntry) (s : State) : Prop where
  settled : Settled s
  free : freeBytes s ⊆ freeMemory done
  reserved : Set.Ico s.sub1MBottom s.sub1MTop ⊆ memory done
  apart : Disjoint (freeBytes s) (Set.Ico s.sub1MBottom s.sub1MTop)

theorem Ico_subset_arc {l h : ℕ} (hl : start ≤ l) (hh : h ≤ size)
  (hs : size < 2 ^ 64) : Set.Ico l h ⊆ arc (2 ^ 64) start size := by
  rintro x ⟨hx, hx'⟩
  exact ⟨x - start, by omega, by rw [Nat.mod_eq_of_lt (by omega)]; omega⟩

theorem Sound.grow {p : Set ℕ} (h : Sound done s)
  (hg : Disjoint (memory done) (memory group)) (ht : Settled t)
  (hb : freeBytes t = freeBytes s ∪ p) (hp : p ⊆ freeMemory group)
  (hr : Set.Ico t.sub1MBottom t.sub1MTop = Set.Ico s.sub1MBottom s.sub1MTop ∨
  Set.Ico t.sub1MBottom t.sub1MTop ⊆ memory group)
  (ha : Disjoint p (Set.Ico t.sub1MBottom t.sub1MTop)) : Sound (done ++ group) t := by
  refine ⟨ht, ?_, ?_, ?_⟩
  · rw [hb, freeMemory_append]
    exact Set.union_subset_union h.free hp
  · rw [memory_append]
    rcases hr with heq | hs
    · rw [heq]
      exact h.reserved.trans Set.subset_union_left
    · exact hs.trans Set.subset_union_right
  · rw [hb, Set.disjoint_union_left]
    refine ⟨?_, ha⟩
    rcases hr with heq | hs
    · rw [heq]
      exact h.apart
    · exact hg.mono (h.free.trans freeMemory_subset) hs

theorem reserveLow_sound (h : Sound done s) (hg : Disjoint (memory done) (memory group))
  (hst : start < 2 ^ 64) (hstart_dvd : pageSizes 0 ∣ start) (hsi : size < 2 ^ 64)
  (hsize_dvd : pageSizes 0 ∣ size) (ha : arc (2 ^ 64) start size ⊆ memory group)
  (hty : ∀ f ∈ group, f.type = e.type) :
  ∃ t, reserveLow s start size e = .ok t ∧ Sound (done ++ group) t := by
  have hfr : freeBytes s ⊆ memory done := h.free.trans freeMemory_subset
  have hp (r : Set ℕ) (hsu : r ⊆ memory group) :
    (if e.type = .free then r else ∅) ⊆ freeMemory group := by
    split
    next hfr => rwa [freeMemory_eq fun f hf ↦ (hty f hf).trans hfr]
    next => exact Set.empty_subset _
  rw [reserveLow]
  split
  next hl =>
    split
    next hle =>
      have hsu : Set.Ico start size ⊆ memory group := (Ico_subset_arc le_rfl le_rfl hsi).trans ha
      exact ⟨_, rfl, h.grow hg (h.settled.of_eq rfl rfl rfl) (Set.union_empty _).symm
        (Set.empty_subset _) (.inr hsu) (Set.empty_disjoint _)⟩
    next hgt =>
      have hr : arc (2 ^ 64) (1024 * 1024) (size - 1024 * 1024) = Set.Ico (1024 * 1024) size := by
        rw [arc_eq_Ico (by omega), Nat.add_sub_cancel' (by omega)]
      have hsu : Set.Ico (1024 * 1024) size ⊆ memory group :=
        (Ico_subset_arc hl.1.le le_rfl hsi).trans ha
      have hre : Set.Ico start (1024 * 1024) ⊆ memory group :=
        (Ico_subset_arc le_rfl (by omega) hsi).trans ha
      have hcu : Disjoint (Set.Ico (1024 * 1024) size) (Set.Ico start (1024 * 1024)) := by
        rw [Set.Ico_disjoint_Ico]
        omega
      have hc : Settled { s with sub1MBottom := start, sub1MTop := 1024 * 1024 } :=
        h.settled.of_eq rfl rfl rfl
      obtain ⟨t, ht, hs, hby, -, hb, hto⟩ := addRegion_spec (1024 * 1024)
        (size - 1024 * 1024) e hc (by decide) (by decide) (by omega)
        (Nat.dvd_sub hsize_dvd (by decide)) (hg.mono hfr (hr ▸ hsu))
      refine ⟨t, ht, h.grow hg hs hby (hp _ (hr ▸ hsu)) ?_ ?_⟩
      · rw [hb, hto]
        exact .inr hre
      · rw [hb, hto, hr]
        split
        · exact hcu
        · exact Set.empty_disjoint _
  next =>
    obtain ⟨t, ht, hs, hby, -, hb, hto⟩ := addRegion_spec start size e h.settled
      hst hstart_dvd hsi hsize_dvd (hg.mono hfr ha)
    have hsu := hp _ ha
    refine ⟨t, ht, h.grow hg hs hby hsu (.inl (by rw [hb, hto])) ?_⟩
    rw [hb, hto]
    exact (hg.mono h.reserved (hsu.trans freeMemory_subset)).symm

theorem disjoint_memory (h : ∀ e ∈ done, ∀ f ∈ group, Disjoint e.bytes f.bytes) :
  Disjoint (memory done) (memory group) := by
  rw [Set.disjoint_left]
  rintro x ⟨e, he, hx⟩ ⟨f, hf, hx'⟩
  exact Set.disjoint_left.mp (h e he f hf) hx hx'

theorem initializeFrom_sound (n : ℕ) (h : Sound done s) (hs : ∀ f ∈ rest, f.Sane)
  (hfu : rest.length ≤ n) (hd : (done ++ rest).Pairwise fun e f ↦ Disjoint e.bytes f.bytes) :
  ∃ t, initializeFrom n rest s = .ok t ∧ Sound (done ++ rest) t := by
  induction n generalizing rest done s with
  | zero =>
    cases List.eq_nil_of_length_eq_zero (Nat.le_zero.mp hfu)
    exact ⟨s, rfl, by rwa [List.append_nil]⟩
  | succ n ih =>
    cases rest with
    | nil => exact ⟨s, rfl, by rwa [List.append_nil]⟩
    | cons e rest =>
      have he := hs e (List.mem_cons_self ..)
      have hr : ∀ f ∈ rest, f.Sane := fun f hf ↦ hs f (List.mem_cons_of_mem _ hf)
      have hg : ∀ f ∈ e :: adjacent e rest, f.Sane := fun f hf ↦
        hs f (List.cons_subset_cons e (adjacent_subset e rest) hf)
      have hsp : done ++ e :: rest =
        done ++ (e :: adjacent e rest) ++ rest.drop (adjacent e rest).length := by
        rw [List.append_assoc, cons_adjacent_append_drop]
      rw [hsp] at hd ⊢
      have hl := List.getLastD_mem_cons (l := adjacent e rest) (a := e)
      have hty : ∀ f ∈ e :: adjacent e rest, f.type = e.type :=
        List.forall_mem_cons.mpr ⟨rfl, type_of_mem_adjacent e rest⟩
      obtain ⟨t, ht, hso⟩ := reserveLow_sound h
        (disjoint_memory (List.pairwise_append.mp (List.pairwise_append.mp hd).1).2.2)
        he.start_lt he.start_dvd (Nat.mod_lt _ (by decide))
        ((Nat.dvd_mod_iff (by decide)).mpr (pageSizes_dvd_totalLength hg))
        ((arc_mono (Nat.mod_le ..)).trans (arc_region he hr).subset)
        fun f hf ↦ (hty f hf).trans (hty _ hl).symm
      obtain ⟨u, hu, hdo⟩ := ih hso (fun f hf ↦ hr f (List.mem_of_mem_drop hf))
        (by rw [List.length_drop, List.length_cons] at *; omega) hd
      refine ⟨u, ?_, hdo⟩
      rw [initializeFrom, merge_region he rest]
      simp only [ht, ok_bind]
      exact hu

theorem initializePmm_sound (memmap : List MemoryMapEntry) (hsane : ∀ e ∈ memmap, e.Sane)
    (hdisjoint : memmap.Pairwise fun e f ↦ Disjoint e.bytes f.bytes) :
    ∃ s, initializePmm memmap = .ok s ∧
      (∀ layer < pageSizeCount, s.freeFrames layer = (frames s layer).length) ∧
      (∀ b ∈ blocks s, pageSizes b.layer ∣ b.address ∧ b.bytes ⊆ freeMemory memmap ∧
        Disjoint b.bytes (Set.Ico s.sub1MBottom s.sub1MTop)) ∧
      (blocks s).Pairwise fun a b ↦ Disjoint a.bytes b.bytes := by
  have hi : Sound [] {} :=
    ⟨settled_initial, by simp [freeBytes, blocks, frames, Foundation.Walk.walk], by simp, by simp⟩
  obtain ⟨s, hs, h⟩ := initializeFrom_sound memmap.length hi hsane le_rfl hdisjoint
  have hwf := h.settled.wellFormed
  refine ⟨s, hs, fun layer _ ↦ ?_, fun b hb ↦ ?_, ?_⟩
  · rw [h.settled.counted, frames, Foundation.Walk.length_walk]
  · have hby : b.bytes ⊆ freeBytes s := fun x hx ↦ ⟨b, hb, hx⟩
    exact ⟨(hwf.valid b (List.mem_append_left _ hb)).2.1, hby.trans h.free, h.apart.mono_left hby⟩
  · exact (List.pairwise_append.mp hwf.apart).1.imp Apart.disjoint

theorem initializePmm_unsorted :
  ∃ s, initializePmm [⟨0x400000, 0x1000, .free, 0⟩, ⟨0x2000, 0x200000, .free, 0⟩,
  ⟨0x300000, 0x1000, .kernel, 0⟩] = .ok s ∧
  (blocks s).Pairwise fun a b ↦ Disjoint a.bytes b.bytes := by
  obtain ⟨s, hs, -, -, hp⟩ := initializePmm_sound [⟨0x400000, 0x1000, .free, 0⟩,
    ⟨0x2000, 0x200000, .free, 0⟩, ⟨0x300000, 0x1000, .kernel, 0⟩] (by
      simp only [List.forall_mem_cons]
      refine ⟨⟨?_, ?_, ?_, ?_, ?_⟩, ⟨?_, ?_, ?_, ?_, ?_⟩, ⟨?_, ?_, ?_, ?_, ?_⟩, by simp⟩ <;> decide)
    (by simp [MemoryMapEntry.bytes])
  exact ⟨s, hs, hp⟩

theorem perm_step {x y : System} {op : Op} (h : WellFormed x.state x.outstanding)
  (hs : step false x op = some y) :
  (blocks y.state ++ y.outstanding).Perm (blocks x.state ++ x.outstanding) := by
  rcases step_cases hs with ⟨layer, frame, t, -, hpo, rfl⟩ | ⟨b, hb, t, -, hp, rfl⟩ |
    ⟨b, hb, contents, -, rfl⟩
  · rcases pop_false_cases h.unlocked with ⟨fault, hf⟩ | ⟨hl, hn, heq⟩
    · cases hpo.symm.trans hf
    · cases hpo.symm.trans heq
      exact List.perm_middle.trans ((blocks_popped hl h hn).symm.append_right _)
  · have hl := (h.valid b (List.mem_append_right _ hb)).1
    have hn := h.numFrames_le hl
    cases hp.symm.trans (push_eq hl (.inl (h.unlocked _)))
    have hbl := blocks_perm hl (fun l hl hne ↦ frames_pushed_of_ne hne (h.address_notMem hb hl))
      (frames_pushed (by omega) (h.address_notMem hb hl))
    refine (hbl.append_right _).trans (List.perm_middle.symm.trans ?_)
    exact (List.perm_cons_erase hb).symm.append_left _
  · have hf (l : ℕ) (hl : l < pageSizeCount) :
      frames (used x.state b contents) l = frames x.state l := by
      symm
      exact Foundation.Walk.walk_congr _ _ fun a ha ↦ (if_neg (h.notMem_bytes hb hl ha)).symm
    simp only [blocks, hf 0 (by decide), hf 1 (by decide), hf 2 (by decide), List.Perm.refl]

/-- From the start on every frame is free or has one owner, whatever is written to those in use. -/
theorem frames_conserved (memmap : List MemoryMapEntry) (hsane : ∀ e ∈ memmap, e.Sane)
    (hdisjoint : memmap.Pairwise fun e f ↦ Disjoint e.bytes f.bytes) :
    ∃ s, initializePmm memmap = .ok s ∧ ∀ y, Reachable (step false) Unrestricted ⟨s, []⟩ y →
      (blocks y.state ++ y.outstanding).Perm (blocks s) := by
  have hi : Sound [] {} :=
    ⟨settled_initial, by simp [freeBytes, blocks, frames, Foundation.Walk.walk], by simp, by simp⟩
  obtain ⟨s, hs, hso⟩ := initializeFrom_sound memmap.length hi hsane le_rfl hdisjoint
  refine ⟨s, hs, fun y hy ↦ ?_⟩
  refine (hy.invariant (I := fun y ↦ WellFormed y.state y.outstanding ∧
    (blocks y.state ++ y.outstanding).Perm (blocks s)) ⟨hso.settled.wellFormed, ?_⟩ ?_).2
  · rw [List.append_nil]
  · exact fun x op y h _ hs ↦ ⟨wellFormed_step h.1 hs, (perm_step h.1 hs).trans h.2⟩

/-- Two frames are handed out, the first one is written to and given back. -/
theorem frames_conserved_threePages : ∃ s y,
  initializePmm [⟨0x1000, 0x1000, .free, 0⟩, ⟨0x100000, 0x3000, .free, 0⟩] = .ok s ∧
  exec (step false) ⟨s, []⟩ [.pop 0, .use ⟨0, 0x102000⟩ fun _ ↦ 7, .pop 0,
  .push ⟨0, 0x102000⟩] = some y ∧
  frames y.state 0 = [0x102000, 0x100000] ∧ y.outstanding = [⟨0, 0x101000⟩] ∧
  (blocks y.state ++ y.outstanding).Perm (blocks s) := by
  obtain ⟨s, hs, hc⟩ := frames_conserved [⟨0x1000, 0x1000, .free, 0⟩, ⟨0x100000, 0x3000, .free, 0⟩]
    (by simp only [List.forall_mem_cons, List.not_mem_nil, false_implies, implies_true,
    and_true]; constructor <;> constructor <;> decide) (by simp [MemoryMapEntry.bytes])
  have hru : (exec (step false) ⟨s, []⟩ [.pop 0, .use ⟨0, 0x102000⟩ fun _ ↦ 7, .pop 0,
    .push ⟨0, 0x102000⟩]).any (fun y ↦
    frames y.state 0 = [0x102000, 0x100000] ∧ y.outstanding = [⟨0, 0x101000⟩]) := by
    cases hs
    decide
  obtain ⟨y, hy, hf⟩ := (Option.any_eq_true _ _).mp hru
  obtain ⟨hf, ho⟩ := of_decide_eq_true hf
  exact ⟨s, y, hs, hy, hf, ho, hc y (.of_exec (fun _ _ _ ↦ trivial) hy)⟩

end ReaverOS.Kernel.Pmm
