import ReaverOS.Foundation.Runs
import ReaverOS.Foundation.Tally

namespace ReaverOS.Kernel.Ownership

section

open Function Foundation

abbrev Obj := ℕ
abbrev Slot := ℕ

/-- What a destructor does with references: `release` belongs to the handles that `create_handle`
makes of an `intrusive_ptr`, one of a raw pointer has the empty one. -/
inductive Dtor where
  | empty
  | release (payload : Option Obj)
  deriving DecidableEq, Repr

structure Object where
  count : ℤ := 0
  alive : Bool := false
  dtor : Dtor := .empty

/-- `slots` are the `intrusive_ptr` objects: none where there is none yet or any more. `kept`
are the raw pointers that `release(keep_count)` has returned. -/
structure State where
  objects : Obj → Object := fun _ ↦ {}
  made : ℕ := 0
  slots : Slot → Option (Option Obj) := fun _ ↦ none
  used : ℕ := 0
  kept : List Obj := []

namespace State

def setCount (s : State) (o : Obj) (n : ℤ) : State :=
  { s with objects := update s.objects o { s.objects o with count := n } }

def kill (s : State) (o : Obj) : State :=
  { s with objects := update s.objects o { s.objects o with alive := false } }

def setSlot (s : State) (i : Slot) (v : Option (Option Obj)) : State :=
  { s with slots := update s.slots i v }

def pushSlot (s : State) (p : Option Obj) : State :=
  { s with slots := update s.slots s.used (some p), used := s.used + 1 }

def pushObject (s : State) (d : Dtor) : State :=
  { s with objects := update s.objects s.made { alive := true, dtor := d }, made := s.made + 1 }

def setKept (s : State) (l : List Obj) : State :=
  { s with kept := l }

end State

def fetchAdd (s : State) (o : Obj) : State := s.setCount o ((s.objects o).count + 1)

def fetchSub (s : State) (o : Obj) : State := s.setCount o ((s.objects o).count - 1)

def claim (s : State) : Option Obj → State
  | none => s
  | some o => fetchAdd s o

def dropCount (s : State) : Option Obj → Option State
  | none => none
  | some o => some (fetchSub s o)

def delete (s : State) (o : Obj) : Option State :=
  match (s.objects o).dtor with
  | .empty => some (s.kill o)
  | .release payload => dropCount (claim (s.kill o) payload) payload

def disown (s : State) : Option Obj → Option State
  | none => some s
  | some o => if (s.objects o).count = 1 then delete (fetchSub s o) o else some (fetchSub s o)

def makeIntrusive (s : State) (d : Dtor) : State :=
  claim ((s.pushObject d).pushSlot (some s.made)) (some s.made)

inductive Op where
  | null
  | make
  | ofRaw (o : Obj)
  | copy (i : Slot)
  | move (i : Slot)
  | copyAssign (i j : Slot)
  | moveAssign (i j : Slot)
  | destroy (i : Slot)
  | releaseKeep (i : Slot)
  | adopt (o : Obj)
  | releaseDrop (i : Slot)
  | createHandleRaw (o : Obj)
  | createHandle (i : Slot)
  deriving DecidableEq, Repr

def step (s : State) : Op → Option State
  | .null => some (s.pushSlot none)
  | .make => some (makeIntrusive s .empty)
  | .ofRaw o => if (s.objects o).alive then some (claim (s.pushSlot (some o)) (some o)) else none
  | .copy i => do
    let p ← s.slots i
    some (claim (s.pushSlot p) p)
  | .move i => do
    let p ← s.slots i
    some ((s.setSlot i (some none)).pushSlot p)
  | .copyAssign i j => do
    let p ← s.slots i
    let s ← disown s p
    let q ← s.slots j
    some (claim (s.setSlot i (some q)) q)
  | .moveAssign i j => do
    let p ← s.slots i
    let s ← disown s p
    let q ← s.slots j
    some ((s.setSlot j (some none)).setSlot i (some q))
  | .destroy i => do
    let p ← s.slots i
    let s ← disown s p
    some (s.setSlot i none)
  | .releaseKeep i => do
    let p ← s.slots i
    some ((s.setSlot i (some none)).setKept (p.toList ++ s.kept))
  | .adopt o =>
    if o ∈ s.kept then some ((s.setKept (s.kept.erase o)).pushSlot (some o)) else none
  | .releaseDrop i => do
    let p ← s.slots i
    let s ← dropCount s p
    some (s.setSlot i (some none))
  | .createHandleRaw o => if (s.objects o).alive then some (makeIntrusive s .empty) else none
  | .createHandle i => do
    let p ← s.slots i
    some (makeIntrusive (s.setSlot i (some none)) (.release p))

def Object.Keeps (o : Obj) (x : Object) : Prop := x.alive ∧ x.dtor = .release (some o)

instance (o : Obj) : DecidablePred (Object.Keeps o) := fun _ ↦ instDecidableAnd

def owners (s : State) (o : Obj) : ℕ :=
  tally (· = some (some o)) s.slots s.used + s.kept.count o +
    tally (Object.Keeps o) s.objects s.made

def Exact (s : State) : Prop :=
  ∀ o, if (s.objects o).alive then (s.objects o).count = owners s o ∧ 0 < owners s o
    else owners s o = 0

open Option

def refs (p : Option Obj) (o : Obj) : ℕ := if p = some o then 1 else 0

variable {s t : State} {p q : Option Obj} {o x : Obj} {i j : Slot} {d : Dtor} {n m : Obj → ℕ}

theorem refs_none : refs none o = 0 := rfl

theorem owners_setObject (y : Object) (hy : Object.Keeps o y ↔ Object.Keeps o (s.objects x)) :
  owners { s with objects := update s.objects x y } o = owners s o := by
  unfold owners
  congr 1
  apply tally_congr
  intro h _
  rcases eq_or_ne h x with rfl | hne
  · simp only [update_self, hy]
  · simp only [update_of_ne hne]

theorem owners_setCount (k : ℤ) : owners (s.setCount x k) o = owners s o :=
  owners_setObject _ Iff.rfl

theorem owners_kill (hx : (s.objects x).dtor = .empty) : owners (s.kill x) o = owners s o := by
  apply owners_setObject
  simp [Object.Keeps, hx]

theorem owners_setSlot (hi : i < s.used) (hp : s.slots i = some p) :
  owners (s.setSlot i (some q)) o + refs p o = owners s o + refs q o := by
  have h := tally_update (P := (· = some (some o))) (f := s.slots) hi (some q)
  simp only [hp, some.injEq] at h
  simp only [owners, State.setSlot, refs]
  omega

theorem owners_dropSlot (hi : i < s.used) (hp : s.slots i = some p) :
  owners (s.setSlot i none) o + refs p o = owners s o := by
  have h := tally_update (P := (· = some (some o))) (f := s.slots) hi none
  simp only [hp, some.injEq, reduceCtorEq, if_false] at h
  simp only [owners, State.setSlot, refs]
  omega

theorem owners_pushSlot : owners (s.pushSlot p) o = owners s o + refs p o := by
  simp only [owners, State.pushSlot, refs, tally_push, some.injEq]
  omega

theorem owners_setKept (l : List Obj) :
  owners (s.setKept l) o + s.kept.count o = owners s o + l.count o := by
  simp only [owners, State.setKept]
  omega

def Dtor.payload : Dtor → Option Obj
  | .empty => none
  | .release p => p

theorem owners_pushObject : owners (s.pushObject d) o = owners s o + refs d.payload o := by
  simp only [owners, State.pushObject, refs, tally_push, Object.Keeps, true_and]
  cases d with
  | empty => simp [Dtor.payload]
  | release p => by_cases hp : p = some o <;> simp [Dtor.payload, hp, add_assoc]

def Accounts (s : State) (n : Obj → ℕ) : Prop :=
  ∀ o, if (s.objects o).alive then (s.objects o).count = n o ∧ 0 < n o else n o = 0

theorem Accounts.alive (h : Accounts s n) (ho : 0 < n o) : (s.objects o).alive = true := by
  by_contra hd
  have := h o
  rw [if_neg hd] at this
  omega

theorem Accounts.count (h : Accounts s n) (ho : 0 < n o) : (s.objects o).count = n o := by
  have := h o
  rw [if_pos (h.alive ho)] at this
  exact this.1

theorem Accounts.congr (h : Accounts s n) (ho : t.objects = s.objects)
  (hm : ∀ o, m o = n o) : Accounts t m := by
  intro o
  rw [ho, hm]
  exact h o

theorem Accounts.setObject {y : Object} (h : Accounts s n)
  (ho : t.objects = update s.objects x y) (hm : ∀ o ≠ x, m o = n o)
  (hy : if y.alive then y.count = m x ∧ 0 < m x else m x = 0) : Accounts t m := by
  intro o
  rw [ho]
  rcases eq_or_ne o x with rfl | hne
  · rwa [update_self]
  · rw [update_of_ne hne, hm o hne]
    exact h o

theorem refs_of_ne (h : o ≠ x) : refs (some x) o = 0 :=
  if_neg fun he ↦ h (some.inj he).symm

theorem refs_self : refs (some x) x = 1 := if_pos rfl

theorem Accounts.added (h : Accounts s n) (hx : (s.objects x).alive = true) :
  Accounts (fetchAdd s x) fun o ↦ n o + refs (some x) o := by
  have hc := h x
  rw [if_pos hx] at hc
  refine h.setObject rfl (fun o hn ↦ by rw [refs_of_ne hn, add_zero]) ?_
  simp only [hx, if_true, refs_self]
  omega

theorem Accounts.claimed (h : Accounts s n) (hp : ∀ x, p = some x → (s.objects x).alive = true) :
  Accounts (claim s p) fun o ↦ n o + refs p o := by
  cases p with
  | none => exact h
  | some x => exact h.added (hp x rfl)

theorem Accounts.subtracted (h : Accounts s n) (hx : 1 < n x)
  (hm : ∀ o, m o + refs (some x) o = n o) : Accounts (fetchSub s x) m := by
  have ha := h.alive (Nat.lt_of_succ_lt hx)
  have hc := h.count (Nat.lt_of_succ_lt hx)
  have hmx := hm x
  rw [refs_self] at hmx
  refine h.setObject rfl (fun o hn ↦ by rw [← hm o, refs_of_ne hn, add_zero]) ?_
  simp only [ha, if_true]
  omega

theorem Accounts.killed (h : Accounts s n) (hx : n x = 1) (hm : ∀ o, m o + refs (some x) o = n o) :
  Accounts ((fetchSub s x).kill x) m := by
  have hmx := hm x
  rw [refs_self] at hmx
  refine h.setObject (update_idem ..) (fun o hn ↦ by rw [← hm o, refs_of_ne hn, add_zero]) ?_
  simp only [Bool.false_eq_true, if_false]
  omega

structure Disowned (s t : State) : Prop where
  slots : t.slots = s.slots
  used : t.used = s.used
  kept : t.kept = s.kept
  made : t.made = s.made
  same : ∀ o, owners t o = owners s o
  alive : ∀ o, (t.objects o).alive = true → (s.objects o).alive = true

theorem Accounts.disowned (h : Accounts s n) (hm : ∀ o, m o + refs p o = n o)
  (he : ∀ x, p = some x → (s.objects x).count = 1 → (s.objects x).dtor = .empty)
  (hs : disown s p = some t) : Accounts t m ∧ Disowned s t := by
  cases p with
  | none =>
    cases hs
    exact ⟨h.congr rfl fun o ↦ hm o, rfl, rfl, rfl, rfl, fun _ ↦ rfl, fun _ ↦ id⟩
  | some x =>
    have hx : m x + 1 = n x := by simpa [refs] using hm x
    have hc := h.count (o := x) (by omega)
    rw [disown] at hs
    split_ifs at hs with hon
    · have hd : ((fetchSub s x).objects x).dtor = .empty := by
        simpa [fetchSub, State.setCount] using he x rfl hon
      rw [delete, hd] at hs
      cases hs
      refine ⟨h.killed (by omega) hm, rfl, rfl, rfl, rfl, fun o ↦ ?_, fun o ho ↦ ?_⟩
      · rw [owners_kill hd, fetchSub, owners_setCount]
      · rcases eq_or_ne o x with rfl | hne
        · simp [State.kill] at ho
        · simpa [State.kill, fetchSub, State.setCount, update_of_ne hne] using ho
    · cases hs
      refine ⟨h.subtracted (by omega) hm, rfl, rfl, rfl, rfl, fun o ↦ ?_, fun o ho ↦ ?_⟩
      · exact owners_setCount _
      · rcases eq_or_ne o x with rfl | hne
        · simpa [fetchSub, State.setCount] using ho
        · simpa [fetchSub, State.setCount, update_of_ne hne] using ho

end

open List Option

open Function Foundation Runs

def Last (s : State) (i : Slot) (o : Obj) : Prop :=
  s.slots i = some (some o) ∧ (s.objects o).count = 1

/-- No last reference is dropped by `release(drop_count)` or a self-assignment, no pointer is moved
to itself, and no handle of an `intrusive_ptr` is destroyed. -/
def Careful (s : State) : Op → Prop
  | .copyAssign i j => ∀ o, Last s i o → i ≠ j ∧ (s.objects o).dtor = .empty
  | .moveAssign i j =>
    (∀ o, Last s i o → (s.objects o).dtor = .empty) ∧ (i = j → ∀ o, s.slots i ≠ some (some o))
  | .destroy i => ∀ o, Last s i o → (s.objects o).dtor = .empty
  | .releaseDrop i => ∀ o, ¬ Last s i o
  | _ => True

structure Bounded (s : State) : Prop where
  unmade : ∀ o, s.made ≤ o → (s.objects o).alive = false
  unused : ∀ i, s.used ≤ i → s.slots i = none

structure Inv (s : State) : Prop where
  exact : Exact s
  bounded : Bounded s

variable {s t : State} {op : Op} {p q : Option Obj} {o x : Obj} {i j : Slot} {d : Dtor}
  {n : Obj → ℕ}

theorem claim_alive : ((claim s p).objects o).alive = (s.objects o).alive := by
  cases p with
  | none => rfl
  | some x =>
    rcases eq_or_ne o x with rfl | hne
    · simp [claim, fetchAdd, State.setCount]
    · simp [claim, fetchAdd, State.setCount, update_of_ne hne]

theorem claim_owners : owners (claim s p) o = owners s o := by
  cases p with
  | none => rfl
  | some x => exact owners_setCount _

theorem Bounded.claim (h : Bounded s) : Bounded (claim s p) := by
  refine ⟨fun o ho ↦ ?_, ?_⟩
  · rw [claim_alive]
    cases p <;> exact h.unmade o ho
  · cases p <;> exact h.unused

theorem Bounded.setSlot (h : Bounded s) (hi : s.slots i = some p) (v : Option (Option Obj)) :
  Bounded (s.setSlot i v) := by
  refine ⟨h.unmade, fun k hk ↦ ?_⟩
  have hne : k ≠ i := by
    rintro rfl
    cases hi.symm.trans (h.unused k hk)
  exact (update_of_ne hne ..).trans (h.unused k hk)

theorem Bounded.pushSlot (h : Bounded s) : Bounded (s.pushSlot p) :=
  ⟨h.unmade, fun k hk ↦ (update_of_ne (ne_of_gt hk) ..).trans (h.unused k (Nat.le_of_succ_le hk))⟩

theorem Bounded.setKept (h : Bounded s) (l : List Obj) : Bounded (s.setKept l) :=
  ⟨h.unmade, h.unused⟩

theorem Bounded.pushObject (h : Bounded s) : Bounded (s.pushObject d) := by
  refine ⟨fun o ho ↦ ?_, h.unused⟩
  simp only [State.pushObject, update_of_ne (Nat.ne_of_gt ho)]
  exact h.unmade o (Nat.le_of_succ_le ho)

theorem Bounded.disowned (h : Bounded s) (hd : Disowned s t) : Bounded t := by
  refine ⟨fun o ho ↦ ?_, fun i hi ↦ ?_⟩
  · rw [hd.made] at ho
    have hde := h.unmade o ho
    exact Bool.eq_false_of_not_eq_true fun ha ↦ Bool.false_ne_true (hde ▸ hd.alive o ha)
  · rw [hd.used] at hi
    exact hd.slots ▸ h.unused i hi

theorem Inv.used (h : Inv s) (hp : s.slots i = some p) : i < s.used := by
  by_contra hi
  rw [h.bounded.unused i (Nat.le_of_not_lt hi)] at hp
  cases hp

theorem Inv.owned (h : Inv s) (hi : s.slots i = some (some o)) : 0 < owners s o := by
  have ht := tally_pos (P := (· = some (some o))) (f := s.slots) (h.used hi) hi
  unfold owners
  omega

theorem Inv.unowned (h : Inv s) (ho : s.made ≤ o) : owners s o = 0 := by
  have he := h.exact o
  rwa [h.bounded.unmade o ho, if_neg Bool.false_ne_true] at he

theorem inv_init : Inv {} := by
  refine ⟨fun o ↦ ?_, fun _ _ ↦ rfl, fun _ _ ↦ rfl⟩
  rw [if_neg Bool.false_ne_true]
  rfl

theorem Inv.congr (h : Inv s) (hb : Bounded t) (ho : t.objects = s.objects)
  (hw : ∀ o, owners t o = owners s o) : Inv t :=
  ⟨Accounts.congr h.exact ho hw, hb⟩

theorem Inv.of_claim (hb : Bounded s) (h : Accounts s n)
  (hp : ∀ x, p = some x → (s.objects x).alive = true)
  (hn : ∀ o, owners s o = n o + refs p o) : Inv (claim s p) :=
  ⟨(h.claimed hp).congr rfl fun o ↦ claim_owners.trans (hn o), hb.claim⟩

theorem Inv.pushClaimed (h : Inv s) (hp : ∀ x, p = some x → (s.objects x).alive = true) :
  Inv (claim (s.pushSlot p) p) :=
  .of_claim h.bounded.pushSlot (h.exact : Accounts (s.pushSlot p) (owners s)) hp
    fun _ ↦ owners_pushSlot

theorem Inv.makeIntrusive (hb : Bounded s) (h : Accounts s n) (hf : n s.made = 0)
  (hn : ∀ o, owners s o + refs d.payload o = n o) : Inv (makeIntrusive s d) := by
  refine ⟨fun o ↦ ?_, hb.pushObject.pushSlot.claim⟩
  have how : owners (Ownership.makeIntrusive s d) o = n o + refs (some s.made) o := by
    rw [Ownership.makeIntrusive, claim_owners, owners_pushSlot, owners_pushObject, hn]
  have ho := h o
  rw [how]
  rcases eq_or_ne o s.made with rfl | hne
  · simp [Ownership.makeIntrusive, claim, fetchAdd, State.setCount, State.pushSlot,
      State.pushObject, refs, hf]
  · simpa [Ownership.makeIntrusive, claim, fetchAdd, State.setCount, State.pushSlot,
      State.pushObject, refs, update_of_ne hne, hne.symm] using ho

theorem Inv.disown (h : Inv s) (hp : s.slots i = some p)
  (he : ∀ o, Last s i o → (s.objects o).dtor = .empty) (hs : disown s p = some t) :
  Accounts t (owners (s.setSlot i none)) ∧ Disowned s t := by
  refine Accounts.disowned h.exact (fun o ↦ owners_dropSlot (h.used hp) hp) ?_ hs
  rintro x rfl ho
  exact he x ⟨hp, ho⟩

theorem Disowned.setSlot (h : Inv s) (hd : Disowned s t) (hp : s.slots i = some p) :
  owners (t.setSlot i (some q)) o = owners (s.setSlot i none) o + refs q o := by
  have ht : t.slots i = some p := hd.slots ▸ hp
  have hi := h.used hp
  have hs := owners_setSlot (o := o) (q := q) (hd.used ▸ hi : i < t.used) ht
  have hdr := owners_dropSlot (o := o) hi hp
  have := hd.same o
  omega

theorem Inv.destroy (h : Inv s) (hp : s.slots i = some p)
  (he : ∀ o, Last s i o → (s.objects o).dtor = .empty)
  (hs : Ownership.disown s p = some t) : Inv (t.setSlot i none) := by
  obtain ⟨ha, hd⟩ := h.disown hp he hs
  have ht : t.slots i = some p := hd.slots ▸ hp
  refine ⟨Accounts.congr ha rfl fun o ↦ ?_, (h.bounded.disowned hd).setSlot ht none⟩
  have haf := owners_dropSlot (o := o) (hd.used ▸ h.used hp : i < t.used) ht
  have hb := owners_dropSlot (o := o) (h.used hp) hp
  have := hd.same o
  omega

theorem Inv.reset (h : Inv s) (hp : s.slots i = some p)
  (he : ∀ o, Last s i o → (s.objects o).dtor = .empty)
  (hs : Ownership.disown s p = some t) : Inv (t.setSlot i (some none)) := by
  obtain ⟨ha, hd⟩ := h.disown hp he hs
  have ht : t.slots i = some p := hd.slots ▸ hp
  refine ⟨Accounts.congr ha rfl fun o ↦ ?_, (h.bounded.disowned hd).setSlot ht _⟩
  rw [hd.setSlot h hp, refs_none, add_zero]

theorem Inv.still_owned (h : Inv s) (hj : s.slots j = some (some x))
  (hl : ∀ o, Last s i o → i ≠ j) : 0 < owners (s.setSlot i none) x := by
  rcases eq_or_ne i j with rfl | hne
  · have hd := owners_dropSlot (o := x) (h.used hj) hj
    have hc := Accounts.count h.exact (h.owned hj)
    have ho : (s.objects x).count ≠ 1 := fun ho ↦ hl x ⟨hj, ho⟩ rfl
    have := h.owned hj
    simp only [refs, if_true] at hd
    omega
  · have ht := tally_pos (P := (· = some (some x))) (f := (s.setSlot i none).slots)
      (h.used hj) ((update_of_ne hne.symm ..).trans hj)
    unfold owners
    exact lt_of_lt_of_le ht (by simp only [State.setSlot]; omega)

theorem Inv.copyAssign (h : Inv s) (hc : Careful s (.copyAssign i j)) (hp : s.slots i = some p)
  (hs : Ownership.disown s p = some t) (hq : t.slots j = some q) :
  Inv (claim (t.setSlot i (some q)) q) := by
  obtain ⟨ha, hd⟩ := h.disown hp (fun o ho ↦ (hc o ho).2) hs
  refine .of_claim ((h.bounded.disowned hd).setSlot (hd.slots ▸ hp) _)
    (ha : Accounts (t.setSlot i (some q)) _) ?_ fun o ↦ hd.setSlot h hp
  rintro x rfl
  exact ha.alive (h.still_owned (hd.slots ▸ hq) fun o ho ↦ (hc o ho).1)

theorem Inv.moveAssign (h : Inv s) (hc : Careful s (.moveAssign i j)) (hp : s.slots i = some p)
  (hs : Ownership.disown s p = some t) (hq : t.slots j = some q) :
  Inv ((t.setSlot j (some none)).setSlot i (some q)) := by
  obtain ⟨he, hse⟩ := hc
  rcases eq_or_ne i j with rfl | hne
  · have hn := hse rfl
    cases p with
    | some o => exact absurd hp (hn o)
    | none =>
      cases hs
      cases hp.symm.trans hq
      have hsa : (s.setSlot i (some none)).setSlot i (some none) = s := by
        simp only [State.setSlot, update_idem]
        rw [← hp, update_eq_self]
      rwa [hsa]
  · have hr := h.reset hp he hs
    have hj : (t.setSlot i (some none)).slots j = some q := (update_of_ne hne.symm ..).trans hq
    have hi : ((t.setSlot i (some none)).setSlot j (some none)).slots i = some none := by
      simp only [State.setSlot, update_of_ne hne, update_self]
    have hco : (t.setSlot j (some none)).setSlot i (some q) =
      ((t.setSlot i (some none)).setSlot j (some none)).setSlot i (some q) := by
      simp only [State.setSlot, update_comm hne, update_idem]
    rw [hco]
    refine hr.congr ((hr.bounded.setSlot hj _).setSlot hi _) rfl fun o ↦ ?_
    have hf := owners_setSlot (o := o) (q := none) (hr.used hj) hj
    have hto := owners_setSlot (s := (t.setSlot i (some none)).setSlot j (some none)) (o := o)
      (q := q) (hr.used (update_self ..)) hi
    simp only [refs_none] at hf hto
    omega

theorem count_toList : p.toList.count o = refs p o := by
  cases p with
  | none => rfl
  | some x => simp [refs, count_singleton]

theorem Inv.releaseKeep (h : Inv s) (hp : s.slots i = some p) :
  Inv ((s.setSlot i (some none)).setKept (p.toList ++ s.kept)) := by
  refine h.congr ((h.bounded.setSlot hp (some none)).setKept _) rfl fun o ↦ ?_
  have hs := owners_setSlot (o := o) (q := none) (h.used hp) hp
  have hk := owners_setKept (s := s.setSlot i (some none)) (o := o) (p.toList ++ s.kept)
  rw [count_append, count_toList] at hk
  simp only [refs_none, State.setSlot] at hs hk ⊢
  omega

theorem Inv.adopt (h : Inv s) (ho : o ∈ s.kept) :
  Inv ((s.setKept (s.kept.erase o)).pushSlot (some o)) := by
  refine h.congr (h.bounded.setKept (s.kept.erase o)).pushSlot rfl fun x ↦ ?_
  have hk := owners_setKept (s := s) (o := x) (s.kept.erase o)
  have hp := count_pos_iff.mpr ho
  rw [owners_pushSlot]
  rw [count_erase] at hk
  rcases eq_or_ne x o with rfl | hne
  · simp only [refs, if_true, beq_self_eq_true] at hk ⊢
    omega
  · simp only [refs, some.injEq, hne.symm, if_false, beq_iff_eq] at hk ⊢
    omega

theorem Inv.move (h : Inv s) (hp : s.slots i = some p) :
  Inv ((s.setSlot i (some none)).pushSlot p) := by
  refine h.congr (h.bounded.setSlot hp (some none)).pushSlot rfl fun o ↦ ?_
  have hs := owners_setSlot (o := o) (q := none) (h.used hp) hp
  rw [refs_none] at hs
  rw [owners_pushSlot]
  omega

theorem Inv.make (h : Inv s) : Inv (Ownership.makeIntrusive s .empty) :=
  .makeIntrusive h.bounded h.exact (h.unowned (le_refl _)) fun _ ↦ rfl

theorem Inv.createHandle (h : Inv s) (hp : s.slots i = some p) :
  Inv (Ownership.makeIntrusive (s.setSlot i (some none)) (.release p)) := by
  refine .makeIntrusive (h.bounded.setSlot hp _)
    (h.exact : Accounts (s.setSlot i (some none)) (owners s)) (h.unowned (le_refl _)) fun o ↦ ?_
  have hs := owners_setSlot (o := o) (q := none) (h.used hp) hp
  rwa [refs_none] at hs

theorem Inv.releaseDrop (h : Inv s) (hc : ∀ o, ¬ Last s i o) (hp : s.slots i = some p)
  (hs : dropCount s p = some t) : Inv (t.setSlot i (some none)) := by
  cases p with
  | none => cases hs
  | some x =>
    -- the count is not 1, so `_disown` would have done the same
    have hd : Ownership.disown s (some x) = dropCount s (some x) := if_neg fun hn ↦ hc x ⟨hp, hn⟩
    exact h.reset hp (fun o ho ↦ absurd ho (hc o)) (hd.trans hs)

theorem Inv.step (h : Inv s) (hc : Careful s op) (hs : step s op = some t) : Inv t := by
  cases op with
  | null =>
    cases hs
    exact h.pushClaimed (p := none) fun x hx ↦ by cases hx
  | make =>
    cases hs
    exact h.make
  | ofRaw o =>
    obtain ⟨ha, he⟩ := ite_none_right_eq_some.mp hs
    cases he
    refine h.pushClaimed fun x hx ↦ ?_
    cases hx
    exact ha
  | copy i =>
    obtain ⟨p, hp, he⟩ := bind_eq_some_iff.mp hs
    cases he
    refine h.pushClaimed fun x hx ↦ ?_
    cases hx
    exact Accounts.alive h.exact (h.owned hp)
  | move i =>
    obtain ⟨p, hp, he⟩ := bind_eq_some_iff.mp hs
    cases he
    exact h.move hp
  | copyAssign i j =>
    obtain ⟨p, hp, hr⟩ := bind_eq_some_iff.mp hs
    obtain ⟨u, hd, hr⟩ := bind_eq_some_iff.mp hr
    obtain ⟨q, hq, he⟩ := bind_eq_some_iff.mp hr
    cases he
    exact h.copyAssign hc hp hd hq
  | moveAssign i j =>
    obtain ⟨p, hp, hr⟩ := bind_eq_some_iff.mp hs
    obtain ⟨u, hd, hr⟩ := bind_eq_some_iff.mp hr
    obtain ⟨q, hq, he⟩ := bind_eq_some_iff.mp hr
    cases he
    exact h.moveAssign hc hp hd hq
  | destroy i =>
    obtain ⟨p, hp, hr⟩ := bind_eq_some_iff.mp hs
    obtain ⟨u, hd, he⟩ := bind_eq_some_iff.mp hr
    cases he
    exact h.destroy hp hc hd
  | releaseKeep i =>
    obtain ⟨p, hp, he⟩ := bind_eq_some_iff.mp hs
    cases he
    exact h.releaseKeep hp
  | adopt o =>
    obtain ⟨ho, he⟩ := ite_none_right_eq_some.mp hs
    cases he
    exact h.adopt ho
  | releaseDrop i =>
    obtain ⟨p, hp, hr⟩ := bind_eq_some_iff.mp hs
    obtain ⟨u, hdr, he⟩ := bind_eq_some_iff.mp hr
    cases he
    exact h.releaseDrop hc hp hdr
  | createHandleRaw o =>
    obtain ⟨_, he⟩ := ite_none_right_eq_some.mp hs
    cases he
    exact h.make
  | createHandle i =>
    obtain ⟨p, hp, he⟩ := bind_eq_some_iff.mp hs
    cases he
    exact h.createHandle hp

theorem exact_of_careful (h : Reachable step Careful {} s) : Exact s :=
  (Reachable.invariant (I := Inv) h inv_init fun _ _ _ hi hc hs ↦ hi.step hc hs).exact

theorem exact_after_use : ∃ s, Reachable step Careful {} s ∧ Exact s ∧
  (s.objects 0).alive = false ∧ (s.objects 1).alive = true ∧ (s.objects 1).count = 1 := by
  have hru : (exec step {} ([.make, .move 0, .releaseKeep 1, .adopt 0, .make, .createHandle 3] ++
    .destroy 2 :: [])).any (fun s ↦ !(s.objects 0).alive && (s.objects 1).alive &&
        decide ((s.objects 1).count = 1)) = true := by
    decide
  obtain ⟨s, he, hs⟩ := (any_eq_true _ _).mp hru
  have hl : ∀ u, exec step {} [.make, .move 0, .releaseKeep 1, .adopt 0, .make,
    .createHandle 3] = some u → Careful u (.destroy 2) := by
    intro u hu o ho
    have hsl : (exec step {} [.make, .move 0, .releaseKeep 1, .adopt 0, .make,
      .createHandle 3]).all (fun u ↦ decide (u.slots 2 = some (some 0)) &&
          decide ((u.objects 0).dtor = .empty)) = true := by
      decide
    rw [hu, all_some, Bool.and_eq_true, decide_eq_true_eq, decide_eq_true_eq] at hsl
    cases hsl.1.symm.trans ho.1
    exact hsl.2
  have hr : Reachable step Careful {} s :=
    Reachable.of_exec_split (by simp [Careful]) hl (by simp) he
  rw [Bool.and_eq_true, Bool.and_eq_true, Bool.not_eq_true', decide_eq_true_eq] at hs
  exact ⟨s, hr, exact_of_careful hr, hs.1.1, hs.1.2, hs.2⟩

theorem inexact_of_any {os : List Op} (h : (exec step {} os).any (fun s ↦
  !decide (if (s.objects 0).alive then (s.objects 0).count = owners s 0 ∧ 0 < owners s 0
  else owners s 0 = 0)) = true) : ∃ s, exec step {} os = some s ∧ ¬ Exact s := by
  obtain ⟨s, hs, hn⟩ := (any_eq_true _ _).mp h
  refine ⟨s, hs, fun he ↦ ?_⟩
  rw [decide_eq_true (he 0)] at hn
  cases hn

theorem not_exact : (∃ s, exec step {} [.make, .createHandle 0, .destroy 1] = some s ∧ ¬ Exact s) ∧
    (∃ s, exec step {} [.make, .releaseDrop 0] = some s ∧ ¬ Exact s) ∧
    (∃ s, exec step {} [.make, .copyAssign 0 0] = some s ∧ ¬ Exact s) ∧
    ∃ s, exec step {} [.make, .moveAssign 0 0] = some s ∧ ¬ Exact s := by
  refine ⟨inexact_of_any ?_, inexact_of_any ?_, inexact_of_any ?_, inexact_of_any ?_⟩ <;>
    decide

end ReaverOS.Kernel.Ownership
