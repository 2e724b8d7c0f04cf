import Mathlib.Data.List.Induction
import ReaverOS.Thorn.Code

namespace ReaverOS.Thorn

open List Option

section

section Checks

variable {k : Kernel} {f g : Frame} {r : Result}

def Kernel.tokenRefusal (k : Kernel) (token : Word) (type : String) (perms : List String) :
  Option Result :=
  match k.getHandle token with
  | none => some .invalidToken
  | some handle =>
    if !handle.isA type then some .wrongHandleType
    else if perms.all fun perm ↦ handle.hasPermissions (k.permission perm) then none
    else some .notAllowed

theorem Kernel.tokenRefusal_eq_none_iff {t : Word} {ty : String} {pe : List String} :
  k.tokenRefusal t ty pe = none ↔ ∃ handle, k.getHandle t = some handle ∧ handle.isA ty = true ∧
  ∀ per ∈ pe, handle.hasPermissions (k.permission per) = true := by
  rw [tokenRefusal]
  cases k.getHandle t with
  | none => simp
  | some handle => cases ht : handle.isA ty <;> simp [ht]

section Handle

variable {x : Variable} {handle : TypedHandle}

theorem passes_permissions (hx : f.handle? x = some (some handle)) {pe : List String}
  (hp : ∀ per ∈ pe, handle.hasPermissions (k.permission per) = true) :
  Passes k (pe.map fun per ↦ .ensure (.hasPermissions x per) .notAllowed) f f := by
  induction pe with
  | nil => exact .nil k f
  | cons per pe ih =>
    obtain ⟨hpe, hp⟩ := forall_mem_cons.mp hp
    refine .cons (exec_ensure_of_true ?_ _) (.refl f) (ih hp)
    rw [Check.holds, hx, ← hpe]
    rfl

theorem refuses_permissions (hx : f.handle? x = some (some handle)) {pe : List String}
  (hpe : ¬ ∀ pr ∈ pe, handle.hasPermissions (k.permission pr) = true) :
  Refuses k (pe.map fun pr ↦ .ensure (.hasPermissions x pr) .notAllowed) f .notAllowed := by
  induction pe with
  | nil => exact absurd (forall_mem_nil _) hpe
  | cons pr pe ih =>
    by_cases hp : handle.hasPermissions (k.permission pr) = true
    · refine .cons (exec_ensure_of_true ?_ _) (.refl f) (ih fun ha ↦ ?_)
      · rw [Check.holds, hx, ← hp]
        rfl
      · exact hpe (forall_mem_cons.mpr ⟨hp, ha⟩)
    · refine refuses_ensure ?_ _
      rw [Check.holds, hx, ← Bool.eq_false_iff.mpr hp]
      rfl

def tokenChecks (x : Variable) (type : String) (perms : List String) : List Statement :=
  .ensure (.valid x) .invalidToken :: .ensure (.isA x type) .wrongHandleType ::
    perms.map fun perm ↦ .ensure (.hasPermissions x perm) .notAllowed

variable {token : Word} {type : String} {perms : List String}

theorem refuses_tokenChecks (hx : f.handle? x = some (k.getHandle token))
  (hr : k.tokenRefusal token type perms = some r) : Refuses k (tokenChecks x type perms) f r := by
  rw [Kernel.tokenRefusal] at hr
  cases hh : k.getHandle token with
  | none =>
    rw [hh] at hx hr
    cases hr
    refine refuses_ensure ?_ _
    rw [Check.holds, hx]
    rfl
  | some handle =>
    rw [hh] at hx hr
    refine .cons (exec_ensure_of_true ?_ _) (.refl f) ?_
    · rw [Check.holds, hx]
      rfl
    cases ht : handle.isA type with
    | false =>
      simp only [ht, Bool.not_false, if_true, some.injEq] at hr
      subst hr
      refine refuses_ensure ?_ _
      rw [Check.holds, hx, ← ht]
      rfl
    | true =>
      refine .cons (exec_ensure_of_true ?_ _) (.refl f) ?_
      · rw [Check.holds, hx, ← ht]
        rfl
      by_cases hp : ∀ pe ∈ perms, handle.hasPermissions (k.permission pe) = true
      · simp [ht, all_eq_true.mpr hp] at hr
      · have ha : (perms.all fun pe ↦ handle.hasPermissions (k.permission pe)) = false :=
          Bool.eq_false_iff.mpr fun ha ↦ hp (all_eq_true.mp ha)
        simp only [ht, ha, Bool.not_true, Bool.false_eq_true, if_false, some.injEq] at hr
        subst hr
        exact refuses_permissions hx hp

theorem passes_tokenChecks (hx : f.handle? x = some (some handle)) (ht : handle.isA type = true)
  (hp : ∀ pe ∈ perms, handle.hasPermissions (k.permission pe) = true) :
  Passes k (tokenChecks x type perms) f f := by
  refine .cons (exec_ensure_of_true ?_ _) (.refl f) (.cons (exec_ensure_of_true ?_ _) (.refl f)
    (passes_permissions hx hp))
  · rw [Check.holds, hx]
    rfl
  · rw [Check.holds, hx, ← ht]
    rfl

end Handle

section Parts

variable {blocking : Bool} {register name : String} {spec : HandleToken} {p : Pointer}

def Frame.afterToken (f : Frame) (k : Kernel) (register name : String) : Frame :=
  (f.set ⟨.stack, name, .token⟩ (.word (k.registers register))).set ⟨.stack, name, .handle⟩
    (.handle (k.getHandle (k.registers register)))

theorem handle?_afterToken (f : Frame) (k : Kernel) (rg n : String) :
  (f.afterToken k rg n).handle? ⟨.stack, n, .handle⟩ = some (k.getHandle (k.registers rg)) :=
  Frame.handle?_set ..

theorem passes_afterToken (f : Frame) (k : Kernel) (rg n : String) :
  Passes k [.read ⟨.stack, n, .token⟩ rg, .getHandle ⟨.stack, n, .handle⟩ ⟨.stack, n, .token⟩] f
  (f.afterToken k rg n) := by
  refine .cons rfl (Frame.grows_set (by simp)) (.cons ?_ (Frame.grows_set (by simp)) (.nil _ _))
  rw [Statement.exec, Frame.word?_set]
  rfl

theorem handlerPart_token : handlerPart blocking register name (.token spec) =
  [.read ⟨.stack, name, .token⟩ register,
  .getHandle ⟨.stack, name, .handle⟩ ⟨.stack, name, .token⟩] ++
  (tokenChecks ⟨.stack, name, .handle⟩ spec.derefType spec.requiredPermissions ++
  if blocking then
  [.getAs ⟨.state, name, .holder⟩ ⟨.stack, name, .handle⟩ spec.derefType,
  .getHolder ⟨.state, name, .none⟩ ⟨.state, name, .holder⟩]
  else [.getAs ⟨.stack, name, .none⟩ ⟨.stack, name, .handle⟩ spec.derefType]) :=
  rfl

theorem refuses_token (hr : k.tokenRefusal (k.registers register) spec.derefType
  spec.requiredPermissions = some r) :
  Refuses k (handlerPart blocking register name (.token spec)) f r := by
  rw [handlerPart_token]
  apply (passes_afterToken f k register name).append_refuses
  apply Refuses.append
  exact refuses_tokenChecks (handle?_afterToken f k register name) hr

variable {x : Variable}

theorem passes_getAs {hd : TypedHandle} (hx : f.handle? x = some (some hd))
  (pl : Place) (n : String) (s : Suffix) (hs : s ≠ .addr) (ty : String) :
  Passes k [.getAs ⟨pl, n, s⟩ x ty] f (f.set ⟨pl, n, s⟩ (.object hd.payload)) := by
  refine .cons ?_ (Frame.grows_set fun h ↦ absurd h hs) (.nil k _)
  rw [Statement.exec, hx]
  rfl

theorem passes_getHolder {v : Value} (hx : f.vars x = some v) (pl : Place)
  (n : String) : Passes k [.getHolder ⟨pl, n, .none⟩ x] f (f.set ⟨pl, n, .none⟩ v) := by
  refine .cons ?_ (Frame.grows_set (by simp)) (.nil k _)
  rw [Statement.exec, hx]
  rfl

theorem passes_token (hr : k.tokenRefusal (k.registers register) spec.derefType
  spec.requiredPermissions = none) :
  ∃ g, Passes k (handlerPart blocking register name (.token spec)) f g ∧
  (g.vars ⟨kept blocking, name, .none⟩).isSome := by
  obtain ⟨handle, hh, ht, hp⟩ := Kernel.tokenRefusal_eq_none_iff.mp hr
  have hx := handle?_afterToken f k register name
  rw [hh] at hx
  have hc := (passes_afterToken f k register name).append (passes_tokenChecks hx ht hp)
  rw [handlerPart_token, ← append_assoc]
  cases blocking with
  | false =>
    refine ⟨_, hc.append (passes_getAs hx .stack name .none (by decide) _), ?_⟩
    rw [kept, if_neg Bool.false_ne_true, Frame.vars_set]
    rfl
  | true =>
    have hho := (passes_getAs (k := k) hx .state name .holder (by decide) spec.derefType).append
      (passes_getHolder (Frame.vars_set ..) .state name)
    refine ⟨_, hc.append hho, ?_⟩
    rw [kept, if_pos rfl, Frame.vars_set]
    rfl

theorem passes_value (k : Kernel) (f : Frame) (b : Bool) (rg n ty : String) :
  ∃ g, Passes k (handlerPart b rg n (.value ty)) f g ∧ (g.vars ⟨kept b, n, .none⟩).isSome := by
  refine ⟨_, .cons rfl (Frame.grows_set fun _ ↦ rfl) (.nil k _), ?_⟩
  rw [Frame.vars_set]
  rfl

theorem passes_address (k : Kernel) (f : Frame) (b : Bool) (rg n : String) (p : Pointer) :
  ∃ g, Passes k (handlerPart b rg n (.pointer p)) f g ∧
  g.word? ⟨kept b, n, .addr⟩ = some (k.registers rg) := by
  refine ⟨_, .cons rfl (Frame.grows_set fun _ ↦ rfl) (.nil k _), ?_⟩
  rw [Frame.word?_set]
  rfl

variable {w : Word}

variable {ad : Variable}

theorem exec_lockArrayMapping (ha : f.word? ad = some w) (ty : String)
  (rw : Bool) : (Statement.lockArrayMapping x ad ty rw).exec k f =
  some (.next (f.set x (.guard (k.lockArrayMapping w ty rw)))) := by
  rw [Statement.exec, ha]
  rfl

theorem holds_locked {locked : Bool} :
  (Check.locked x).holds k (f.set x (.guard locked)) = some locked := by
  rw [Check.holds, Frame.guard?, Frame.vars_set]
  rfl

theorem refuses_pointer (ha : f.word? ⟨kept blocking, name, .addr⟩ = some w)
  (hl : k.lockArrayMapping w p.derefType p.isOut = false) :
  Refuses k (actionPart blocking name (.pointer p)) f .invalidPointers := by
  refine .cons (exec_lockArrayMapping ha _ _) (Frame.grows_set (by simp)) (refuses_ensure ?_ _)
  rw [holds_locked, hl]

theorem passes_copyIn (n : String) (ha : (f.word? ad).isSome) :
  ∃ g, Passes k [.copyIn ⟨.stack, n, .storage⟩ ad] f g := by
  obtain ⟨w, hw⟩ := isSome_iff_exists.mp ha
  refine ⟨f.set ⟨.stack, n, .storage⟩ (.storage (some w)), .cons ?_ ?_ (.nil k _)⟩
  · rw [Statement.exec, hw]
    rfl
  · exact Frame.grows_set (by simp)

theorem passes_guard (ha : f.word? ad = some w) {ty : String} {rw : Bool}
  (hl : k.lockArrayMapping w ty rw = true) (n : String) :
  Passes k [.lockArrayMapping ⟨.stack, n, .guard⟩ ad ty rw,
  .ensure (.locked ⟨.stack, n, .guard⟩) .invalidPointers] f
  (f.set ⟨.stack, n, .guard⟩ (.guard true)) := by
  rw [← hl]
  refine .cons (exec_lockArrayMapping ha ty rw) (Frame.grows_set (by simp)) ?_
  refine .cons (exec_ensure_of_true ?_ _) (.refl _) (.nil k _)
  rw [holds_locked, hl]

theorem passes_storage (k : Kernel) (f : Frame) (n ty : String) :
  Passes k [.declare ⟨.stack, n, .storage⟩ ty,
  .addressOf ⟨.stack, n, .none⟩ ⟨.stack, n, .storage⟩] f
  ((f.set ⟨.stack, n, .storage⟩ (.storage none)).set ⟨.stack, n, .none⟩
  (.pointer ⟨.stack, n, .storage⟩)) :=
  .cons rfl (Frame.grows_set (by simp)) (.cons rfl (Frame.grows_set (by simp)) (.nil k _))

theorem passes_pointer (ha : f.word? ⟨kept blocking, name, .addr⟩ = some w)
  (hl : k.lockArrayMapping w p.derefType p.isOut = true) :
  ∃ g, Passes k (actionPart blocking name (.pointer p)) f g ∧
  (g.vars ⟨.stack, name, .none⟩).isSome := by
  have hd := (passes_guard ha hl name).append (passes_storage k _ name p.derefType)
  obtain ⟨isi, iso, d⟩ := p
  cases isi with
  | false =>
    refine ⟨_, hd, ?_⟩
    rw [Frame.vars_set]
    rfl
  | true =>
    have hw := hd.2.addr ⟨kept blocking, name, .addr⟩ rfl (by rw [ha]; rfl)
    obtain ⟨g, hg⟩ := passes_copyIn name hw
    refine ⟨g, hd.append hg, hg.2.vars _ ?_⟩
    rw [Frame.vars_set]
    rfl

end Parts

end Checks

section Handlers

variable {k : Kernel} {f g : Frame} {r : Result} {blocking : Bool} {arch name : String}
  {registers : List String}

abbrev Entry := (String × ParameterDescription) × String

def mainPart (blocking : Bool) (e : Entry) : List Statement :=
  handlerPart blocking e.2 e.1.1 e.1.2 ++ if blocking then [] else actionPart blocking e.1.1 e.1.2

def laterPart (blocking : Bool) (e : Entry) : List Statement :=
  if blocking then actionPart blocking e.1.1 e.1.2 else []

theorem write_act (s : Streams) (e : Entry) :
  (s.write (handlerPart blocking e.2 e.1.1 e.1.2)).act blocking
      (actionPart blocking e.1.1 e.1.2) =
    { handler := s.handler ++ mainPart blocking e
      continuation := s.continuation ++ laterPart blocking e } := by
  cases blocking <;> simp [Streams.act, Streams.write, mainPart, laterPart]

theorem parameters_eq (hr : archRegistersForArgs.lookup arch = some registers)
  {ps : List (String × ParameterDescription)} {i : ℕ}
  (hc : i + ps.length ≤ registers.length) (s : Streams) : s.parameters arch blocking i ps = some
    { handler := s.handler ++ (ps.zip (registers.drop i)).flatMap (mainPart blocking)
      continuation :=
        s.continuation ++ (ps.zip (registers.drop i)).flatMap (laterPart blocking) } := by
  induction ps generalizing i s with
  | nil => simp [Streams.parameters]
  | cons pa ps ih =>
    obtain ⟨name, pa⟩ := pa
    rw [length_cons] at hc
    have hi : i < registers.length := by omega
    have hre : getArchRegisterForArg arch i = some registers[i] := by
      rw [getArchRegisterForArg, hr, bind_some, getElem?_eq_getElem hi]
    rw [Streams.parameters, hre, bind_some, write_act s ((name, pa), registers[i]),
      ih (by omega), drop_eq_getElem_cons hi]
    simp only [zip_cons_cons, flatMap_cons, append_assoc]

def tailPart (name : String) (syscall : SyscallDescription) : List Statement :=
  .call (syscall.implementationScope ++ "::syscall_" ++ name ++ "_handler")
      (syscall.parameters.map (passed syscall.blocking)) ::
    ((if syscall.blocking then [.returnUnlessResult] else []) ++
      .returnUnlessOk :: syscall.parameters.flatMap (copiedOut syscall.blocking))

variable {syscall : SyscallDescription}

theorem generateHandler_eq (hr : archRegistersForArgs.lookup arch = some registers)
  (hc : syscall.parameters.length ≤ registers.length) : generateHandler arch name syscall = some
    (if syscall.blocking then
      { handler := (syscall.parameters.zip registers).flatMap (mainPart true) ++
          [.enterContinuation]
        continuation := (syscall.parameters.zip registers).flatMap (laterPart true) ++
          tailPart name syscall }
    else
      { handler := (syscall.parameters.zip registers).flatMap (mainPart false) ++
          tailPart name syscall
        continuation := [] }) := by
  have hp : Streams.parameters arch syscall.blocking 0 syscall.parameters {} = _ :=
    parameters_eq hr (by omega) {}
  rw [generateHandler, hp]
  cases hb : syscall.blocking <;>
    simp [Streams.act, Streams.write, tailPart, laterPart, hb]

def refusal (k : Kernel) (e : Entry) : Option Result :=
  match e.1.2 with
  | .value _ => none
  | .token spec => k.tokenRefusal (k.registers e.2) spec.derefType spec.requiredPermissions
  | .pointer spec =>
    if k.lockArrayMapping (k.registers e.2) spec.derefType spec.isOut then none
    else some .invalidPointers

def mainRefusal (blocking : Bool) (k : Kernel) (e : Entry) : Option Result :=
  match e.1.2 with
  | .pointer _ => if blocking then none else refusal k e
  | _ => refusal k e

variable {e : Entry} {es : List Entry}

theorem refuses_mainPart (h : mainRefusal blocking k e = some r) :
  Refuses k (mainPart blocking e) f r := by
  obtain ⟨⟨name, _ | spec | spec⟩, register⟩ := e
  · cases h
  · exact (refuses_token h).append _
  · cases blocking with
    | true => cases h
    | false =>
      obtain ⟨g, hg, ha⟩ := passes_address k f false register name spec
      simp only [mainRefusal, refusal, Bool.false_eq_true, if_false] at h
      split at h
      next hl => cases h
      next hl =>
        cases h
        exact hg.append_refuses (refuses_pointer ha (Bool.eq_false_iff.mpr hl))

def Read (blocking : Bool) (e : Entry) (f : Frame) : Prop :=
  match e.1.2 with
  | .pointer _ => (f.word? ⟨kept blocking, e.1.1, .addr⟩).isSome ∧
    (blocking = false → (f.vars ⟨.stack, e.1.1, .none⟩).isSome)
  | _ => (f.vars ⟨kept blocking, e.1.1, .none⟩).isSome

theorem Read.grows (h : Read blocking e f) (hg : f.Grows g) : Read blocking e g := by
  obtain ⟨⟨name, _ | spec | spec⟩, register⟩ := e
  · exact hg.vars _ h
  · exact hg.vars _ h
  · exact ⟨hg.addr _ rfl h.1, fun hb ↦ hg.vars _ (h.2 hb)⟩

theorem passes_mainPart (h : mainRefusal blocking k e = none) :
  ∃ g, Passes k (mainPart blocking e) f g ∧ Read blocking e g := by
  obtain ⟨⟨name, type | spec | spec⟩, register⟩ := e
  · obtain ⟨g, hg, hr⟩ := passes_value k f blocking register name type
    refine ⟨g, ?_, hr⟩
    cases blocking <;> exact hg.append (.nil k g)
  · obtain ⟨g, hg, hr⟩ := passes_token (f := f) h
    refine ⟨g, ?_, hr⟩
    cases blocking <;> exact hg.append (.nil k g)
  · obtain ⟨g, hg, ha⟩ := passes_address k f blocking register name spec
    have hw : (g.word? ⟨kept blocking, name, .addr⟩).isSome := by
      rw [ha]
      rfl
    cases blocking with
    | true => exact ⟨g, hg.append (.nil k g), hw, fun hb ↦ by cases hb⟩
    | false =>
      have hl : k.lockArrayMapping (k.registers register) spec.derefType spec.isOut = true := by
        by_contra hl
        simp [mainRefusal, refusal, hl] at h
      obtain ⟨g', hg', hv⟩ := passes_pointer ha hl
      exact ⟨g', hg.append hg', hg'.2.addr _ rfl hw, fun _ ↦ hv⟩

theorem refuses_mainParts (h : es.findSome? (mainRefusal blocking k) = some r) :
  Refuses k (es.flatMap (mainPart blocking)) f r := by
  induction es generalizing f with
  | nil => cases h
  | cons e es ih =>
    rw [flatMap_cons]
    cases hf : mainRefusal blocking k e with
    | some r' =>
      rw [findSome?_cons_of_isSome (by rw [hf]; rfl), hf] at h
      cases h
      exact (refuses_mainPart hf).append _
    | none =>
      rw [findSome?_cons_of_isNone (by rw [hf]; rfl)] at h
      obtain ⟨g, hg, hr⟩ := passes_mainPart hf
      exact hg.append_refuses (ih h)

theorem passes_mainParts (h : ∀ e ∈ es, mainRefusal blocking k e = none) :
  ∃ g, Passes k (es.flatMap (mainPart blocking)) f g ∧ ∀ e ∈ es, Read blocking e g := by
  induction es generalizing f with
  | nil => exact ⟨f, .nil k f, forall_mem_nil _⟩
  | cons e es ih =>
    obtain ⟨hf, hre⟩ := forall_mem_cons.mp h
    obtain ⟨g, hg, hrd⟩ := passes_mainPart hf
    obtain ⟨g', hg', hr⟩ := ih hre
    exact ⟨g', hg.append hg', forall_mem_cons.mpr ⟨hrd.grows hg'.2, hr⟩⟩

structure Kernel.Yields (k : Kernel) : Prop where
  lock : ∀ w type rw, k.lockArrayMapping w type rw = true
  finish : ∀ function values, k.implementation function values = some .ok

def Ready (blocking : Bool) (param : String × ParameterDescription) (f : Frame) : Prop :=
  (f.vars (passed blocking param)).isSome ∧ ∀ spec, param.2 = .pointer spec →
    (f.word? ⟨kept blocking, param.1, .addr⟩).isSome

theorem Ready.grows {pa : String × ParameterDescription} (h : Ready blocking pa f)
  (hg : f.Grows g) : Ready blocking pa g :=
  ⟨hg.vars _ h.1, fun spec hs ↦ hg.addr _ rfl (h.2 spec hs)⟩

theorem Read.ready (h : Read false e f) : Ready false e.1 f := by
  obtain ⟨⟨name, _ | spec | spec⟩, register⟩ := e
  · exact ⟨h, fun _ hs ↦ by cases hs⟩
  · exact ⟨h, fun _ hs ↦ by cases hs⟩
  · exact ⟨h.2 rfl, fun _ _ ↦ h.1⟩

theorem Read.enter (h : Read true e f) : Read true e f.enter := by
  obtain ⟨⟨name, _ | spec | spec⟩, register⟩ := e
  · exact h
  · exact h
  · exact ⟨h.1, fun hb ↦ by cases hb⟩

theorem passes_laterPart (hk : k.Yields) (h : Read true e f) :
  ∃ g, Passes k (laterPart true e) f g ∧ Ready true e.1 g := by
  obtain ⟨⟨name, _ | spec | spec⟩, register⟩ := e
  · exact ⟨f, .nil k f, h, fun _ hs ↦ by cases hs⟩
  · exact ⟨f, .nil k f, h, fun _ hs ↦ by cases hs⟩
  · obtain ⟨w, hw⟩ := isSome_iff_exists.mp h.1
    obtain ⟨g, hg, hv⟩ := passes_pointer hw (hk.lock w spec.derefType spec.isOut)
    exact ⟨g, hg, hv, fun _ _ ↦ hg.2.addr _ rfl h.1⟩

theorem passes_laterParts (hk : k.Yields) (h : ∀ e ∈ es, Read true e f) :
  ∃ g, Passes k (es.flatMap (laterPart true)) f g ∧ ∀ e ∈ es, Ready true e.1 g := by
  induction es generalizing f with
  | nil => exact ⟨f, .nil k f, forall_mem_nil _⟩
  | cons e es ih =>
    obtain ⟨hf, hre⟩ := forall_mem_cons.mp h
    obtain ⟨g, hg, hrea⟩ := passes_laterPart hk hf
    obtain ⟨g', hg', hr⟩ := ih fun e he ↦ (hre e he).grows hg.2
    exact ⟨g', hg.append hg', forall_mem_cons.mpr ⟨hrea.grows hg'.2, hr⟩⟩

variable {ps : List (String × ParameterDescription)}

theorem passes_copiedOut (h : ∀ pa ∈ ps, Ready blocking pa f) :
  ∃ g, Passes k (ps.flatMap (copiedOut blocking)) f g := by
  induction ps generalizing f with
  | nil => exact ⟨f, .nil k f⟩
  | cons pa ps ih =>
    obtain ⟨hf, hr⟩ := forall_mem_cons.mp h
    suffices hp : ∃ g, Passes k (copiedOut blocking pa) f g by
      obtain ⟨g, hg⟩ := hp
      obtain ⟨g', hg'⟩ := ih fun pa hp ↦ (hr pa hp).grows hg.2
      exact ⟨g', hg.append hg'⟩
    obtain ⟨name, _ | spec | ⟨isIn, _ | _, type⟩⟩ := pa
    · exact ⟨f, .nil k f⟩
    · exact ⟨f, .nil k f⟩
    · exact ⟨f, .nil k f⟩
    · obtain ⟨w, hw⟩ := isSome_iff_exists.mp (hf.2 _ rfl)
      have hgr : f.Grows { f with copied := f.copied ++ [w] } := ⟨rfl, fun _ ↦ id, fun _ _ ↦ id⟩
      refine ⟨_, .cons ?_ hgr (.nil k _)⟩
      rw [Statement.exec, hw]
      rfl

theorem exists_values (h : ∀ pa ∈ ps, Ready blocking pa f) :
  ∃ values, (ps.map (passed blocking)).mapM f.vars = some values := by
  induction ps with
  | nil => exact ⟨[], rfl⟩
  | cons pa ps ih =>
    obtain ⟨hf, hr⟩ := forall_mem_cons.mp h
    obtain ⟨v, hva⟩ := isSome_iff_exists.mp hf.1
    obtain ⟨values, hv⟩ := ih hr
    exact ⟨v :: values, by simp [hva, hv]⟩

theorem exec_tailPart (hk : k.Yields) (n : String)
  (h : ∀ pa ∈ syscall.parameters, Ready syscall.blocking pa f) :
  ∃ g, exec k (tailPart n syscall) f = some (.next g) ∧ g.calls ≠ [] := by
  obtain ⟨vs, hv⟩ := exists_values h
  let function := syscall.implementationScope ++ "::syscall_" ++ n ++ "_handler"
  let called : Frame := { f with calls := f.calls ++ [(function, vs)], result := some .ok }
  obtain ⟨g, hg⟩ := passes_copiedOut (k := k) (f := { called with returnRegister := some .ok }) h
  refine ⟨g, ?_, ?_⟩
  · rw [tailPart, exec_cons_of_next (g := called)]
    · cases hb : syscall.blocking <;> rw [hb] at hg <;> exact hg.1
    · rw [Statement.exec, hv, map_some, hk.finish]
  · rw [hg.2.calls]
    exact append_ne_nil_of_right_ne_nil _ (cons_ne_nil _ _)

end Handlers

variable {order : List String} {name : String} {i : ℕ}

theorem syscallIds_append (o : List String) (n : String) : syscallIds (o ++ [n]) =
  Function.update (syscallIds o) n (some o.length) := by
  rw [syscallIds, zipIdx_append, foldl_append]
  simp [syscallIds]

theorem syscallIds_eq_some_iff (hn : order.Nodup) :
  syscallIds order name = some i ↔ order[i]? = some name := by
  induction order using List.reverseRecOn with
  | nil => simp [syscallIds]
  | append_singleton order y ih =>
    obtain ⟨hn, -, hl⟩ := nodup_append'.mp hn
    rw [disjoint_singleton] at hl
    rw [syscallIds_append]
    by_cases hna : name = y
    · subst hna
      rw [Function.update_self, some.injEq]
      constructor
      · rintro rfl
        simp
      · intro h
        by_contra hne
        have hlt := (List.getElem?_eq_some_iff.mp h).1
        rw [length_append, length_singleton] at hlt
        rw [getElem?_append_left (by omega)] at h
        exact hl (mem_of_getElem? h)
    · rw [Function.update_of_ne hna, ih hn]
      constructor
      · intro h
        rw [List.getElem?_append_left (List.getElem?_eq_some_iff.mp h).1, h]
      · intro h
        by_cases hlt : i < order.length
        · rwa [getElem?_append_left hlt] at h
        · rw [getElem?_append_right (Nat.le_of_not_lt hlt)] at h
          exact absurd (mem_singleton.mp (mem_of_getElem? h)) hna

def syscallEntry : String × Symbol → Option (String × SyscallDescription)
  | (name, ⟨_, .syscall syscall⟩) => some (name, syscall)
  | _ => none

structure Generated (arch : String) (ids : String → Option ℕ) (entry : String × SyscallDescription)
  (s : GeneratedSyscall) : Prop where
  name : s.name = entry.1
  number : ids entry.1 = some s.stub.number
  moves : stubMoves arch entry.2.parameters.length = some s.stub.moves
  code : generateHandler arch entry.1 entry.2 = some s.code

variable {arch : String} {ids : String → Option ℕ} {g : GeneratorContext}
  {symbols : List (String × Symbol)}

theorem exists_generated {sc : SyscallDescription} {rs : List String} {id : ℕ}
  (hr : archRegistersForArgs.lookup arch = some rs)
  (hc : sc.parameters.length ≤ rs.length) (hid : ids name = some id) :
  ∃ s, generateSyscall arch id name sc = some s ∧ s.stub.number = id ∧
  Generated arch ids (name, sc) s := by
  obtain ⟨rfl, rfl⟩ := eq_of_lookup hr
  have hm := stubMoves_amd64 hc
  have hco : generateHandler "amd64" name sc = _ := generateHandler_eq hr hc
  refine ⟨_, by rw [generateSyscall, hm, hco]; rfl, rfl, rfl, hid, hm, hco⟩

def Numbered (arch : String) (ids : String → Option ℕ) (symbols : List (String × Symbol)) : Prop :=
  ∀ entry ∈ symbols.filterMap syscallEntry, (∃ id, ids entry.1 = some id) ∧
    ∃ registers, archRegistersForArgs.lookup arch = some registers ∧
      entry.2.parameters.length ≤ registers.length

theorem foldlM_generateSymbol (h : Numbered arch ids symbols) (g : GeneratorContext) :
  ∃ new, symbols.foldlM (fun g ent ↦ generateSymbol arch ids g ent.1 ent.2) g = some
      { syscalls := new.foldl (fun syscalls s ↦ assign syscalls s.stub.number s.name) g.syscalls
        generated := g.generated ++ new } ∧
    List.Forall₂ (Generated arch ids) (symbols.filterMap syscallEntry) new := by
  induction symbols generalizing g with
  | nil => exact ⟨[], by simp, .nil⟩
  | cons sy symbols ih =>
    obtain ⟨name, mo, d⟩ := sy
    cases d with
    | syscall syscall =>
      obtain ⟨⟨⟨id, hid⟩, registers, hr, hc⟩, hre⟩ := forall_mem_cons.mp h
      obtain ⟨s, hs, hn, hg⟩ := exists_generated hr hc hid
      have hsy : generateSymbol arch ids g name ⟨mo, .syscall syscall⟩ = some
          { syscalls := assign g.syscalls s.stub.number s.name
            generated := g.generated ++ [s] } := by
        simp only [generateSymbol, hid, bind_some, hs, map_some, hn, hg.name]
      obtain ⟨new, hne, ha⟩ := ih hre
        { syscalls := assign g.syscalls s.stub.number s.name, generated := g.generated ++ [s] }
      refine ⟨s :: new, ?_, .cons hg ha⟩
      rw [foldlM_cons, hsy, foldl_cons, append_cons g.generated s new]
      exact hne
    | enum en => exact ih h g
    | struct members => exact ih h g

section Table

variable {es m : List (ℕ × String)}

instance total_key : Std.Total fun a b : ℕ × String ↦ a.1 ≤ b.1 := ⟨fun a b ↦ Nat.le_total a.1 b.1⟩

instance trans_key : IsTrans (ℕ × String) fun a b ↦ a.1 ≤ b.1 := ⟨fun _ _ _ ↦ le_trans⟩

theorem assign_of_notMem {id : ℕ} (h : id ∉ m.map Prod.fst) (n : String) :
  assign m id n = m.orderedInsert (fun a b ↦ a.1 ≤ b.1) (id, n) := by
  rw [assign, filter_eq_self.mpr]
  intro en he
  apply decide_eq_true
  rintro rfl
  exact h (mem_map_of_mem he)

theorem foldl_assign (hs : m.Pairwise fun a b ↦ a.1 ≤ b.1) (hk : ((m ++ es).map Prod.fst).Nodup) :
  (es.foldl (fun m en ↦ assign m en.1 en.2) m).Pairwise (fun a b ↦ a.1 ≤ b.1) ∧
  (es.foldl (fun m en ↦ assign m en.1 en.2) m).Perm (m ++ es) := by
  induction es generalizing m with
  | nil => exact ⟨hs, by rw [append_nil]; exact .refl m⟩
  | cons en es ih =>
    have hn : en.1 ∉ m.map Prod.fst := by
      rw [map_append, map_cons] at hk
      intro hm
      exact disjoint_of_nodup_append hk hm mem_cons_self
    have hp : (assign m en.1 en.2 ++ es).Perm (m ++ en :: es) := by
      rw [assign_of_notMem hn]
      exact ((perm_orderedInsert _ en m).append_right es).trans perm_middle.symm
    have hi : (assign m en.1 en.2).Pairwise fun a b ↦ a.1 ≤ b.1 := by
      rw [assign_of_notMem hn]
      exact hs.orderedInsert _ _
    obtain ⟨hr, ha⟩ := ih hi ((hp.map Prod.fst).nodup_iff.mpr hk)
    exact ⟨hr, ha.trans hp⟩

theorem pairwise_zipIdx (o : List String) :
  (o.zipIdx.map Prod.swap).Pairwise fun a b ↦ a.1 ≤ b.1 := by
  rw [pairwise_map, pairwise_iff_getElem]
  intro i j hi hj hl
  simp [hl.le]

theorem eq_order_of_entries (hs : m.Pairwise fun a b ↦ a.1 ≤ b.1) (hno : m.Nodup)
  (ho : order.Nodup) (hm : ∀ n name, (n, name) ∈ m ↔ order[n]? = some name) :
  m.map Prod.snd = order := by
  have he : ∀ en, en ∈ m ↔ en ∈ order.zipIdx.map Prod.swap := by
    rintro ⟨n, name⟩
    rw [hm, List.mem_map]
    constructor
    · intro h
      exact ⟨(name, n), mem_zipIdx_iff_getElem?.mpr h, rfl⟩
    · rintro ⟨⟨name', n'⟩, h, heq⟩
      cases heq
      exact mem_zipIdx_iff_getElem?.mp h
  have hz : (order.zipIdx.map Prod.swap).map Prod.snd = order := by
    rw [List.map_map]
    exact zipIdx_map_fst 0 order
  have hn : (order.zipIdx.map Prod.swap).Nodup := by
    rw [← hz] at ho
    exact .of_map Prod.snd ho
  have hp := (perm_ext_iff_of_nodup hno hn).mpr he
  rw [hp.eq_of_pairwise ?_ hs (pairwise_zipIdx order), hz]
  rintro ⟨n, a⟩ ⟨n', b⟩ ha hb hle hle'
  obtain rfl : n = n' := le_antisymm hle hle'
  rw [hm] at ha
  rw [← he, hm, ha] at hb
  cases hb
  rfl

end Table

structure Places (order : List String) (generated : List GeneratedSyscall) : Prop where
  nodup : order.Nodup
  names : (generated.map (·.name)).Perm order
  number : ∀ s ∈ generated, order[s.stub.number]? = some s.name

namespace Places

variable {generated : List GeneratedSyscall} (h : Places order generated)
include h

theorem mem_iff (n : ℕ) (name : String) :
  (n, name) ∈ generated.map (fun s ↦ (s.stub.number, s.name)) ↔ order[n]? = some name := by
  rw [List.mem_map]
  constructor
  · rintro ⟨s, hs, heq⟩
    cases heq
    exact h.number s hs
  · intro hn
    have hna := h.names.mem_iff.mpr (mem_of_getElem? hn)
    obtain ⟨s, hs, rfl⟩ := mem_map.mp hna
    have hi := (syscallIds_eq_some_iff h.nodup).mpr (h.number s hs)
    rw [(syscallIds_eq_some_iff h.nodup).mpr hn, some.injEq] at hi
    exact ⟨s, hs, by rw [hi]⟩

theorem numbers_nodup : (generated.map (·.stub.number)).Nodup := by
  have hn : generated.map (·.name) =
    (generated.map (·.stub.number)).map fun n ↦ order[n]?.getD "" := by
    rw [List.map_map]
    apply map_congr_left
    intro s hs
    rw [Function.comp_apply, h.number s hs]
    rfl
  apply Nodup.of_map (fun n ↦ order[n]?.getD "")
  rw [← hn]
  exact h.names.nodup_iff.mpr h.nodup

theorem table_eq :
  (generated.foldl (fun m s ↦ assign m s.stub.number s.name) []).map Prod.snd = order := by
  have hk : ((generated.map fun s ↦ (s.stub.number, s.name)).map Prod.fst).Nodup := by
    rw [List.map_map]
    exact h.numbers_nodup
  obtain ⟨hs, hp⟩ := foldl_assign .nil (hk : (([] ++ _ : List (ℕ × String)).map _).Nodup)
  rw [foldl_map, nil_append] at hp
  rw [foldl_map] at hs
  refine eq_order_of_entries hs (hp.nodup_iff.mpr (.of_map Prod.fst hk)) h.nodup ?_
  intro n name
  rw [hp.mem_iff]
  exact h.mem_iff n name

end Places

end

variable {k : Kernel} {r : Result} {arch name scope : String} {args : ContextArgs}
  {registers : List String} {syscall : SyscallDescription} {code : HandlerCode}

theorem run_of_refused (hr : archRegistersForArgs.lookup arch = some registers)
  (hco : syscall.parameters.length ≤ registers.length)
  (hc : generateHandler arch name syscall = some code)
  (h : (syscall.parameters.zip registers).findSome? (mainRefusal syscall.blocking k) = some r)
  (l : List Kernel) : ∃ f, code.run k l = some f ∧ f.calls = [] ∧ f.returnRegister = some r := by
  rw [generateHandler_eq hr hco, some.injEq] at hc
  obtain ⟨f, he, hca, hre⟩ := refuses_mainParts (f := {}) h
  refine ⟨f, ?_, hca, hre⟩
  cases hb : syscall.blocking with
  | false =>
    rw [hb] at hc he
    rw [← hc, HandlerCode.run, if_neg Bool.false_ne_true, exec_append_of_returned he]
  | true =>
    rw [hb] at hc he
    rw [← hc, HandlerCode.run, if_pos rfl, exec_append_of_returned he]

theorem run_of_accepted (hrg : archRegistersForArgs.lookup arch = some registers)
  (hco : syscall.parameters.length ≤ registers.length)
  (hc : generateHandler arch name syscall = some code) (hk : k.Yields)
  (h : ∀ e ∈ syscall.parameters.zip registers, mainRefusal syscall.blocking k e = none)
  (l : List Kernel) : ∃ f, code.run k l = some f ∧ f.calls ≠ [] := by
  rw [generateHandler_eq hrg hco, some.injEq] at hc
  obtain ⟨f, ⟨hx, -⟩, hr⟩ := passes_mainParts (f := {}) h
  have hpa : ∀ param ∈ syscall.parameters, ∃ e ∈ syscall.parameters.zip registers, e.1 = param := by
    intro param hp
    rw [← map_fst_zip hco] at hp
    exact mem_map.mp hp
  cases hb : syscall.blocking with
  | false =>
    rw [hb] at hc hx hr
    have hrea : ∀ param ∈ syscall.parameters, Ready syscall.blocking param f := by
      intro param hp
      obtain ⟨e, he, rfl⟩ := hpa param hp
      rw [hb]
      exact (hr e he).ready
    obtain ⟨g, ht, hca⟩ := exec_tailPart hk name hrea
    refine ⟨g, ?_, hca⟩
    rw [← hc, HandlerCode.run, if_neg Bool.false_ne_true, exec_append_of_next hx, ht]
  | true =>
    rw [hb] at hc hx hr
    obtain ⟨g, ⟨hl, -⟩, hre⟩ := passes_laterParts hk fun e he ↦ (hr e he).enter
    have hrea : ∀ param ∈ syscall.parameters, Ready syscall.blocking param g := by
      intro param hp
      obtain ⟨e, he, rfl⟩ := hpa param hp
      rw [hb]
      exact hre e he
    obtain ⟨g', ht, hca⟩ := exec_tailPart hk name hrea
    refine ⟨g', ?_, hca⟩
    have hh : exec k code.handler {} = some (.continues f) := by
      rw [← hc, if_pos rfl, exec_append_of_next hx]
      rfl
    have hcn : exec k code.continuation f.enter = some (.next g') := by
      rw [← hc, if_pos rfl, exec_append_of_next hl, ht]
    simp only [HandlerCode.run, hh, HandlerCode.resume, hcn]

def Context.handlerCode (c : Context) (name : String) : Option HandlerCode :=
  match c.symbols.lookup name with
  | some ⟨_, .syscall syscall⟩ => generateHandler c.args.arch name syscall
  | _ => none

inductive Parameter.RefusedWith (p : Parameter) (k : Kernel) (w : Word) : Result → Prop
  | token (perms : List String) (r : Result) (annotated : p.tokenPermissions = some perms)
    (refused : k.tokenRefusal w p.typeSpec.joined perms = some r) : p.RefusedWith k w r
  | pointer (type : String) (direction : (p.isIn || p.isOut) = true)
    (refused : k.lockArrayMapping w type p.isOut = false) : p.RefusedWith k w .invalidPointers

/-- A token that is not valid, not of the declared type or lacks a declared permission ends the
call before the implementation, with its own result or that of an earlier parameter. -/
def Enforced (arch : String) (ast : ParsedSyscall) (code : HandlerCode) : Prop :=
  ∀ k later i p perms register, ast.parameters[i]? = some p → p.tokenPermissions = some perms →
    getArchRegisterForArg arch i = some register →
    ∀ r, k.tokenRefusal (k.registers register) p.typeSpec.joined perms = some r →
      ∃ f, code.run k later = some f ∧ f.calls = [] ∧
        (f.returnRegister = some r ∨ ∃ j < i, ∃ q register' r', ast.parameters[j]? = some q ∧
          getArchRegisterForArg arch j = some register' ∧
          q.RefusedWith k (k.registers register') r' ∧ f.returnRegister = some r')

theorem refusedWith_of_mainRefusal {p : Parameter} {b : Bool} {e : Entry}
  (hd : p.Described scope e.1.2) (h : mainRefusal b k e = some r) :
  p.RefusedWith k (k.registers e.2) r := by
  obtain ⟨⟨name, d⟩, rg⟩ := e
  cases hd with
  | pointer di =>
    cases b with
    | true => cases h
    | false =>
      simp only [mainRefusal, refusal, Bool.false_eq_true, if_false] at h
      split at h
      next hl => cases h
      next hl =>
        cases h
        exact .pointer _ di (Bool.eq_false_iff.mpr hl)
  | token ps di a => exact .token ps r a h
  | value di a => cases h

section Described

variable {ast : ParsedSyscall} {i : ℕ} {e : Entry} {p : Parameter}

theorem parameter_of_entry (h : ast.Described args syscall)
  (he : (syscall.parameters.zip registers)[i]? = some e) :
  ∃ p, ast.parameters[i]? = some p ∧ p.Described args.scope e.1.2 ∧ registers[i]? = some e.2 := by
  obtain ⟨hp, hr⟩ := getElem?_zip_eq_some.mp he
  obtain ⟨hl, ha⟩ := forall₂_iff_get.mp h.parameters
  obtain ⟨hlt, hg⟩ := List.getElem?_eq_some_iff.mp hp
  refine ⟨ast.parameters[i], getElem?_eq_getElem (hl ▸ hlt), ?_, hr⟩
  have hd := (ha i (hl ▸ hlt) hlt).2
  rw [get_eq_getElem, get_eq_getElem, hg] at hd
  exact hd

theorem entry_of_parameter (h : ast.Described args syscall)
  (hc : ast.parameters.length ≤ registers.length) (hp : ast.parameters[i]? = some p) :
  ∃ e, (syscall.parameters.zip registers)[i]? = some e ∧ p.Described args.scope e.1.2 := by
  obtain ⟨hl, -⟩ := forall₂_iff_get.mp h.parameters
  obtain ⟨hlt, hg⟩ := List.getElem?_eq_some_iff.mp hp
  have he : i < (syscall.parameters.zip registers).length := by
    rw [length_zip]
    omega
  refine ⟨_, getElem?_eq_getElem he, ?_⟩
  obtain ⟨p', hp', hd, -⟩ := parameter_of_entry h (getElem?_eq_getElem he)
  rw [hp] at hp'
  cases hp'
  exact hd

def Undirected (ast : ParsedSyscall) : Prop :=
  ∀ p ∈ ast.parameters, p.tokenPermissions.isSome → (p.isIn || p.isOut) = false

instance (ast : ParsedSyscall) : Decidable (Undirected ast) :=
  inferInstanceAs (Decidable (∀ p ∈ ast.parameters, _ → _))

theorem exists_findSome?_eq {α β : Type} {φ : α → Option β} {l : List α} {a : α} {b : β}
  (ha : l[i]? = some a) (hb : φ a = some b) :
  ∃ j ≤ i, ∃ a' b', l[j]? = some a' ∧ φ a' = some b' ∧ l.findSome? φ = some b' := by
  obtain ⟨b', hf⟩ : ∃ b', l.findSome? φ = some b' := by
    apply isSome_iff_exists.mp
    exact findSome?_isSome_iff.mpr ⟨a, mem_of_getElem? ha, by rw [hb]; rfl⟩
  obtain ⟨be, a', af, rfl, hb', h⟩ := findSome?_eq_some_iff.mp hf
  refine ⟨be.length, ?_, a', b', by simp, hb', hf⟩
  by_contra hlt
  rw [getElem?_append_left (by omega)] at ha
  rw [h a (mem_of_getElem? ha)] at hb
  cases hb

theorem Undirected.enforced (hu : Undirected ast) (h : ast.Described args syscall)
  (hco : generateHandler args.arch name syscall = some code) : Enforced args.arch ast code := by
  intro k l i p ps rg hp hpe hre r hrf
  obtain ⟨registers, hrg, hc⟩ := h.count
  have hl := h.parameters.length_eq
  rw [getArchRegisterForArg, hrg, bind_some] at hre
  obtain ⟨e, he, hd⟩ := entry_of_parameter h hc hp
  have hm : mainRefusal syscall.blocking k e = some r := by
    obtain ⟨⟨n, d⟩, reg⟩ := e
    obtain ⟨-, hr⟩ := getElem?_zip_eq_some.mp he
    rw [hre, some.injEq] at hr
    subst hr
    have hdi := hu p (mem_of_getElem? hp) (by rw [hpe]; rfl)
    cases hd with
    | pointer di => rw [hdi] at di; cases di
    | token ps' di a =>
      rw [hpe, some.injEq] at a
      subst a
      exact hrf
    | value di a => rw [hpe] at a; cases a
  obtain ⟨j, hj, e', r', he', hr', hf⟩ := exists_findSome?_eq he hm
  obtain ⟨f, hru, hca, hs⟩ := run_of_refused hrg (hl ▸ hc) hco hf l
  refine ⟨f, hru, hca, ?_⟩
  obtain rfl | hlt := eq_or_lt_of_le hj
  · rw [he, some.injEq] at he'
    rw [← he', hm] at hr'
    exact .inl (hs.trans hr'.symm)
  · obtain ⟨q, hq, hd', hre'⟩ := parameter_of_entry h he'
    refine .inr ⟨j, hlt, q, e'.2, r', hq, ?_, refusedWith_of_mainRefusal hd' hr', hs⟩
    rw [getArchRegisterForArg, hrg, bind_some, hre']

def blindKernel (registers : List String) (ast : ParsedSyscall) (i : ℕ) : Kernel where
  registers r := BitVec.ofNat 64 (registers.idxOf r)
  getHandle w :=
    if w.toNat = i then none
    else some
      { perms := 0
        type := (ast.parameters[w.toNat]?.map (·.typeSpec.joined)).getD ""
        payload := 0 }
  lockArrayMapping _ _ _ := true
  implementation _ _ := some .ok
  permission _ := 0

theorem toNat_blindKernel (a : ParsedSyscall) (i : ℕ)
  (h : archRegistersForArgs.lookup arch = some registers) {j : ℕ} {rg : String}
  (hj : registers[j]? = some rg) : ((blindKernel registers a i).registers rg).toNat = j := by
  obtain ⟨-, rfl⟩ := eq_of_lookup h
  obtain ⟨hl, rfl⟩ := List.getElem?_eq_some_iff.mp hj
  have hi := Nodup.idxOf_getElem (by decide) j hl
  change (BitVec.ofNat 64 (List.idxOf _ _)).toNat = j
  rw [hi, BitVec.toNat_ofNat]
  exact Nat.mod_eq_of_lt (hl.trans (by decide))

theorem mainRefusal_blindKernel (hr : archRegistersForArgs.lookup args.arch = some registers)
  (h : ast.Described args syscall) (hp : ast.parameters[i]? = some p)
  (hd : (p.isIn || p.isOut) = true) : ∀ e ∈ syscall.parameters.zip registers,
  mainRefusal syscall.blocking (blindKernel registers ast i) e = none := by
  intro e he
  obtain ⟨j, he⟩ := mem_iff_getElem?.mp he
  obtain ⟨q, hq, hde, hre⟩ := parameter_of_entry h he
  have hw := toNat_blindKernel ast i hr hre
  obtain ⟨⟨n, d⟩, rg⟩ := e
  cases hde with
  | pointer di => cases syscall.blocking <;> rfl
  | value di a => rfl
  | token ps di a =>
    have hne : j ≠ i := by
      rintro rfl
      rw [hp] at hq
      cases hq
      rw [hd] at di
      cases di
    refine Kernel.tokenRefusal_eq_none_iff.mpr ⟨_, if_neg (hw ▸ hne), ?_, fun _ _ ↦ ?_⟩
    · rw [hw, hq]
      exact decide_eq_true rfl
    · exact decide_eq_true BitVec.zero_and

theorem Enforced.undirected (h : ast.Described args syscall)
  (hco : generateHandler args.arch name syscall = some code)
  (hen : Enforced args.arch ast code) : Undirected ast := by
  intro p hp ha
  by_contra hd
  rw [Bool.not_eq_false] at hd
  obtain ⟨i, hp⟩ := mem_iff_getElem?.mp hp
  obtain ⟨ps, hpe⟩ := isSome_iff_exists.mp ha
  obtain ⟨registers, hr, hcou⟩ := h.count
  obtain ⟨e, he, -⟩ := entry_of_parameter h hcou hp
  obtain ⟨-, hre⟩ := getElem?_zip_eq_some.mp he
  have hw := toNat_blindKernel ast i hr hre
  have hn : (blindKernel registers ast i).getHandle
    ((blindKernel registers ast i).registers e.2) = none := if_pos hw
  obtain ⟨f, hru, hc, -⟩ := hen (blindKernel registers ast i) [] i p ps e.2 hp hpe
    (by rw [getArchRegisterForArg, hr, bind_some, hre]) .invalidToken
    (by rw [Kernel.tokenRefusal, hn])
  have hl : ast.parameters.length = syscall.parameters.length := h.parameters.length_eq
  obtain ⟨f', hru', hc'⟩ := run_of_accepted hr (hl ▸ hcou) hco
    ⟨fun _ _ _ ↦ rfl, fun _ _ ↦ rfl⟩ (mainRefusal_blindKernel hr h hp hd) []
  rw [hru, some.injEq] at hru'
  exact hc' (hru' ▸ hc)

end Described

theorem lookup_eq_some_of_mem {β : Type} {es : List (String × β)} {b : β}
  (hn : (es.map Prod.fst).Nodup) (hm : (name, b) ∈ es) : es.lookup name = some b := by
  obtain ⟨be, a, rfl⟩ := append_of_mem hm
  rw [map_append, map_cons] at hn
  have hb : be.lookup name = none := by
    apply lookup_eq_none_iff.mpr
    intro en he
    apply bne_iff_ne.mpr
    rintro rfl
    exact disjoint_of_nodup_append hn (mem_map_of_mem he) mem_cons_self
  rw [lookup_append, hb, lookup_cons_self]
  rfl

theorem enforced_iff_undirected (filename : String) (args : ContextArgs)
    (declarations : List Declaration) (c : Context)
    (hprocess : process filename declarations { args := args } = .ok ((), c)) (ast : ParsedSyscall)
    (hast : .syscall ast ∈ declarations) : ∃ code, c.handlerCode ast.name = some code ∧
      (Enforced c.args.arch ast code ↔ Undirected ast) := by
  have hc := compiles_of_process hprocess
  obtain ⟨module, syscall, hm, hd⟩ := hc.symbol ast hast
  obtain ⟨registers, hr, hcou⟩ := hd.count
  have hco : generateHandler c.args.arch ast.name syscall = _ :=
    generateHandler_eq hr (hd.parameters.length_eq ▸ hcou)
  refine ⟨_, ?_, fun h ↦ h.undirected hd hco, fun h ↦ h.enforced hd hco⟩
  rw [Context.handlerCode, lookup_eq_some_of_mem hc.names hm]
  exact hco

theorem enforced_processStart : ∃ c, process "meta" (resultDeclarations ++ [.syscall processStart])
  { args := ⟨"rose::syscall", "amd64"⟩ } = .ok ((), c) ∧
  ∃ code, c.handlerCode "rose_process_start" = some code ∧
  Enforced "amd64" processStart code := by
  refine ⟨_, rfl, ?_⟩
  obtain ⟨code, hc, hi⟩ := enforced_iff_undirected "meta" ⟨"rose::syscall", "amd64"⟩
    (resultDeclarations ++ [.syscall processStart]) _ rfl processStart (by simp)
  exact ⟨code, hc, hi.mpr (by decide)⟩

def processPeek : ParsedSyscall where
  scope := .outer "kernel" ["scheduler", "process"]
  name := "rose_process_peek"
  parameters :=
    [{ name := "process", isIn := true, tokenPermissions := some ["write"],
       typeSpec := .outer "kernel" ["scheduler", "process"] }]
  returnType := some (.generated "result")

theorem not_enforced_processPeek :
    ∃ c, process "meta" (resultDeclarations ++ [.syscall processPeek])
        { args := ⟨"rose::syscall", "amd64"⟩ } = .ok ((), c) ∧
      ∃ code, c.handlerCode "rose_process_peek" = some code ∧
        (∃ k f, (∀ token, k.getHandle token = none) ∧ code.run k [] = some f ∧
          f.calls.map Prod.fst =
            ["kernel::scheduler::process::syscall_rose_process_peek_handler"]) ∧
        ¬ Enforced "amd64" processPeek code := by
  let k : Kernel := ⟨fun _ ↦ 0, fun _ ↦ none, fun _ _ _ ↦ true, fun _ _ ↦ some .ok, fun _ ↦ 0⟩
  refine ⟨_, rfl, _, rfl, ⟨k, _, fun _ ↦ rfl, rfl, rfl⟩, fun h ↦ ?_⟩
  obtain ⟨f, hr, hc, -⟩ := h k [] 0 _ _ "rdi" rfl rfl rfl .invalidToken rfl
  cases hr
  cases hc

end ReaverOS.Thorn
