import Mathlib.Data.List.Sort
import Mathlib.Tactic.IntervalCases
import ReaverOS.Thorn.Ast

namespace ReaverOS.Thorn

section Statements

abbrev Word := BitVec 64

inductive Place
  | stack
  | state
  deriving DecidableEq

inductive Suffix
  | none
  | token
  | handle
  | holder
  | addr
  | guard
  | storage
  deriving DecidableEq

structure Variable where
  place : Place
  name : String
  suffix : Suffix
  deriving DecidableEq

inductive Result
  | ok
  | invalidToken
  | wrongHandleType
  | notAllowed
  | invalidPointers
  | other (name : String)
  deriving DecidableEq

inductive Check
  | valid (handle : Variable)
  | isA (handle : Variable) (type : String)
  | hasPermissions (handle : Variable) (permission : String)
  | locked (guard : Variable)
  deriving DecidableEq

inductive Statement
  | read (x : Variable) (register : String)
  | getHandle (x token : Variable)
  | ensure (check : Check) (otherwise : Result)
  | getAs (x handle : Variable) (type : String)
  | getHolder (x holder : Variable)
  | lockArrayMapping (x addr : Variable) (type : String) (rw : Bool)
  | declare (x : Variable) (type : String)
  | addressOf (x storage : Variable)
  | copyIn (storage addr : Variable)
  | call (function : String) (arguments : List Variable)
  | returnUnlessResult
  | returnUnlessOk
  | copyOut (addr storage : Variable)
  | enterContinuation
  deriving DecidableEq

structure TypedHandle extends Handle where
  type : String
  payload : ℕ

def TypedHandle.isA (handle : TypedHandle) (type : String) : Bool :=
  handle.type = type

inductive Value
  | word (w : Word)
  | handle (handle : Option TypedHandle)
  | object (payload : ℕ)
  | guard (locked : Bool)
  | storage (source : Option Word)
  | pointer (target : Variable)

def Value.word? : Value → Option Word
  | .word w => some w
  | _ => none

def Value.handle? : Value → Option (Option TypedHandle)
  | .handle h => some h
  | _ => none

def Value.guard? : Value → Option Bool
  | .guard locked => some locked
  | _ => none

structure Kernel where
  registers : String → Word
  getHandle : Word → Option TypedHandle
  lockArrayMapping : Word → String → Bool → Bool
  implementation : String → List Value → Option Result
  permission : String → BitVec 128

structure Frame where
  vars : Variable → Option Value := fun _ ↦ none
  result : Option Result := none
  returnRegister : Option Result := none
  calls : List (String × List Value) := []
  copied : List Word := []

namespace Frame

def set (f : Frame) (x : Variable) (v : Value) : Frame :=
  { f with vars := Function.update f.vars x (some v) }

def word? (f : Frame) (x : Variable) : Option Word := (f.vars x).bind Value.word?

def handle? (f : Frame) (x : Variable) : Option (Option TypedHandle) :=
  (f.vars x).bind Value.handle?

def guard? (f : Frame) (x : Variable) : Option Bool := (f.vars x).bind Value.guard?

def enter (f : Frame) : Frame :=
  { f with vars := fun x ↦ if x.place = .state then f.vars x else none }

end Frame

def Check.holds (k : Kernel) (f : Frame) : Check → Option Bool
  | valid handle => (f.handle? handle).map Option.isSome
  | isA handle type => ((f.handle? handle).bind id).map fun h ↦ h.isA type
  | hasPermissions handle permission =>
    ((f.handle? handle).bind id).map fun h ↦ h.hasPermissions (k.permission permission)
  | locked guard => f.guard? guard

inductive Outcome
  | next (f : Frame)
  | returned (f : Frame)
  | pending (f : Frame)
  | continues (f : Frame)

def Statement.exec (k : Kernel) (f : Frame) : Statement → Option Outcome
  | read x register => some (.next (f.set x (.word (k.registers register))))
  | getHandle x token =>
    (f.word? token).map fun w ↦ .next (f.set x (.handle (k.getHandle w)))
  | ensure check otherwise =>
    (check.holds k f).map fun holds ↦
      if holds then .next f else .returned { f with returnRegister := some otherwise }
  | getAs x handle _ =>
    ((f.handle? handle).bind id).map fun h ↦ .next (f.set x (.object h.payload))
  | getHolder x holder => (f.vars holder).map fun v ↦ .next (f.set x v)
  | lockArrayMapping x addr type rw =>
    (f.word? addr).map fun w ↦ .next (f.set x (.guard (k.lockArrayMapping w type rw)))
  | declare x _ => some (.next (f.set x (.storage none)))
  | addressOf x storage => some (.next (f.set x (.pointer storage)))
  | copyIn storage addr =>
    (f.word? addr).map fun w ↦ .next (f.set storage (.storage (some w)))
  | call function arguments =>
    (arguments.mapM f.vars).map fun values ↦
      .next { f with
        calls := f.calls ++ [(function, values)], result := k.implementation function values }
  | returnUnlessResult => if f.result.isNone then some (.pending f) else some (.next f)
  | returnUnlessOk =>
    f.result.map fun result ↦
      if result = .ok then .next { f with returnRegister := some result }
      else .returned { f with returnRegister := some result }
  | copyOut addr _ =>
    (f.word? addr).map fun w ↦ .next { f with copied := f.copied ++ [w] }
  | enterContinuation => some (.continues f)

def exec (k : Kernel) : List Statement → Frame → Option Outcome
  | [], f => some (.next f)
  | statement :: rest, f =>
    match statement.exec k f with
    | some (.next g) => exec k rest g
    | outcome => outcome

structure HandlerCode where
  handler : List Statement := []
  continuation : List Statement := []
  deriving DecidableEq

def HandlerCode.resume (code : HandlerCode) : List Kernel → Frame → Option Frame
  | [], f => some f
  | k :: later, f =>
    match exec k code.continuation f.enter with
    | some (.next g) | some (.returned g) => some g
    | some (.pending g) => code.resume later g
    | _ => none

def HandlerCode.run (code : HandlerCode) (k : Kernel) (later : List Kernel) : Option Frame :=
  match exec k code.handler {} with
  | some (.next f) | some (.returned f) => some f
  | some (.continues f) => code.resume (k :: later) f
  | _ => none

variable {k : Kernel} {f g h : Frame} {code code' : List Statement} {r : Result}

structure Frame.Grows (f g : Frame) : Prop where
  calls : g.calls = f.calls
  vars : ∀ x, (f.vars x).isSome → (g.vars x).isSome
  addr : ∀ x, x.suffix = .addr → (f.word? x).isSome → (g.word? x).isSome

theorem Frame.Grows.refl (f : Frame) : f.Grows f := ⟨rfl, fun _ ↦ id, fun _ _ ↦ id⟩

theorem Frame.Grows.trans (hf : f.Grows g) (hg : g.Grows h) : f.Grows h where
  calls := hg.calls.trans hf.calls
  vars x := hg.vars x ∘ hf.vars x
  addr x hx := hg.addr x hx ∘ hf.addr x hx

@[simp]
theorem Frame.vars_set (f : Frame) (x : Variable) (v : Value) : (f.set x v).vars x = some v :=
  Function.update_self ..

theorem Frame.vars_set_of_ne {x y : Variable} (hn : y ≠ x) (v : Value) :
  (f.set x v).vars y = f.vars y :=
  Function.update_of_ne hn ..

@[simp]
theorem Frame.word?_set (f : Frame) (x : Variable) (v : Value) : (f.set x v).word? x = v.word? := by
  rw [word?, vars_set, Option.bind_some]

@[simp]
theorem Frame.handle?_set (f : Frame) (x : Variable) (v : Value) :
  (f.set x v).handle? x = v.handle? := by
  rw [handle?, vars_set, Option.bind_some]

theorem Frame.grows_set {x : Variable} {v : Value} (hv : x.suffix = .addr → v.word?.isSome) :
  f.Grows (f.set x v) := by
  refine ⟨rfl, fun y hy ↦ ?_, fun y hs hy ↦ ?_⟩
  · by_cases hne : y = x
    · rw [hne, vars_set]
      rfl
    · rwa [vars_set_of_ne hne]
  · by_cases hne : y = x
    · rw [hne, word?_set]
      exact hv (hne ▸ hs)
    · rwa [word?, vars_set_of_ne hne]

def Passes (k : Kernel) (code : List Statement) (f g : Frame) : Prop :=
  exec k code f = some (.next g) ∧ f.Grows g

def Refuses (k : Kernel) (code : List Statement) (f : Frame) (r : Result) : Prop :=
  ∃ g, exec k code f = some (.returned g) ∧ g.calls = f.calls ∧ g.returnRegister = some r

theorem exec_append_of_next (hc : exec k code f = some (.next g)) :
  exec k (code ++ code') f = exec k code' g := by
  induction code generalizing f with
  | nil =>
    cases hc
    rfl
  | cons statement code ih =>
    rw [List.cons_append, exec]
    rw [exec] at hc
    split at hc
    next f' hnext => exact ih hc
    next ho => exact absurd hc (ho g)

theorem exec_append_of_returned (hc : exec k code f = some (.returned g)) :
  exec k (code ++ code') f = some (.returned g) := by
  induction code generalizing f with
  | nil => cases hc
  | cons statement code ih =>
    rw [List.cons_append, exec]
    rw [exec] at hc
    split at hc
    next f' hnext => exact ih hc
    next hother => rw [hc]

theorem Passes.append (hc : Passes k code f g) (hc' : Passes k code' g h) :
  Passes k (code ++ code') f h :=
  ⟨(exec_append_of_next hc.1).trans hc'.1, hc.2.trans hc'.2⟩

theorem Passes.append_refuses (hc : Passes k code f g) (hc' : Refuses k code' g r) :
  Refuses k (code ++ code') f r := by
  obtain ⟨e, he, hca, hr⟩ := hc'
  exact ⟨e, (exec_append_of_next hc.1).trans he, hca.trans hc.2.calls, hr⟩

theorem Refuses.append (hc : Refuses k code f r) (code' : List Statement) :
  Refuses k (code ++ code') f r := by
  obtain ⟨e, he, hr⟩ := hc
  exact ⟨e, exec_append_of_returned he, hr⟩

theorem Passes.nil (k : Kernel) (f : Frame) : Passes k [] f f := ⟨rfl, .refl f⟩

variable {statement : Statement}

theorem exec_cons_of_next (hs : s.exec k f = some (.next g)) :
  exec k (s :: code) f = exec k code g := by
  rw [exec, hs]

theorem Passes.cons (hs : s.exec k f = some (.next g))
  (hg : f.Grows g) (hc : Passes k code g h) : Passes k (s :: code) f h :=
  ⟨(exec_cons_of_next hs).trans hc.1, hg.trans hc.2⟩

theorem Refuses.cons (hs : s.exec k f = some (.next g))
  (hg : f.Grows g) (hco : Refuses k code g r) : Refuses k (s :: code) f r := by
  obtain ⟨e, he, hc, hr⟩ := hco
  exact ⟨e, (exec_cons_of_next hs).trans he, hc.trans hg.calls, hr⟩

theorem exec_ensure_of_true {ch : Check} (hc : ch.holds k f = some true) (r : Result) :
  (Statement.ensure ch r).exec k f = some (.next f) := by
  rw [Statement.exec, hc]
  rfl

theorem refuses_ensure {ch : Check} (hc : ch.holds k f = some false) (r : Result) :
  Refuses k (.ensure ch r :: code) f r := by
  refine ⟨{ f with returnRegister := some r }, ?_, rfl, rfl⟩
  rw [exec, Statement.exec, hc]
  rfl

end Statements

section Registers

def archArgRegisterTranslation : List (String × List (String × String)) :=
  [("amd64", [("r9", "r12"), ("r8", "r10"), ("rcx", "r9"), ("rdx", "r8")])]

def getArchRegisterForArg (arch : String) (i : ℕ) : Option String :=
  (archRegistersForArgs.lookup arch).bind fun registers ↦ registers[i]?

def kept (blocking : Bool) : Place := if blocking then .state else .stack

def handlerPart (blocking : Bool) (register name : String) : ParameterDescription → List Statement
  | .value _ => [.read ⟨kept blocking, name, .none⟩ register]
  | .token spec =>
    let handle : Variable := ⟨.stack, name, .handle⟩
    [.read ⟨.stack, name, .token⟩ register, .getHandle handle ⟨.stack, name, .token⟩,
      .ensure (.valid handle) .invalidToken,
      .ensure (.isA handle spec.derefType) .wrongHandleType] ++
    spec.requiredPermissions.map (fun perm ↦ .ensure (.hasPermissions handle perm) .notAllowed) ++
    if blocking then
      [.getAs ⟨.state, name, .holder⟩ handle spec.derefType,
        .getHolder ⟨.state, name, .none⟩ ⟨.state, name, .holder⟩]
    else [.getAs ⟨.stack, name, .none⟩ handle spec.derefType]
  | .pointer _ => [.read ⟨kept blocking, name, .addr⟩ register]

def actionPart (blocking : Bool) (name : String) : ParameterDescription → List Statement
  | .pointer spec =>
    let addr : Variable := ⟨kept blocking, name, .addr⟩
    [.lockArrayMapping ⟨.stack, name, .guard⟩ addr spec.derefType spec.isOut,
      .ensure (.locked ⟨.stack, name, .guard⟩) .invalidPointers,
      .declare ⟨.stack, name, .storage⟩ spec.derefType,
      .addressOf ⟨.stack, name, .none⟩ ⟨.stack, name, .storage⟩] ++
    if spec.isIn then [.copyIn ⟨.stack, name, .storage⟩ addr] else []
  | _ => []

def passed (blocking : Bool) : String × ParameterDescription → Variable
  | (name, .pointer _) => ⟨.stack, name, .none⟩
  | (name, _) => ⟨kept blocking, name, .none⟩

def copiedOut (blocking : Bool) : String × ParameterDescription → List Statement
  | (name, .pointer spec) =>
    if spec.isOut then [.copyOut ⟨kept blocking, name, .addr⟩ ⟨.stack, name, .storage⟩] else []
  | _ => []

abbrev Streams := HandlerCode

def Streams.write (s : Streams) (code : List Statement) : Streams :=
  { s with handler := s.handler ++ code }

def Streams.act (blocking : Bool) (s : Streams) (code : List Statement) : Streams :=
  if blocking then { s with continuation := s.continuation ++ code } else s.write code

def Streams.parameters (arch : String) (blocking : Bool) :
  ℕ → List (String × ParameterDescription) → Streams → Option Streams
  | _, [], s => some s
  | i, (name, param) :: rest, s =>
    (getArchRegisterForArg arch i).bind fun register ↦
      ((s.write (handlerPart blocking register name param)).act blocking
        (actionPart blocking name param)).parameters arch blocking (i + 1) rest

def generateHandler (arch name : String) (syscall : SyscallDescription) : Option HandlerCode :=
  let blocking := syscall.blocking
  let function := syscall.implementationScope ++ "::syscall_" ++ name ++ "_handler"
  (Streams.parameters arch blocking 0 syscall.parameters {}).map fun s ↦
    let s := s.act blocking [.call function (syscall.parameters.map (passed blocking))]
    let s := s.act blocking (if blocking then [.returnUnlessResult] else [])
    let s := s.act blocking [.returnUnlessOk]
    let s := s.write (if blocking then [.enterContinuation] else [])
    s.act blocking (syscall.parameters.flatMap (copiedOut blocking))

def stubType : ParameterDescription → String
  | .value type => "::" ++ type
  | .token _ => "::std::uintptr_t"
  | .pointer spec => (if spec.isOut then "" else "const ") ++ "::" ++ spec.derefType ++ " *"

structure Stub where
  types : List String
  number : ℕ
  moves : List (String × String)
  deriving DecidableEq

/-- The first index of the loop is a difference of sizes, which is none of the list if it is less
than zero. -/
def stubMoves (arch : String) (count : ℕ) : Option (List (String × String)) :=
  (archArgRegisterTranslation.lookup arch).bind fun translation ↦
    (archRegistersForArgs.lookup arch).map fun registers ↦
      if count ≤ registers.length then translation.drop (registers.length - count) else []

structure GeneratedSyscall where
  name : String
  stub : Stub
  code : HandlerCode
  deriving DecidableEq

def generateSyscall (arch : String) (id : ℕ) (name : String) (syscall : SyscallDescription) :
  Option GeneratedSyscall :=
  (stubMoves arch syscall.parameters.length).bind fun moves ↦
    (generateHandler arch name syscall).map fun code ↦
      ⟨name, ⟨syscall.parameters.map fun param ↦ stubType param.2, id, moves⟩, code⟩

structure GeneratorContext where
  syscalls : List (ℕ × String) := []
  generated : List GeneratedSyscall := []
  deriving DecidableEq

def assign (syscalls : List (ℕ × String)) (id : ℕ) (name : String) : List (ℕ × String) :=
  (syscalls.filter fun entry ↦ entry.1 ≠ id).orderedInsert (fun a b ↦ a.1 ≤ b.1) (id, name)

def generateSymbol (arch : String) (ids : String → Option ℕ) (g : GeneratorContext) (name : String)
  (symbol : Symbol) : Option GeneratorContext :=
  match symbol.description with
  | .syscall syscall =>
    (ids name).bind fun id ↦
      (generateSyscall arch id name syscall).map fun generated ↦
        { syscalls := assign g.syscalls id name, generated := g.generated ++ [generated] }
  | _ => some g

def GeneratorContext.syscallTable (g : GeneratorContext) : List String := g.syscalls.map Prod.snd

def syscallIds (order : List String) : String → Option ℕ :=
  order.zipIdx.foldl (fun ids entry ↦ Function.update ids entry.1 (some entry.2)) fun _ ↦ none

def Context.output (c : Context) (order : List String) : Option GeneratorContext :=
  let ids := syscallIds order
  c.symbols.foldlM (fun g entry ↦ generateSymbol c.args.arch ids g entry.1 entry.2) {}

inductive Passing
  | general (bits : ℕ) (fits : bits ≤ 64)
  | pair
  | elsewhere (bits : ℕ) (nonempty : 0 < bits)

namespace Passing

def bits : Passing → ℕ
  | general bits _ => bits
  | pair => 128
  | elsewhere bits _ => bits

def isGeneral : Passing → Bool
  | general _ _ => true
  | _ => false

end Passing

def conventionRegisters : List String := ["rdi", "rsi", "rdx", "rcx", "r8", "r9"]

/-- The registers at the entry of a function. An argument takes the next free registers; of a short
one the upper bits are not defined. -/
def Entered (regs : String → Word) : List String → List Passing → List ℕ → Prop
  | _, [], [] => True
  | r :: free, .general bits _ :: ps, v :: vs =>
    (regs r).toNat % 2 ^ bits = v ∧ Entered regs free ps vs
  | lo :: hi :: free, .pair :: ps, v :: vs =>
    (regs lo).toNat = v % 2 ^ 64 ∧ (regs hi).toNat = v / 2 ^ 64 ∧ Entered regs free ps vs
  | free, _ :: ps, _ :: vs => Entered regs free ps vs
  | _, _, _ => False

variable {regs : String → Word} {free : List String} {ps : List Passing} {vs : List ℕ}

theorem Entered.general (h : Entered regs free ps vs) (hc : ps.length ≤ free.length)
  (hg : ∀ p ∈ ps, p.isGeneral = true) {i : ℕ} {p : Passing} {v : ℕ} {r : String}
  (hp : ps[i]? = some p) (hv : vs[i]? = some v) (hr : free[i]? = some r) :
  (regs r).toNat % 2 ^ p.bits = v := by
  induction ps generalizing free vs i with
  | nil => cases hp
  | cons p' ps ih =>
    obtain ⟨hf, hre⟩ := List.forall_mem_cons.mp hg
    obtain bs | _ | _ := p'
    · obtain _ | ⟨v', vs⟩ := vs
      · cases hv
      obtain _ | ⟨r', free⟩ := free
      · cases hr
      obtain ⟨hva, he⟩ := h
      cases i with
      | zero =>
        cases hp
        cases hv
        cases hr
        exact hva
      | succ i => exact ih he (Nat.le_of_succ_le_succ hc) hre hp hv hr
    · cases hf
    · cases hf

def Passing.ones : Passing → ℕ
  | general bits _ => 1 % 2 ^ bits
  | pair => 2 ^ 64 + 1
  | elsewhere _ _ => 0

theorem Passing.ones_lt (p : Passing) : p.ones < 2 ^ p.bits := by
  cases p with
  | general bs fs => exact Nat.mod_lt _ (Nat.two_pow_pos bs)
  | pair => decide
  | elsewhere bs n => exact Nat.two_pow_pos bs

theorem entered_ones (fr : List String) (ps : List Passing) :
  Entered (fun _ ↦ 1) fr ps (ps.map Passing.ones) := by
  induction ps generalizing fr with
  | nil => trivial
  | cons p ps ih =>
    cases p with
    | general bs fs =>
      cases fr with
      | nil => exact ih []
      | cons r fr => exact ⟨rfl, ih fr⟩
    | pair =>
      obtain _ | ⟨lo, _ | ⟨hi, fr⟩⟩ := fr
      · exact ih []
      · exact ih [lo]
      · exact ⟨rfl, rfl, ih fr⟩
    | elsewhere bs n =>
      obtain _ | ⟨lo, _ | ⟨hi, fr⟩⟩ := fr <;> exact ih _

theorem Passing.isGeneral_of_ones {p : Passing} (h : 1 % 2 ^ p.bits = p.ones) :
  p.isGeneral = true := by
  cases p with
  | general bs fs => rfl
  | pair => exact absurd h (by decide)
  | elsewhere bs n =>
    change 1 % 2 ^ bs = 0 at h
    rw [Nat.mod_eq_of_lt (Nat.one_lt_two_pow n.ne')] at h
    cases h

def Stub.enter (stub : Stub) (rip rflags : Word) (regs : String → Word) : String → Word :=
  let loaded := Function.update regs "rax" (BitVec.ofNat 64 stub.number)
  let moved := stub.moves.foldl (fun regs move ↦ Function.update regs move.2 (regs move.1)) loaded
  Function.update (Function.update moved "rcx" rip) "r11" rflags

theorem stubMoves_amd64 {cn : ℕ} (hc : cn ≤ 6) : stubMoves "amd64" cn =
  some ([("r9", "r12"), ("r8", "r10"), ("rcx", "r9"), ("rdx", "r8")].drop (6 - cn)) := by
  rw [stubMoves]
  change some (if cn ≤ 6 then _ else _) = _
  rw [if_pos hc]
  rfl

theorem pairwise_stubMoves {cn : ℕ} (hc : cn ≤ 6) {ms : List (String × String)}
  (h : stubMoves "amd64" cn = some ms) : ms.Pairwise fun a b ↦ a.2 ≠ b.1 := by
  rw [stubMoves_amd64 hc, Option.some.injEq] at h
  rw [← h]
  exact List.Pairwise.sublist (List.drop_sublist _ _) (by decide)

theorem enter_register {s : Stub} {cn i : ℕ} (hc : cn ≤ 6) (hi : i < cn)
  (h : stubMoves "amd64" cn = some s.moves) {r r' : String}
  (hr : conventionRegisters[i]? = some r) (hr' : getArchRegisterForArg "amd64" i = some r')
  (ri rs : Word) (rg : String → Word) : s.enter ri rs rg r' = rg r := by
  rw [stubMoves_amd64 hc, Option.some.injEq] at h
  rw [Stub.enter, ← h]
  interval_cases cn <;> interval_cases i <;> cases hr <;> cases hr' <;> rfl

end Registers

open Foundation.Stateful List

section Compiling

variable {filename module name : String} {c c' : Context}

def syscallName : String × Symbol → Option String
  | (name, ⟨_, .syscall _⟩) => some name
  | _ => none

structure Context.Compiles (c : Context) (declarations : List Declaration) : Prop where
  names : (c.symbols.map Prod.fst).Nodup
  syscalls : c.syscalls = c.symbols.filterMap syscallName
  symbol : ∀ ast, .syscall ast ∈ declarations → ∃ module description,
    (ast.name, ⟨module, .syscall description⟩) ∈ c.symbols ∧ ast.Described c.args description
  declared : ∀ name module description, (name, ⟨module, .syscall description⟩) ∈ c.symbols →
    ∃ ast, .syscall ast ∈ declarations ∧ ast.name = name ∧ ast.Described c.args description

variable {declarations rest : List Declaration} {de : Declaration}

theorem Context.Compiles.unchanged (h : c.Compiles declarations)
  (hc : c'.compiled = c.compiled) (ho : ∀ a, de ≠ .syscall a) :
  c'.Compiles (declarations ++ [de]) := by
  simp only [Context.compiled, Prod.mk.injEq] at hc
  obtain ⟨ha, hs, hsy⟩ := hc
  constructor
  · rw [hs]
    exact h.names
  · rw [hs, hsy]
    exact h.syscalls
  · intro a hast
    rw [ha, hs]
    obtain hast | hast := mem_append.mp hast
    · exact h.symbol a hast
    · exact absurd (mem_singleton.mp hast).symm (ho a)
  · intro name module d hm
    rw [hs] at hm
    rw [ha]
    obtain ⟨a, hast, hn, hd⟩ := h.declared name module d hm
    exact ⟨a, mem_append_left _ hast, hn, hd⟩

theorem nodup_names_append {ss : List (String × Symbol)} {s : Symbol}
  (h : (ss.map Prod.fst).Nodup) (hn : ss.lookup name = none) :
  ((ss ++ [(name, s)]).map Prod.fst).Nodup := by
  rw [map_append]
  exact h.append (nodup_singleton _) (disjoint_singleton.mpr (notMem_keys hn))

theorem Context.Compiles.insertSymbol (h : c.Compiles declarations) {s : Symbol}
  (hs : ∀ d, s.description ≠ .syscall d)
  (hst : Thorn.insertSymbol name s c = .ok ((), c')) : c'.Compiles declarations := by
  obtain ⟨hn, rfl⟩ := insertSymbol_eq_ok hst
  constructor
  · exact nodup_names_append h.names hn
  · rw [filterMap_append, ← h.syscalls]
    obtain ⟨module, _ | _ | d⟩ := s
    · exact (List.append_nil _).symm
    · exact (List.append_nil _).symm
    · exact absurd rfl (hs d)
  · intro a ha
    obtain ⟨module, d, hm, hd⟩ := h.symbol a ha
    exact ⟨module, d, mem_append_left _ hm, hd⟩
  · intro name module d hm
    obtain hm | hm := mem_append.mp hm
    · exact h.declared name module d hm
    · cases mem_singleton.mp hm
      exact absurd rfl (hs d)

theorem Context.Compiles.insertSyscall (h : c.Compiles declarations) {a : ParsedSyscall}
  (hst : Thorn.insertSyscall module a c = .ok ((), c')) :
  c'.Compiles (declarations ++ [.syscall a]) := by
  obtain ⟨d, hd, -, hn, hc⟩ := insertSyscall_eq_ok hst
  simp only [Context.compiled, Prod.mk.injEq] at hc
  obtain ⟨ha, hs, hsy⟩ := hc
  constructor
  · rw [hs]
    exact nodup_names_append h.names hn
  · rw [hs, hsy, filterMap_append, ← h.syscalls]
    rfl
  · intro a' hast
    rw [ha, hs]
    obtain hast | hast := mem_append.mp hast
    · obtain ⟨module, d, hm, hd⟩ := h.symbol a' hast
      exact ⟨module, d, mem_append_left _ hm, hd⟩
    · cases mem_singleton.mp hast
      exact ⟨module, d, mem_append_right _ mem_cons_self, hd⟩
  · intro name module' d' hm
    rw [hs] at hm
    rw [ha]
    obtain hm | hm := mem_append.mp hm
    · obtain ⟨a', hast, hna, hd'⟩ := h.declared name module' d' hm
      exact ⟨a', mem_append_left _ hast, hna, hd'⟩
    · cases mem_singleton.mp hm
      exact ⟨a, mem_append_right _ mem_cons_self, rfl, hd⟩

theorem preserves_insertPermissions (l co : ℕ) (a : PermissionsDefinition) :
  Preserves Context.compiled (insertPermissions filename l co a) := by
  rw [insertPermissions]
  split
  · refine (ignoresDeps_compiled.processQualifiedName _).bind fun p ↦ ?_
    split
    · exact .throw _
    · exact Preserves.get.bind fun _ ↦ (preserves_require _ _).bind fun _ ↦ .modify fun _ ↦ rfl
  · exact Preserves.get.bind fun _ ↦ (preserves_require _ _).bind fun _ ↦ .modify fun _ ↦ rfl

theorem Context.Compiles.insertDeclaration (h : c.Compiles declarations)
  (hs : Thorn.insertDeclaration filename de c = .ok ((), c')) :
  c'.Compiles (declarations ++ [de]) := by
  cases de with
  | permissions l co a =>
    exact h.unchanged (preserves_insertPermissions l co a _ _ _ hs) (by simp)
  | enum a =>
    refine Context.Compiles.unchanged ?_ rfl (by simp)
    exact h.insertSymbol (by simp) hs
  | struct a =>
    obtain ⟨u, ms, hu, hsy⟩ := ignoresDeps_compiled.insertStruct_eq_ok hs
    exact (h.unchanged hu (by simp)).insertSymbol (by simp) hsy
  | syscall a => exact h.insertSyscall hs
  | include_ a =>
    cases hs
    exact h.unchanged rfl (by simp)

theorem compiles_of_process {args : ContextArgs}
  (h : process filename declarations { args := args } = .ok ((), c)) : c.Compiles declarations := by
  have hi : Context.Compiles { args := args } [] :=
    ⟨nodup_nil, rfl, fun _ ha ↦ absurd ha not_mem_nil, fun _ _ _ hm ↦ absurd hm not_mem_nil⟩
  exact process_induction (fun _ _ _ _ h hs ↦ h.insertDeclaration hs) hi h

def resultDeclarations : List Declaration :=
  [.permissions 3 1 (.global "read" ["write", "transfer", "clone"]),
    .enum ⟨"result", ["ok", "invalid_token", "invalid_handle", "wrong_handle_type", "not_allowed",
      "invalid_pointers", "invalid_arguments", "not_ready"]⟩]

def processStart : ParsedSyscall where
  scope := .outer "kernel" ["scheduler", "process"]
  name := "rose_process_start"
  parameters :=
    [{ name := "process", tokenPermissions := some ["write"],
       typeSpec := .outer "kernel" ["scheduler", "process"] },
      { name := "entrypoint", typeSpec := .outer "std" ["uintptr_t"] },
      { name := "top_of_stack", typeSpec := .outer "std" ["uintptr_t"] },
      { name := "bootstrap_token", typeSpec := .outer "std" ["uintptr_t"] }]
  returnType := some (.generated "result")

end Compiling

def ParameterDescription.requiresPermissions : ParameterDescription → Bool
  | .token spec => !spec.requiredPermissions.isEmpty
  | _ => false

def SyscallDescription.checksPermissions (syscall : SyscallDescription) : Bool :=
  syscall.parameters.any fun param ↦ param.2.requiresPermissions

def Parameter.requiresPermissions (param : Parameter) : Bool :=
  !(param.isIn || param.isOut) && param.tokenPermissions.any fun perms ↦ !perms.isEmpty

def ParsedSyscall.checksPermissions (ast : ParsedSyscall) : Bool :=
  ast.parameters.any Parameter.requiresPermissions

def resultType (scope : String) : String := scope ++ "::result"

def ParsedSyscall.ReturnsResult (ast : ParsedSyscall) (scope : String) : Prop :=
  ast.returnType.map (fun name ↦ name.resolved scope) = some (resultType scope)

def Context.ReportsRefusals (c : Context) : Prop :=
  ∀ name module syscall, (name, ⟨module, .syscall syscall⟩) ∈ c.symbols →
    syscall.checksPermissions = true → syscall.returnType = some (resultType c.args.scope)

def Error.IsNoResult (e : Error) : Prop := ∃ syscall, e = .noResult syscall

variable {filename module syscall name scope : String} {c c' : Context}

theorem Parameter.Described.requiresPermissions {p : Parameter} {d : ParameterDescription}
  (h : p.Described scope d) : d.requiresPermissions = p.requiresPermissions := by
  cases h with
  | pointer di =>
    rw [Parameter.requiresPermissions, di]
    rfl
  | token pe di a =>
    rw [Parameter.requiresPermissions, di, a]
    rfl
  | value di a =>
    rw [Parameter.requiresPermissions, di, a]
    rfl

theorem any_eq_of_forall₂ {α β : Type} {R : α → β → Prop} {f : α → Bool} {g : β → Bool}
  {as : List α} {bs : List β} (h : List.Forall₂ R as bs) (hR : ∀ a b, R a b → g b = f a) :
  bs.any g = as.any f := by
  induction h with
  | nil => rfl
  | cons hh _ ih => rw [any_cons, any_cons, hR _ _ hh, ih]

variable {args : ContextArgs}

theorem ParsedSyscall.Described.checksPermissions {a : ParsedSyscall}
  {d : SyscallDescription} (h : a.Described args d) : d.checksPermissions = a.checksPermissions :=
  any_eq_of_forall₂ h.parameters fun _ _ hp ↦ hp.2.requiresPermissions

theorem processParameter_flag {p : Parameter} {d : ParameterDescription} {fl : Bool}
  (h : processParameter module syscall p c = .ok ((d, fl), c')) : fl = false := by
  rw [processParameter] at h
  obtain ⟨a, u, -, hr⟩ := bind_apply_eq_ok h
  by_cases hd : (p.isIn || p.isOut) = true
  · rw [if_pos hd] at hr
    obtain ⟨ty, v, -, hp⟩ := bind_apply_eq_ok hr
    cases hp
    rfl
  · rw [if_neg hd] at hr
    cases ha : p.tokenPermissions with
    | some pe =>
      rw [ha] at hr
      obtain ⟨re, v, -, hp⟩ := bind_apply_eq_ok hr
      cases hp
      rfl
    | none =>
      rw [ha] at hr
      obtain ⟨ty, v, -, hp⟩ := bind_apply_eq_ok hr
      cases hp
      rfl

section Errors

theorem avoids_require (co : Bool) {e : Error} (h : ¬ e.IsNoResult) :
  Avoids Error.IsNoResult (require co e) :=
  .ite (.pure _) (.throw h)

theorem avoids_addDependency (d : String) : Avoids Error.IsNoResult (addDependency module d) :=
  .ite (.pure _) (.modify _)

theorem avoids_processQualifiedName (a : QualifiedName) :
  Avoids Error.IsNoResult (processQualifiedName module a) := by
  refine .ite (Avoids.get.bind fun _ c _ _ ↦ ?_) (.pure _)
  split
  · exact .pure _
  · exact (avoids_addDependency _).bind fun _ _ _ _ ↦ Avoids.get.bind fun _ _ _ _ ↦ .pure _

theorem avoids_of_lookup {a : QualifiedName} {α : Type} {k : Option String → ThornM α}
  (hn : Avoids Error.IsNoResult (k none)) (hs : ∀ ty, Avoids Error.IsNoResult (k (some ty))) :
  Avoids Error.IsNoResult (processQualifiedName module a >>= k) := by
  refine (avoids_processQualifiedName a).bind fun _ p _ _ ↦ ?_
  cases p with
  | none => exact hn
  | some ty => exact hs ty

theorem avoids_insertSymbol (s : Symbol) : Avoids Error.IsNoResult (insertSymbol name s) :=
  Avoids.get.bind fun _ _ _ _ ↦
    (avoids_require _ (by simp [Error.IsNoResult])).bind fun _ _ _ _ ↦ .modify _

theorem avoids_processMemberType {s m : String} (a : QualifiedName) :
  Avoids Error.IsNoResult (processMemberType module s m a) :=
  avoids_of_lookup (.throw (by simp [Error.IsNoResult])) fun _ ↦ .pure _

theorem avoids_insertStruct (a : ParsedStruct) :
  Avoids Error.IsNoResult (insertStruct module a) := by
  refine (Avoids.mapM (fun m ↦ ?_) _).bind fun _ _ _ _ ↦ avoids_insertSymbol _
  split
  · exact (avoids_processMemberType _).bind fun _ _ _ _ ↦ .pure _
  · refine (Avoids.mapM (fun u ↦ ?_) _).bind fun _ _ _ _ ↦ .pure _
    exact (avoids_processMemberType _).bind fun _ _ _ _ ↦ .pure _

theorem avoids_processParameterType (p : Parameter) :
  Avoids Error.IsNoResult (processParameterType module syscall p) :=
  avoids_of_lookup (.throw (by simp [Error.IsNoResult])) fun _ ↦ .pure _

theorem avoids_processParameter (p : Parameter) :
  Avoids Error.IsNoResult (processParameter module syscall p) := by
  refine (avoids_require _ (by simp [Error.IsNoResult])).bind fun _ _ _ _ ↦ .ite ?_ ?_
  · exact (avoids_processParameterType p).bind fun _ _ _ _ ↦ .pure _
  · split
    · refine (Avoids.mapM (fun pe ↦ ?_) _).bind fun _ _ _ _ ↦ .pure _
      exact Avoids.get.bind fun _ _ _ _ ↦
        (avoids_require _ (by simp [Error.IsNoResult])).bind fun _ _ _ _ ↦ .pure _
    · exact (avoids_processParameterType p).bind fun _ _ _ _ ↦ .pure _

theorem avoids_checkParameterCount (ar : String) (cn : ℕ) :
  Avoids Error.IsNoResult (checkParameterCount syscall ar cn) := by
  rw [checkParameterCount]
  split
  · exact .throw (by simp [Error.IsNoResult])
  · exact avoids_require _ (by simp [Error.IsNoResult])

theorem avoids_processReturnType (a : Option QualifiedName) :
  Avoids Error.IsNoResult (processReturnType module syscall a) := by
  cases a with
  | none => exact .pure _
  | some ty => exact avoids_of_lookup (.throw (by simp [Error.IsNoResult])) fun _ ↦ .pure _

theorem flags_eq_false {a : ParsedSyscall}
  {parameters : List (String × ParameterDescription × Bool)}
  (h : (a.parameters.mapM fun p ↦ do
    return (p.name, ← processParameter module a.name p)) c = .ok (parameters, c')) :
  (parameters.any fun p ↦ p.2.2) = false := by
  have hf : List.Forall₂ (fun _ p ↦ p.2.2 = false) a.parameters parameters := by
    refine forall₂_of_mapM_eq_ok (f := fun _ : Context ↦ ()) (fun _ _ _ _ _ ↦ rfl) ?_ h
    rintro p u b v - hpa
    obtain ⟨⟨d, fl⟩, w, hp, hpu⟩ := bind_apply_eq_ok hpa
    cases hpu
    exact processParameter_flag hp
  rw [any_eq_of_forall₂ (f := fun _ ↦ false) hf fun _ _ hfl ↦ hfl]
  simp

theorem avoids_insertSyscall (a : ParsedSyscall) :
  Avoids Error.IsNoResult (insertSyscall module a) := by
  refine Avoids.get.bind fun _ c _ _ ↦ (avoids_checkParameterCount _ _).bind fun _ _ _ _ ↦ ?_
  refine (Avoids.mapM (fun pa ↦ ?_) _).bind fun _ p _ hp ↦ ?_
  · exact (avoids_processParameter pa).bind fun _ _ _ _ ↦ .pure _
  refine (avoids_processReturnType _).bind fun _ re _ _ ↦ ?_
  rw [flags_eq_false hp]
  refine Avoids.bind (.pure _) fun _ _ _ _ ↦ ?_
  exact (avoids_insertSymbol _).bind fun _ _ _ _ ↦ .modify _

theorem avoids_insertPermissions (l co : ℕ) (a : PermissionsDefinition) :
  Avoids Error.IsNoResult (insertPermissions filename l co a) := by
  rw [insertPermissions]
  split
  · refine avoids_of_lookup (.throw (by simp [Error.IsNoResult])) fun ty ↦ ?_
    exact Avoids.get.bind fun _ _ _ _ ↦
      (avoids_require _ (by simp [Error.IsNoResult])).bind fun _ _ _ _ ↦ .modify _
  · exact Avoids.get.bind fun _ _ _ _ ↦
      (avoids_require _ (by simp [Error.IsNoResult])).bind fun _ _ _ _ ↦ .modify _

theorem avoids_insertDeclaration (de : Declaration) :
  Avoids Error.IsNoResult (insertDeclaration filename de) := by
  cases de with
  | permissions l co a => exact avoids_insertPermissions l co a
  | enum a => exact avoids_insertSymbol _
  | struct a => exact avoids_insertStruct a
  | syscall a => exact avoids_insertSyscall a
  | include_ a => exact .modify _

theorem avoids_process (ds : List Declaration) : Avoids Error.IsNoResult (process filename ds) := by
  induction ds with
  | nil => exact .pure _
  | cons de rest ih => exact (avoids_insertDeclaration de).bind fun _ _ _ _ ↦ ih

end Errors

variable {declarations : List Declaration} {de : Declaration}

def Context.Returns (c : Context) (declarations : List Declaration) : Prop :=
  ∀ ast, .syscall ast ∈ declarations → ∃ module description,
    (ast.name, ⟨module, .syscall description⟩) ∈ c.symbols ∧
    description.returnType = ast.returnType.map (fun name ↦ name.resolved c.args.scope)

theorem Context.Returns.grow (h : c.Returns declarations) (ha : c'.args = c.args)
  (hs : ∀ s ∈ c.symbols, s ∈ c'.symbols)
  (ho : ∀ a, de ≠ .syscall a) : c'.Returns (declarations ++ [de]) := by
  intro a hast
  obtain hast | hast := mem_append.mp hast
  · obtain ⟨module, d, hm, hr⟩ := h a hast
    exact ⟨module, d, hs _ hm, ha ▸ hr⟩
  · exact absurd (mem_singleton.mp hast).symm (ho a)

theorem Context.Returns.insertDeclaration (h : c.Returns declarations)
  (hs : Thorn.insertDeclaration filename de c = .ok ((), c')) :
  c'.Returns (declarations ++ [de]) := by
  cases de with
  | permissions l co a =>
    have hk := preserves_insertPermissions l co a _ _ _ hs
    simp only [Context.compiled, Prod.mk.injEq] at hk
    exact h.grow hk.1 (fun s hm ↦ hk.2.1 ▸ hm) (by simp)
  | enum a =>
    obtain ⟨-, rfl⟩ := insertSymbol_eq_ok hs
    exact h.grow rfl (fun s hm ↦ mem_append_left _ hm) (by simp)
  | struct a =>
    obtain ⟨u, ms, hu, hsy⟩ := ignoresDeps_compiled.insertStruct_eq_ok hs
    obtain ⟨-, rfl⟩ := insertSymbol_eq_ok hsy
    simp only [Context.compiled, Prod.mk.injEq] at hu
    exact h.grow hu.1 (fun s hm ↦ mem_append_left _ (hu.2.1 ▸ hm)) (by simp)
  | syscall a =>
    obtain ⟨d, -, hr, -, hc⟩ := insertSyscall_eq_ok hs
    simp only [Context.compiled, Prod.mk.injEq] at hc
    obtain ⟨ha, hsm, -⟩ := hc
    intro a' hast
    rw [ha, hsm]
    obtain hast | hast := mem_append.mp hast
    · obtain ⟨module, d, hm, hr⟩ := h a' hast
      exact ⟨module, d, mem_append_left _ hm, hr⟩
    · cases mem_singleton.mp hast
      exact ⟨_, d, mem_append_right _ mem_cons_self, hr⟩
  | include_ a =>
    cases hs
    exact h.grow rfl (fun s hm ↦ hm) (by simp)

theorem returns_of_process (h : process filename declarations { args := args } = .ok ((), c)) :
  c.Returns declarations :=
  process_induction (P := Context.Returns) (fun _ _ _ _ h hs ↦ h.insertDeclaration hs)
    (fun _ ha ↦ absurd ha not_mem_nil) h

theorem returnType_of_mem (h : process filename declarations { args := args } = .ok ((), c))
  {a : ParsedSyscall} (ha : .syscall a ∈ declarations) {d : SyscallDescription}
  (hm : (a.name, ⟨module, .syscall d⟩) ∈ c.symbols) :
  d.returnType = a.returnType.map (fun name ↦ name.resolved c.args.scope) := by
  obtain ⟨module', d', hm', hr⟩ := returns_of_process h a ha
  have hs := inj_on_of_nodup_map (compiles_of_process h).names hm' hm rfl
  cases hs
  exact hr

theorem reportsRefusals_iff (filename : String) (args : ContextArgs)
    (declarations : List Declaration) :
    (∀ e, process filename declarations { args := args } = .error e → ¬ e.IsNoResult) ∧
      ∀ c, process filename declarations { args := args } = .ok ((), c) →
        (c.ReportsRefusals ↔ ∀ ast, .syscall ast ∈ declarations →
          ast.checksPermissions = true → ast.ReturnsResult c.args.scope) := by
  refine ⟨fun e he ↦ avoids_process declarations _ e he, fun c hp ↦ ?_⟩
  have hco := compiles_of_process hp
  constructor
  · intro hr ast ha hc
    obtain ⟨module, description, hm, hd⟩ := hco.symbol ast ha
    rw [ParsedSyscall.ReturnsResult, ← returnType_of_mem hp ha hm]
    exact hr ast.name module description hm (hd.checksPermissions.trans hc)
  · intro hde name module description hm hc
    obtain ⟨ast, ha, rfl, hd⟩ := hco.declared name module description hm
    rw [returnType_of_mem hp ha hm]
    exact hde ast ha (hd.checksPermissions.symm.trans hc)

theorem reportsRefusals_processStart :
  ∃ c, process "meta" (resultDeclarations ++ [.syscall processStart])
  { args := ⟨"rose::syscall", "amd64"⟩ } = .ok ((), c) ∧ c.ReportsRefusals := by
  refine ⟨_, rfl, ((reportsRefusals_iff "meta" ⟨"rose::syscall", "amd64"⟩
    (resultDeclarations ++ [.syscall processStart])).2 _ rfl).mpr ?_⟩
  intro a ha _
  simp only [resultDeclarations, cons_append, nil_append, mem_cons, reduceCtorEq,
    Declaration.syscall.injEq, not_mem_nil, or_false, false_or] at ha
  subst ha
  rfl

def processKill : ParsedSyscall where
  scope := .outer "kernel" ["scheduler", "process"]
  name := "rose_process_kill"
  parameters :=
    [{ name := "process", tokenPermissions := some ["write"],
       typeSpec := .outer "kernel" ["scheduler", "process"] }]

theorem processKill_accepted : ∃ c, process "meta" (resultDeclarations ++ [.syscall processKill])
  { args := ⟨"rose::syscall", "amd64"⟩ } = .ok ((), c) ∧
  (∃ module syscall code, ("rose_process_kill", ⟨module, .syscall syscall⟩) ∈ c.symbols ∧
  syscall.checksPermissions = true ∧ syscall.returnType = none ∧
  generateHandler "amd64" "rose_process_kill" syscall = some code ∧
  .ensure (.hasPermissions ⟨.stack, "process", .handle⟩ "write") .notAllowed ∈ code.handler) ∧
  ¬ c.ReportsRefusals := by
  have hm : ("rose_process_kill", (⟨"meta", .syscall ⟨"kernel::scheduler::process",
    [("process", .token ⟨["write"], "kernel::scheduler::process"⟩)], none, false⟩⟩ : Symbol)) ∈
    [("result", ⟨"meta", .enum ["ok", "invalid_token", "invalid_handle", "wrong_handle_type",
    "not_allowed", "invalid_pointers", "invalid_arguments", "not_ready"].zipIdx⟩),
    ("rose_process_kill", (⟨"meta", .syscall ⟨"kernel::scheduler::process",
    [("process", .token ⟨["write"], "kernel::scheduler::process"⟩)], none, false⟩⟩ :
    Symbol))] := List.mem_cons_of_mem _ List.mem_cons_self
  refine ⟨_, rfl, ⟨"meta", _, _, hm, rfl, rfl, rfl, by decide⟩, fun h ↦ ?_⟩
  exact absurd (h "rose_process_kill" "meta" _ hm rfl) (by simp)

end ReaverOS.Thorn
