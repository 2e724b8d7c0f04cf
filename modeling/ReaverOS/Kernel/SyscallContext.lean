import ReaverOS.Thorn.Arguments

namespace ReaverOS.Kernel.Syscalls

section

abbrev Word := BitVec 64

structure ThreadContext where
  rax : Word := 0
  rbx : Word := 0
  rcx : Word := 0
  rdx : Word := 0
  rsi : Word := 0
  rdi : Word := 0
  rsp : Word := 0
  rbp : Word := 0
  r8 : Word := 0
  r9 : Word := 0
  r10 : Word := 0
  r11 : Word := 0
  r12 : Word := 0
  r13 : Word := 0
  r14 : Word := 0
  r15 : Word := 0
  cs : Word := 0x8
  ss : Word := 0x10
  rip : Word := 0
  rflags : Word := 1 <<< 9
  canSysret : Bool := false

structure IretFrame where
  rip : Word := 0
  cs : Word := 0x1b
  rflags : Word := 0
  rsp : Word := 0
  ss : Word := 0x23

structure Context where
  r15 : Word := 0
  r14 : Word := 0
  r13 : Word := 0
  r12 : Word := 0
  rflags : Word := 0
  r10 : Word := 0
  r9 : Word := 0
  r8 : Word := 0
  rbp : Word := 0
  rdi : Word := 0
  rsi : Word := 0
  userRsp : Word := 0
  userRip : Word := 0
  rbx : Word := 0
  rax : Word := 0
  iret : IretFrame := {}

def kernelSpace : Word := 0x8000000000000000

namespace Context

def saveTo (f : Context) (ctx : ThreadContext) : ThreadContext :=
  { ctx with
    r15 := f.r15, r14 := f.r14, r13 := f.r13, r12 := f.r12, rflags := f.rflags, r10 := f.r10
    r9 := f.r9, r8 := f.r8, rbp := f.rbp, rdi := f.rdi, rsi := f.rsi, rsp := f.userRsp
    rip := f.userRip, rbx := f.rbx, rax := f.rax
    cs := if f.userRip < kernelSpace then 0x1b else 0x8
    ss := if f.userRip < kernelSpace then 0x23 else 0x10
    canSysret := f.userRip < kernelSpace }

def loadFrom (f : Context) (ctx : ThreadContext) : Context where
  r15 := ctx.r15
  r14 := ctx.r14
  r13 := ctx.r13
  r12 := ctx.r12
  rflags := if ctx.canSysret then ctx.rflags else ctx.r11
  r10 := ctx.r10
  r9 := ctx.r9
  r8 := ctx.r8
  rbp := ctx.rbp
  rdi := ctx.rdi
  rsi := ctx.rsi
  userRsp := if ctx.canSysret then ctx.rsp else ctx.rdx
  userRip := if ctx.canSysret then ctx.rip else ctx.rcx
  rbx := ctx.rbx
  rax := ctx.rax
  iret := if ctx.canSysret then f.iret else ⟨ctx.rip, ctx.cs, ctx.rflags, ctx.rsp, ctx.ss⟩

def checkKernelSpace (f : Context) : Context :=
  if f.iret.rip = 0 ∧ kernelSpace ≤ f.userRip then
    { f with iret := ⟨f.userRip, 0x8, f.rflags, f.userRsp, 0x10⟩ }
  else f

end Context

structure IrqContext where
  rax : Word := 0
  rbx : Word := 0
  rcx : Word := 0
  rdx : Word := 0
  rsi : Word := 0
  rdi : Word := 0
  rbp : Word := 0
  r8 : Word := 0
  r9 : Word := 0
  r10 : Word := 0
  r11 : Word := 0
  r12 : Word := 0
  r13 : Word := 0
  r14 : Word := 0
  r15 : Word := 0
  rip : Word := 0
  rflags : Word := 0
  rsp : Word := 0

def IrqContext.saveTo (f : IrqContext) (thctx : ThreadContext) : ThreadContext :=
  { thctx with
    rax := f.rax, rbx := f.rbx, rcx := f.rcx, rdx := f.rdx, rsi := f.rsi, rdi := f.rdi
    rbp := f.rbp, rsp := f.rsp, r8 := f.r8, r9 := f.r9, r10 := f.r10, r11 := f.r11
    r12 := f.r12, r13 := f.r13, r14 := f.r14, r15 := f.r15, rip := f.rip, rflags := f.rflags
    cs := if f.rip < kernelSpace then 0x1b else 0x8
    ss := if f.rip < kernelSpace then 0x23 else 0x10
    canSysret := false }

structure Thread where
  context : ThreadContext := {}
  continuation : Option (Word → Word × Bool) := none

def Thread.invokeContinuation (t : Thread) (returnRegister : Word) : Word × Bool :=
  match t.continuation with
  | some c => c returnRegister
  | none => (returnRegister, true)

def resumeLoop (f : Context) : List Thread → Option Context
  | [] => none
  | t :: ts =>
    let loaded := f.loadFrom t.context
    let (rax, finished) := t.invokeContinuation loaded.rax
    if finished then some { loaded with rax := rax }
    else resumeLoop { loaded with rax := rax } ts

def switchTo (f : Context) (threads : List Thread) : Option Context :=
  (resumeLoop f threads).map Context.checkKernelSpace

structure Cpu where
  rax : Word
  rbx : Word
  rcx : Word
  rdx : Word
  rsi : Word
  rdi : Word
  rbp : Word
  r8 : Word
  r9 : Word
  r10 : Word
  r11 : Word
  r12 : Word
  r13 : Word
  r14 : Word
  r15 : Word
  rip : Word
  cs : Word
  rflags : Word
  rsp : Word
  ss : Word

def Cpu.privilege (c : Cpu) : Word := c.cs &&& 3

def popRegisters (f : Context) (frame : IretFrame) : Cpu where
  r15 := f.r15
  r14 := f.r14
  r13 := f.r13
  r12 := f.r12
  r11 := f.rflags
  r10 := f.r10
  r9 := f.r9
  r8 := f.r8
  rbp := f.rbp
  rdi := f.rdi
  rsi := f.rsi
  rdx := f.userRsp
  rcx := f.userRip
  rbx := f.rbx
  rax := f.rax
  rip := frame.rip
  cs := frame.cs
  rflags := frame.rflags
  rsp := frame.rsp
  ss := frame.ss

def ia32Star : Word := (0x8 <<< 32) ||| (0x8 <<< 48)

def sysretFrame (f : Context) : IretFrame where
  rip := f.userRip
  cs := ((ia32Star >>> 48) + 16) ||| 3
  rflags := f.rflags
  rsp := f.userRsp
  ss := ((ia32Star >>> 48) + 8) ||| 3

def exitStub (f : Context) : Cpu :=
  if f.iret.rip = 0 then popRegisters f (sysretFrame f) else popRegisters f f.iret

open Thorn (GeneratorContext GeneratedSyscall)

def syscallCount (g : GeneratorContext) : ℕ := g.syscalls.length

abbrev Handlers := String → Context → Context × List Thread

inductive Outcome
  | panic
  | returned (handler : String) (frame : Option Context)
  | outsideTable (index : ℕ)

def syscallHandler (g : GeneratorContext) (handlers : Handlers) (ctx : Context) : Outcome :=
  if ctx.rax.toNat > syscallCount g then .panic
  else
    match g.syscallTable[ctx.rax.toNat]? with
    | none => .outsideTable ctx.rax.toNat
    | some handler =>
      let (frame, threads) := handlers handler ctx
      if threads.isEmpty then .returned handler (some frame.checkKernelSpace)
      else .returned handler (switchTo frame threads)

def Outcome.Checked (g : GeneratorContext) (number : ℕ) : Outcome → Prop
  | .panic => True
  | .returned handler _ => number < syscallCount g ∧ g.syscallTable[number]? = some handler
  | .outsideTable _ => False

variable {g : GeneratorContext} {handlers : Handlers} {ctx : Context}

theorem length_syscallTable (g : GeneratorContext) : g.syscallTable.length = syscallCount g :=
  List.length_map _

theorem syscallHandler_of_entry (hs : Handlers) {h : String}
  (he : g.syscallTable[ctx.rax.toNat]? = some h) :
  ∃ frame, syscallHandler g hs ctx = .returned h frame := by
  have hlt := (List.getElem?_eq_some_iff.mp he).1
  rw [length_syscallTable] at hlt
  rw [syscallHandler, if_neg (by omega), he]
  dsimp only
  split
  · exact ⟨_, rfl⟩
  · exact ⟨_, rfl⟩

theorem syscallHandler_checked_iff (g : GeneratorContext) (handlers : Handlers) (ctx : Context) :
    (syscallHandler g handlers ctx).Checked g ctx.rax.toNat ↔ ctx.rax.toNat ≠ syscallCount g := by
  obtain hl | hq | hgt := lt_trichotomy ctx.rax.toNat (syscallCount g)
  · have he := List.getElem?_eq_getElem (hl.trans_eq (length_syscallTable g).symm)
    obtain ⟨fr, hc⟩ := syscallHandler_of_entry handlers he
    rw [hc]
    exact iff_of_true ⟨hl, he⟩ hl.ne
  · have hn : g.syscallTable[ctx.rax.toNat]? = none := by
      rw [List.getElem?_eq_none_iff, length_syscallTable, hq]
    rw [syscallHandler, if_neg (by omega), hn]
    exact iff_of_false id (fun h ↦ h hq)
  · rw [syscallHandler, if_pos hgt]
    exact iff_of_true trivial hgt.ne'

theorem syscallHandler_reads_outside :
    ∃ c, Thorn.process "meta" (Thorn.resultDeclarations ++ [.syscall Thorn.processStart])
        { args := ⟨"rose::syscall", "amd64"⟩ } = .ok ((), c) ∧
      ∃ g, c.output ["rose_process_start"] = some g ∧ syscallCount g = 1 ∧
        syscallHandler g (fun _ f ↦ (f, [])) { rax := 1 } = .outsideTable 1 :=
  ⟨_, rfl, _, rfl, rfl, rfl⟩

end

open List

inductive Saved : ThreadContext → Prop where
  | syscall (f : Context) (ctx : ThreadContext) : Saved (f.saveTo ctx)
  | irq (f : IrqContext) (ctx : ThreadContext) : Saved (f.saveTo ctx)

structure Resumes (cpu : Cpu) (t : Thread) : Prop where
  rip : cpu.rip = t.context.rip
  rsp : cpu.rsp = t.context.rsp
  rflags : cpu.rflags = t.context.rflags
  privilege : cpu.privilege = t.context.cs &&& 3
  rax : cpu.rax = (t.invokeContinuation t.context.rax).1
  rbx : cpu.rbx = t.context.rbx
  rsi : cpu.rsi = t.context.rsi
  rdi : cpu.rdi = t.context.rdi
  rbp : cpu.rbp = t.context.rbp
  r8 : cpu.r8 = t.context.r8
  r9 : cpu.r9 = t.context.r9
  r10 : cpu.r10 = t.context.r10
  r12 : cpu.r12 = t.context.r12
  r13 : cpu.r13 = t.context.r13
  r14 : cpu.r14 = t.context.r14
  r15 : cpu.r15 = t.context.r15
  rcx : cpu.rcx = if t.context.canSysret then t.context.rip else t.context.rcx
  rdx : cpu.rdx = if t.context.canSysret then t.context.rsp else t.context.rdx
  r11 : cpu.r11 = if t.context.canSysret then t.context.rflags else t.context.r11

def lastIret : List Thread → Option ThreadContext
  | [] => none
  | t :: ts => (lastIret ts).or (if t.context.canSysret then none else some t.context)

/-- A context with `can_sysret` is loaded over no context without it, or over one that would
resume at the same place. -/
def Unmixed (earlier : List Thread) (last : Thread) : Prop :=
  last.context.canSysret = true → ∀ c, lastIret earlier = some c →
    c.rip = last.context.rip ∧ c.rsp = last.context.rsp ∧ c.rflags = last.context.rflags

variable {f g : Context} {ctx c : ThreadContext} {t last : Thread} {earlier ts : List Thread}

def ThreadContext.frame (ctx : ThreadContext) : IretFrame :=
  ⟨ctx.rip, ctx.cs, ctx.rflags, ctx.rsp, ctx.ss⟩

theorem lastIret_some (h : lastIret ts = some c) : ∃ t ∈ ts, t.context = c := by
  induction ts with
  | nil => cases h
  | cons t ts ih =>
    rcases Option.or_eq_some_iff.mp h with ht | ⟨_, hh⟩
    · obtain ⟨u, hu, he⟩ := ih ht
      exact ⟨u, mem_cons_of_mem _ hu, he⟩
    · obtain ⟨_, he⟩ := Option.ite_none_left_eq_some.mp hh
      exact ⟨t, mem_cons_self, Option.some.inj he⟩

theorem Saved.cs (h : Saved ctx) : ctx.cs = if ctx.rip < kernelSpace then 0x1b else 0x8 := by
  cases h <;> rfl

theorem Saved.user (h : Saved ctx) (hs : ctx.canSysret = true) : ctx.rip < kernelSpace := by
  cases h with
  | syscall f ctx => exact of_decide_eq_true hs
  | irq f ctx => cases hs

def iteration (f : Context) (t : Thread) : Context :=
  { f.loadFrom t.context with rax := (t.invokeContinuation t.context.rax).1 }

theorem iteration_iret :
  (iteration f t).iret = if t.context.canSysret then f.iret else t.context.frame := rfl

theorem resumeLoop_finished (h : (t.invokeContinuation t.context.rax).2 = true) :
  resumeLoop f (t :: ts) = some (iteration f t) :=
  if_pos h

theorem resumeLoop_unfinished (h : (t.invokeContinuation t.context.rax).2 = false) :
  resumeLoop f (t :: ts) = resumeLoop (iteration f t) ts :=
  if_neg (Bool.eq_false_iff.mp h)

theorem resumeLoop_append (h : ∀ t ∈ earlier, (t.invokeContinuation t.context.rax).2 = false) :
  ∃ g, g.iret = ((lastIret earlier).map ThreadContext.frame).getD f.iret ∧
  ∀ ts, resumeLoop f (earlier ++ ts) = resumeLoop g ts := by
  induction earlier generalizing f with
  | nil => exact ⟨f, rfl, fun _ ↦ rfl⟩
  | cons t earlier ih =>
    obtain ⟨ht, hr⟩ := forall_mem_cons.mp h
    obtain ⟨g, hi, hl⟩ := ih (f := iteration f t) hr
    refine ⟨g, ?_, fun ts ↦ (resumeLoop_unfinished ht).trans (hl ts)⟩
    rw [hi, iteration_iret, lastIret]
    cases lastIret earlier with
    | some c => rfl
    | none => cases t.context.canSysret <;> rfl

theorem resumes_iff (fr : IretFrame) : Resumes (popRegisters (iteration f t) fr) t ↔
  fr.rip = t.context.rip ∧ fr.rsp = t.context.rsp ∧ fr.rflags = t.context.rflags ∧
  fr.cs &&& 3 = t.context.cs &&& 3 := by
  refine ⟨fun h ↦ ⟨h.rip, h.rsp, h.rflags, h.privilege⟩, fun ⟨hri, hrs, hr, hcs⟩ ↦ ?_⟩
  exact ⟨hri, hrs, hr, hcs, rfl, rfl, rfl, rfl, rfl, rfl, rfl, rfl, rfl, rfl, rfl, rfl, rfl,
    rfl, rfl⟩

theorem exit_of_iret (h : f.iret.rip ≠ 0) :
  exitStub f.checkKernelSpace = popRegisters f f.iret := by
  rw [Context.checkKernelSpace, if_neg fun hz ↦ h hz.1, exitStub, if_neg h]

theorem exit_of_user (h : f.iret.rip = 0) (hu : f.userRip < kernelSpace) :
  exitStub f.checkKernelSpace = popRegisters f (sysretFrame f) := by
  rw [Context.checkKernelSpace, if_neg fun hk ↦ BitVec.not_le.mpr hu hk.2, exitStub, if_pos h]

theorem sysretFrame_cs : (sysretFrame f).cs = 0x1b := by
  have hs : ((ia32Star >>> 48) + 16) ||| 3 = 0x1b := by decide
  exact hs

theorem resumes_of_iret (hs : last.context.canSysret = false) (hr : last.context.rip ≠ 0) :
  Resumes (exitStub (iteration f last).checkKernelSpace) last := by
  have hf : (iteration f last).iret = last.context.frame := by
    rw [iteration_iret, hs]
    rfl
  rw [exit_of_iret (by rwa [hf]), resumes_iff, hf]
  exact ⟨rfl, rfl, rfl, rfl⟩

theorem resumes_of_sysret (hs : last.context.canSysret = true) (h : Saved last.context)
  (hi : f.iret.rip = 0) : Resumes (exitStub (iteration f last).checkKernelSpace) last := by
  have hf : (iteration f last).iret = f.iret := by rw [iteration_iret, if_pos hs]
  have hus := h.user hs
  have hu : (iteration f last).userRip = last.context.rip := if_pos hs
  rw [exit_of_user (by rwa [hf]) (by rwa [hu]), resumes_iff, sysretFrame_cs, h.cs, if_pos hus]
  exact ⟨hu, if_pos hs, if_pos hs, rfl⟩

theorem resumes_over_iret (hs : last.context.canSysret = true) (hsa : Saved last.context)
  (hc : Saved c) (h : c.rip ≠ 0) (hi : f.iret = c.frame) :
  Resumes (exitStub (iteration f last).checkKernelSpace) last ↔
  c.rip = last.context.rip ∧ c.rsp = last.context.rsp ∧ c.rflags = last.context.rflags := by
  have hf : (iteration f last).iret = c.frame := by rw [iteration_iret, if_pos hs, hi]
  rw [exit_of_iret (by rwa [hf]), resumes_iff, hf]
  refine ⟨fun ⟨h, hrs, hr, _⟩ ↦ ⟨h, hrs, hr⟩, fun ⟨h, hrs, hr⟩ ↦ ?_⟩
  have hcs : c.cs = last.context.cs := by rw [hc.cs, hsa.cs, h]
  exact ⟨h, hrs, hr, congrArg (· &&& 3) hcs⟩

theorem switch_resumes_iff (f : Context) (earlier : List Thread) (last : Thread)
    (hf : f.iret.rip = 0) (hsaved : ∀ t ∈ earlier ++ [last], Saved t.context ∧ t.context.rip ≠ 0)
    (hearlier : ∀ t ∈ earlier, (t.invokeContinuation t.context.rax).2 = false)
    (hlast : (last.invokeContinuation last.context.rax).2 = true) :
    ∃ g, switchTo f (earlier ++ [last]) = some g ∧
      (Resumes (exitStub g) last ↔ Unmixed earlier last) := by
  obtain ⟨g, hi, hlo⟩ := resumeLoop_append (f := f) hearlier
  obtain ⟨hl, hla⟩ := hsaved last (by simp)
  refine ⟨(iteration g last).checkKernelSpace, ?_, ?_⟩
  · rw [switchTo, hlo, resumeLoop_finished hlast]
    rfl
  cases hs : last.context.canSysret with
  | false =>
    refine iff_of_true (resumes_of_iret hs hla) fun htr ↦ ?_
    cases hs.symm.trans htr
  | true =>
    cases hm : lastIret earlier with
    | none =>
      rw [hm] at hi
      refine iff_of_true (resumes_of_sysret hs hl (hi ▸ hf)) fun _ c hc ↦ ?_
      cases hm.symm.trans hc
    | some c =>
      rw [hm] at hi
      obtain ⟨t, ht, rfl⟩ := lastIret_some hm
      obtain ⟨hc, hcR⟩ := hsaved t (mem_append_left _ ht)
      rw [resumes_over_iret hs hl hc hcR hi]
      refine ⟨fun hsa _ c hc ↦ ?_, fun h ↦ h hs _ hm⟩
      cases hm.symm.trans hc
      exact hsa

def userThread : Thread where
  context := ({ userRip := 0x500000, userRsp := 0x9000, rflags := 0x202 } : Context).saveTo {}

def kernelThread : Thread where
  context :=
    ({ userRip := 0xffff800000001000, userRsp := 0xffff800000009000, rflags := 0x202 } :
      Context).saveTo {}

def waiting (t : Thread) : Thread := { t with continuation := some fun rax ↦ (rax, false) }

theorem switch_resumes_kernelThread : ∃ g,
  switchTo {} ([waiting userThread] ++ [kernelThread]) = some g ∧
  Resumes (exitStub g) kernelThread := by
  have hsa : ∀ t ∈ [waiting userThread, kernelThread], Saved t.context ∧ t.context.rip ≠ 0 := by
    refine List.forall_mem_cons.mpr ⟨⟨.syscall _ _, by decide⟩, ?_⟩
    exact List.forall_mem_singleton.mpr ⟨.syscall _ _, by decide⟩
  have hw : ∀ t ∈ [waiting userThread], (t.invokeContinuation t.context.rax).2 = false :=
    List.forall_mem_singleton.mpr rfl
  obtain ⟨g, hg, hi⟩ := switch_resumes_iff {} [waiting userThread] kernelThread rfl hsa hw rfl
  refine ⟨g, hg, hi.mpr fun hs ↦ ?_⟩
  cases hs

theorem not_switch_resumes : ∃ g, switchTo {} [waiting kernelThread, userThread] = some g ∧
    ¬ Resumes (exitStub g) userThread ∧ (exitStub g).rip = kernelThread.context.rip ∧
      (exitStub g).privilege = 0 := by
  refine ⟨_, rfl, fun h ↦ ?_, by decide, by decide⟩
  exact absurd h.rip (by decide)

end ReaverOS.Kernel.Syscalls
