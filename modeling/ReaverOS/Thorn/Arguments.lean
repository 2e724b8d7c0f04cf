import ReaverOS.Thorn.ParameterChecks

namespace ReaverOS.Thorn

open List

section

variable {arch name : String} {abi : String → Passing} {s : GeneratedSyscall}

def Statement.read? : Statement → Option (Variable × String)
  | .read x register => some (x, register)
  | _ => none

def readVariable (blocking : Bool) : String × ParameterDescription → Variable
  | (name, .value _) => ⟨kept blocking, name, .none⟩
  | (name, .token _) => ⟨.stack, name, .token⟩
  | (name, .pointer _) => ⟨kept blocking, name, .addr⟩

theorem filterMap_mainPart (b : Bool) (e : Entry) :
  (mainPart b e).filterMap Statement.read? = [(readVariable b e.1, e.2)] := by
  obtain ⟨⟨name, ty | sp | ⟨i, iso, ty⟩⟩, r⟩ := e
  · cases b <;> rfl
  · have hc : ∀ x, (sp.requiredPermissions.map fun p ↦ Statement.ensure
      (.hasPermissions x p) .notAllowed).filterMap Statement.read? = [] := by
      intro x
      rw [filterMap_map]
      exact filterMap_eq_nil_iff.mpr fun _ _ ↦ rfl
    rw [mainPart, filterMap_append, handlerPart, filterMap_append, filterMap_append, hc]
    cases b <;> rfl
  · cases b <;> cases i <;> rfl

theorem filterMap_tailPart (n : String) (sc : SyscallDescription) :
  (tailPart n sc).filterMap Statement.read? = [] := by
  have hc : (sc.parameters.flatMap (copiedOut sc.blocking)).filterMap Statement.read? = [] := by
    rw [filterMap_flatMap, flatMap_eq_nil_iff]
    rintro ⟨n, _ | spec | ⟨isIn, isOut, type⟩⟩ -
    · rfl
    · rfl
    · cases isOut <;> rfl
  rw [tailPart, filterMap_cons_none rfl, filterMap_append, filterMap_cons_none rfl, hc]
  cases sc.blocking <;> rfl

theorem filterMap_handler {sc : SyscallDescription} {rs : List String}
  {cd : HandlerCode} (hr : archRegistersForArgs.lookup arch = some rs)
  (h : sc.parameters.length ≤ rs.length)
  (hc : generateHandler arch name sc = some cd) : cd.handler.filterMap Statement.read? =
  (sc.parameters.zip rs).map fun e ↦ (readVariable sc.blocking e.1, e.2) := by
  have hp : ∀ b, ((sc.parameters.zip rs).flatMap (mainPart b)).filterMap Statement.read? =
    (sc.parameters.zip rs).map fun e ↦ (readVariable b e.1, e.2) := by
    intro b
    rw [filterMap_flatMap, map_eq_flatMap]
    exact congrArg (List.flatMap · _) (funext (filterMap_mainPart b))
  rw [generateHandler_eq hr h, Option.some.injEq] at hc
  rw [← hc]
  cases sc.blocking with
  | false =>
    rw [if_neg Bool.false_ne_true, filterMap_append, hp, filterMap_tailPart, append_nil]
  | true =>
    rw [if_pos rfl, filterMap_append, hp]
    exact append_nil _

def passing (abi : String → Passing) (param : String × ParameterDescription) : Passing :=
  match param.2 with
  | .value type => abi type
  | _ => .general 64 (Nat.le_refl 64)

def ArgumentsArrive (abi : String → Passing) (params : List (String × ParameterDescription))
  (s : GeneratedSyscall) : Prop :=
  ∀ values regs rip rflags,
    List.Forall₂ (fun param v ↦ v < 2 ^ (passing abi param).bits) params values →
    Entered regs conventionRegisters (params.map (passing abi)) values →
    ∀ (i : ℕ) param v, params[i]? = some param → values[i]? = some v →
      ∃ (x : Variable) (register : String),
        (s.code.handler.filterMap Statement.read?)[i]? = some (x, register) ∧ x.name = param.1 ∧
        (s.stub.enter rip rflags regs register).toNat % 2 ^ (passing abi param).bits = v

variable {syscall : SyscallDescription} {ids : String → Option ℕ}

theorem readVariable_name (b : Bool) (p : String × ParameterDescription) :
  (readVariable b p).name = p.1 := by
  obtain ⟨name, _ | _ | _⟩ := p <;> rfl

theorem getElem?_reads (h : Generated "amd64" ids (name, syscall) s)
  (hc : syscall.parameters.length ≤ 6) {i : ℕ} {p : String × ParameterDescription}
  (hp : syscall.parameters[i]? = some p) : ∃ r, getArchRegisterForArg "amd64" i = some r ∧
  (s.code.handler.filterMap Statement.read?)[i]? = some (readVariable syscall.blocking p, r) := by
  have hlt := (List.getElem?_eq_some_iff.mp hp).1
  have hr := getElem?_eq_getElem
    (show i < ["rdi", "rsi", "r8", "r9", "r10", "r12"].length from hlt.trans_le hc)
  refine ⟨_, hr, ?_⟩
  have he : (syscall.parameters.zip _)[i]? = some (p, _) := getElem?_zip_eq_some.mpr ⟨hp, hr⟩
  rw [filterMap_handler rfl hc h.code, getElem?_map, he]
  rfl

theorem argumentsArrive_iff (h : Generated "amd64" ids (name, syscall) s)
  (hco : syscall.parameters.length ≤ 6) : ArgumentsArrive abi syscall.parameters s ↔
  ∀ p ∈ syscall.parameters, (passing abi p).isGeneral = true := by
  constructor
  · intro ha p hm
    obtain ⟨i, hp⟩ := mem_iff_getElem?.mp hm
    obtain ⟨r, hr, hre⟩ := getElem?_reads h hco hp
    have hlt := (List.getElem?_eq_some_iff.mp hp).1
    have hc := getElem?_eq_getElem (show i < conventionRegisters.length from hlt.trans_le hco)
    -- Registers full of ones, with arguments that the caller can have put there.
    obtain ⟨x, r', hre', -, hva⟩ := ha
      ((syscall.parameters.map (passing abi)).map Passing.ones) (fun _ ↦ 1) 0 0 (by
        rw [map_map, forall₂_map_right_iff]
        exact forall₂_same.mpr fun p _ ↦ Passing.ones_lt _)
      (entered_ones _ _) i p (passing abi p).ones hp (by simp [hp])
    rw [hre, Option.some.injEq, Prod.mk.injEq] at hre'
    rw [← hre'.2, enter_register hco hlt h.moves hc hr] at hva
    exact Passing.isGeneral_of_ones hva
  · intro hg vs rg rip rs hf he i p v hp hv
    obtain ⟨r, hr, hre⟩ := getElem?_reads h hco hp
    have hlt := (List.getElem?_eq_some_iff.mp hp).1
    have hc := getElem?_eq_getElem (show i < conventionRegisters.length from hlt.trans_le hco)
    refine ⟨_, r, hre, readVariable_name _ _, ?_⟩
    rw [enter_register hco hlt h.moves hc hr]
    refine he.general ?_ ?_ ?_ hv hc
    · rw [length_map]
      exact hco
    · exact forall_mem_map.mpr hg
    · rw [getElem?_map, hp]
      rfl

end

structure Agrees (abi : String → Passing) (c : Context) (g : GeneratorContext) : Prop where
  names : g.generated.map (·.name) = c.syscalls
  dispatch : ∀ s ∈ g.generated, g.syscallTable[s.stub.number]? = some s.name
  distinct : (g.generated.map (·.stub.number)).Nodup
  cover : ∀ n, n < c.syscalls.length ↔ ∃ s ∈ g.generated, s.stub.number = n
  moves : ∀ s ∈ g.generated, s.stub.moves.Pairwise fun a b ↦ a.2 ≠ b.1
  arguments : ∀ name module syscall, (name, ⟨module, .syscall syscall⟩) ∈ c.symbols →
    ∀ s ∈ g.generated, s.name = name → ArgumentsArrive abi syscall.parameters s

variable {abi : String → Passing} {name : String} {s : GeneratedSyscall}
  {syscall : SyscallDescription}

theorem map_syscallEntry (ss : List (String × Symbol)) :
  (ss.filterMap syscallEntry).map Prod.fst = ss.filterMap syscallName := by
  rw [map_filterMap]
  apply filterMap_congr
  rintro ⟨name, module, _ | _ | _⟩ - <;> rfl

theorem sublist_syscallName (ss : List (String × Symbol)) :
  (ss.filterMap syscallName).Sublist (ss.map Prod.fst) := by
  induction ss with
  | nil => exact .slnil
  | cons sy ss ih =>
    obtain ⟨name, m, _ | _ | _⟩ := sy
    · exact ih.cons name
    · exact ih.cons name
    · exact ih.cons_cons name

theorem exists_of_mem_right {α β : Type} {R : α → β → Prop} {as : List α} {bs : List β}
  (h : List.Forall₂ R as bs) {b : β} (hb : b ∈ bs) : ∃ a ∈ as, R a b := by
  induction h with
  | nil => cases hb
  | cons hh _ ih =>
    obtain rfl | hb := mem_cons.mp hb
    · exact ⟨_, mem_cons_self, hh⟩
    · obtain ⟨a, ha, hab⟩ := ih hb
      exact ⟨a, mem_cons_of_mem _ ha, hab⟩

theorem mem_syscallEntry {symbols : List (String × Symbol)} :
  (name, syscall) ∈ symbols.filterMap syscallEntry ↔
  ∃ m, (name, ⟨m, .syscall syscall⟩) ∈ symbols := by
  rw [mem_filterMap]
  constructor
  · rintro ⟨⟨name', m, _ | _ | _⟩, hm, heq⟩ <;> cases heq
    exact ⟨m, hm⟩
  · rintro ⟨m, hm⟩
    exact ⟨_, hm, rfl⟩

def SingleRegister (abi : String → Passing) (scope : String) (declarations : List Declaration) :
  Prop :=
  ∀ ast, .syscall ast ∈ declarations → ∀ p ∈ ast.parameters, (p.isIn || p.isOut) = false →
    p.tokenPermissions = none → (abi (p.typeSpec.resolved scope)).isGeneral = true

variable {c : Context} {declarations : List Declaration} {order : List String}

structure Outputs (c : Context) (order : List String) (g : GeneratorContext) : Prop where
  table : g.syscallTable = order
  places : Places order g.generated
  names : g.generated.map (·.name) = c.syscalls
  generated : List.Forall₂ (Generated c.args.arch (syscallIds order))
    (c.symbols.filterMap syscallEntry) g.generated

theorem numbered_of_compiles (h : c.Compiles declarations) (ho : order.Perm c.syscalls)
  (hn : order.Nodup) : Numbered c.args.arch (syscallIds order) c.symbols := by
  rintro ⟨name, syscall⟩ he
  obtain ⟨m, hm⟩ := mem_syscallEntry.mp he
  obtain ⟨a, -, -, hd⟩ := h.declared name m syscall hm
  obtain ⟨rs, hr, hc⟩ := hd.count
  have hna : name ∈ order := by
    rw [ho.mem_iff, h.syscalls, ← map_syscallEntry]
    exact mem_map_of_mem he
  obtain ⟨i, hi⟩ := mem_iff_getElem?.mp hna
  exact ⟨⟨i, (syscallIds_eq_some_iff hn).mpr hi⟩, rs, hr, hd.parameters.length_eq ▸ hc⟩

theorem exists_outputs (h : c.Compiles declarations) (ho : order.Perm c.syscalls) :
  ∃ g, c.output order = some g ∧ Outputs c order g := by
  have hsy : c.syscalls.Nodup := by
    rw [h.syscalls]
    exact (sublist_syscallName c.symbols).nodup h.names
  have hn := ho.nodup_iff.mpr hsy
  obtain ⟨new, hne, ha⟩ := foldlM_generateSymbol (numbered_of_compiles h ho hn) {}
  have hna : new.map (·.name) = c.syscalls := by
    rw [h.syscalls, ← map_syscallEntry]
    symm
    rw [← forall₂_eq_eq_eq, forall₂_map_left_iff, forall₂_map_right_iff]
    exact ha.imp fun _ _ hg ↦ hg.name.symm
  have hp : Places order new := by
    refine ⟨hn, hna ▸ ho.symm, fun s hs ↦ ?_⟩
    obtain ⟨e, -, hg⟩ := exists_of_mem_right ha hs
    rw [← syscallIds_eq_some_iff hn, hg.name]
    exact hg.number
  exact ⟨_, hne, hp.table_eq, hp, hna, ha⟩

variable {g : GeneratorContext}

theorem Outputs.generated_of_mem (ho : Outputs c order g) (h : c.Compiles declarations)
  {m : String} (hm : (name, ⟨m, .syscall syscall⟩) ∈ c.symbols) (hs : s ∈ g.generated)
  (hna : s.name = name) :
  Generated "amd64" (syscallIds order) (name, syscall) s ∧ syscall.parameters.length ≤ 6 := by
  obtain ⟨a, -, -, hd⟩ := h.declared name m syscall hm
  obtain ⟨rs, hr, hc⟩ := hd.count
  obtain ⟨ha, rfl⟩ := eq_of_lookup hr
  refine ⟨?_, hd.parameters.length_eq ▸ hc⟩
  obtain ⟨e, he, hg⟩ := exists_of_mem_right ho.generated hs
  have hn : ((c.symbols.filterMap syscallEntry).map Prod.fst).Nodup := by
    rw [map_syscallEntry]
    exact (sublist_syscallName c.symbols).nodup h.names
  have heq : e = (name, syscall) := inj_on_of_nodup_map hn he
    (mem_syscallEntry.mpr ⟨m, hm⟩) (hg.name.symm.trans hna)
  rw [heq, ha] at hg
  exact hg

theorem Outputs.exists_symbol (ho : Outputs c order g) (hs : s ∈ g.generated) :
  ∃ m syscall, (s.name, ⟨m, .syscall syscall⟩) ∈ c.symbols := by
  obtain ⟨⟨name, syscall⟩, he, hg⟩ := exists_of_mem_right ho.generated hs
  obtain ⟨m, hm⟩ := mem_syscallEntry.mp he
  rw [show s.name = name from hg.name]
  exact ⟨m, syscall, hm⟩

theorem Outputs.exists_generated (ho : Outputs c order g) (h : c.Compiles declarations)
  {m : String} (hm : (name, ⟨m, .syscall syscall⟩) ∈ c.symbols) :
  ∃ s ∈ g.generated, s.name = name := by
  have hn : name ∈ g.generated.map (·.name) := by
    rw [ho.names, h.syscalls]
    exact mem_filterMap.mpr ⟨_, hm, rfl⟩
  exact mem_map.mp hn

theorem Outputs.cover (ho : Outputs c order g) (n : ℕ) :
  n < c.syscalls.length ↔ ∃ s ∈ g.generated, s.stub.number = n := by
  have hl : c.syscalls.length = order.length := by
    rw [← ho.names]
    exact ho.places.names.length_eq
  rw [hl]
  constructor
  · intro hn
    have he := (ho.places.mem_iff n _).mpr (getElem?_eq_getElem hn)
    obtain ⟨s, hs, h⟩ := mem_map.mp he
    exact ⟨s, hs, congrArg Prod.fst h⟩
  · rintro ⟨s, hs, rfl⟩
    exact (List.getElem?_eq_some_iff.mp (ho.places.number s hs)).1

theorem passing_isGeneral_iff (h : c.Compiles declarations) :
  (∀ name m syscall, (name, ⟨m, .syscall syscall⟩) ∈ c.symbols →
  ∀ pa ∈ syscall.parameters, (passing abi pa).isGeneral = true) ↔
  SingleRegister abi c.args.scope declarations := by
  constructor
  · intro hg ast has p hp hdi ha
    obtain ⟨m, syscall, hm, hds⟩ := h.symbol ast has
    obtain ⟨⟨name, d⟩, hd, -, hde⟩ := exists_of_mem_right hds.parameters.flip hp
    have hpa := hg ast.name m syscall hm (name, d) hd
    cases hde with
    | pointer di => exact absurd di (by rw [hdi]; decide)
    | token ps di a => exact absurd a (by rw [ha]; simp)
    | value di a => exact hpa
  · intro hs name m syscall hm pa hpr
    obtain ⟨ast, has, -, hds⟩ := h.declared name m syscall hm
    obtain ⟨p, hp, -, hde⟩ := exists_of_mem_right hds.parameters hpr
    obtain ⟨name, d⟩ := pa
    cases hde with
    | pointer di => rfl
    | token ps di a => rfl
    | value di a => exact hs ast has p hp di a

theorem agrees_iff_singleRegister (abi : String → Passing) (filename : String) (args : ContextArgs)
    (declarations : List Declaration) (c : Context)
    (hprocess : process filename declarations { args := args } = .ok ((), c)) (order : List String)
    (horder : order.Perm c.syscalls) : ∃ g, c.output order = some g ∧
      (Agrees abi c g ↔ SingleRegister abi c.args.scope declarations) := by
  have hc := compiles_of_process hprocess
  obtain ⟨g, hg, ho⟩ := exists_outputs hc horder
  refine ⟨g, hg, ?_⟩
  rw [← passing_isGeneral_iff hc]
  constructor
  · intro ha name module syscall hm
    obtain ⟨s, hs, hn⟩ := ho.exists_generated hc hm
    obtain ⟨hgn, hco⟩ := ho.generated_of_mem hc hm hs hn
    exact (argumentsArrive_iff hgn hco).mp (ha.arguments name module syscall hm s hs hn)
  · intro hge
    refine ⟨ho.names, ?_, ho.places.numbers_nodup, ho.cover, ?_, ?_⟩
    · intro s hs
      rw [ho.table]
      exact ho.places.number s hs
    · intro s hs
      obtain ⟨module, syscall, hm⟩ := ho.exists_symbol hs
      obtain ⟨hgn, hco⟩ := ho.generated_of_mem hc hm hs rfl
      exact pairwise_stubMoves hco hgn.moves
    · intro name module syscall hm s hs hn
      obtain ⟨hgn, hco⟩ := ho.generated_of_mem hc hm hs hn
      exact (argumentsArrive_iff hgn hco).mpr (hge name module syscall hm)

def Passing.shorter (unused : ℕ) : Passing := .general (64 - unused) (Nat.sub_le 64 unused)

def integerPassing : String → Passing
  | "std::int128_t" | "std::uint128_t" | "std::intmax_t" | "std::uintmax_t" => .pair
  | "std::int32_t" | "std::uint32_t" => .shorter 32
  | "std::int16_t" | "std::uint16_t" => .shorter 48
  | "std::int8_t" | "std::uint8_t" => .shorter 56
  | _ => .shorter 0

theorem agrees_processStart : ∃ c, process "meta" (resultDeclarations ++ [.syscall processStart])
  { args := ⟨"rose::syscall", "amd64"⟩ } = .ok ((), c) ∧
  ∃ g, c.output ["rose_process_start"] = some g ∧ Agrees integerPassing c g := by
  refine ⟨_, rfl, ?_⟩
  obtain ⟨g, hg, hi⟩ := agrees_iff_singleRegister integerPassing "meta"
    ⟨"rose::syscall", "amd64"⟩ (resultDeclarations ++ [.syscall processStart]) _ rfl
    ["rose_process_start"] (.refl _)
  refine ⟨g, hg, hi.mpr ?_⟩
  intro a h p hp _ ha
  simp only [resultDeclarations, cons_append, nil_append, mem_cons, reduceCtorEq,
    Declaration.syscall.injEq, not_mem_nil, or_false, false_or] at h
  subst h
  simp only [processStart, mem_cons, not_mem_nil, or_false] at hp
  obtain rfl | rfl | rfl | rfl := hp
  · cases ha
  · rfl
  · rfl
  · rfl

def processWiden : ParsedSyscall where
  scope := .outer "kernel" ["scheduler", "process"]
  name := "rose_process_widen"
  parameters :=
    [{ name := "first", typeSpec := .outer "std" ["uint128_t"] },
      { name := "second", typeSpec := .outer "std" ["uintptr_t"] }]
  returnType := some (.generated "result")

theorem not_agrees_processWiden :
    ∃ c, process "meta" (resultDeclarations ++ [.syscall processWiden])
        { args := ⟨"rose::syscall", "amd64"⟩ } = .ok ((), c) ∧
      ∃ g, c.output ["rose_process_widen"] = some g ∧
        (∃ s ∈ g.generated, ∃ regs, Entered regs conventionRegisters
            [integerPassing "std::uint128_t", integerPassing "std::uintptr_t"] [2 ^ 64, 0] ∧
          (s.code.handler.filterMap Statement.read?)[1]? =
            some (⟨.stack, "second", .none⟩, "rsi") ∧ s.stub.enter 0 0 regs "rsi" = 1) ∧
        ¬ Agrees integerPassing c g := by
  let regs : String → Word := fun r ↦ if r = "rsi" then 1 else 0
  have he : Entered regs conventionRegisters
      [integerPassing "std::uint128_t", integerPassing "std::uintptr_t"] [2 ^ 64, 0] :=
    ⟨rfl, rfl, rfl, trivial⟩
  refine ⟨_, rfl, _, rfl, ⟨_, mem_cons_self, regs, he, rfl, rfl⟩, fun h ↦ ?_⟩
  have hf : List.Forall₂ (fun param v ↦ v < 2 ^ (passing integerPassing param).bits)
      [("first", .value "std::uint128_t"), ("second", .value "std::uintptr_t")] [2 ^ 64, 0] :=
    .cons (by decide) (.cons (by decide) .nil)
  obtain ⟨x, register, hr, -, hv⟩ := h.arguments "rose_process_widen" "meta" _
    (mem_append_right _ mem_cons_self) _ mem_cons_self rfl [2 ^ 64, 0] regs 0 0 hf he 1 _ 0 rfl rfl
  cases hr
  exact absurd hv (by decide)

end ReaverOS.Thorn
