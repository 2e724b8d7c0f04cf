import Mathlib.Data.List.Nodup
import ReaverOS.Foundation.Fallible
import ReaverOS.Foundation.Words

namespace ReaverOS.Thorn

section

structure QualifiedName where
  inGeneratedScope : Bool := false
  nameElements : List String
  nonempty : nameElements ≠ [] := by decide
  single : inGeneratedScope = true → nameElements.length = 1 := by decide
  deriving DecidableEq

def QualifiedName.outer (first : String) (rest : List String) : QualifiedName where
  nameElements := first :: rest
  nonempty := List.cons_ne_nil first rest
  single h := absurd h Bool.false_ne_true

def QualifiedName.generated (name : String) : QualifiedName where
  inGeneratedScope := true
  nameElements := [name]
  nonempty := List.cons_ne_nil name []
  single _ := rfl

structure PermissionsDefinition where
  objectType : Option QualifiedName
  permissions : List String
  nonempty : permissions ≠ [] := by decide
  deriving DecidableEq

def PermissionsDefinition.global (first : String) (rest : List String) :
  PermissionsDefinition where
  objectType := none
  permissions := first :: rest
  nonempty := List.cons_ne_nil first rest

structure Parameter where
  name : String
  isIn : Bool := false
  isOut : Bool := false
  tokenPermissions : Option (List String) := none
  typeSpec : QualifiedName
  deriving DecidableEq

structure ParsedSyscall where
  scope : QualifiedName
  blocking : Bool := false
  name : String
  parameters : List Parameter
  returnType : Option QualifiedName := none
  deriving DecidableEq

structure ParsedEnum where
  name : String
  enumerations : List String
  deriving DecidableEq

structure UnionMember where
  name : String
  type : QualifiedName
  deriving DecidableEq

inductive MemberType
  | named (type : QualifiedName)
  | union (members : List UnionMember)
  deriving DecidableEq

structure StructMember where
  name : String
  type : MemberType
  deriving DecidableEq

structure ParsedStruct where
  name : String
  members : List StructMember
  deriving DecidableEq

structure ParsedInclude where
  headerName : String
  deriving DecidableEq

inductive Declaration
  | permissions (line column : ℕ) (ast : PermissionsDefinition)
  | enum (ast : ParsedEnum)
  | struct (ast : ParsedStruct)
  | syscall (ast : ParsedSyscall)
  | include_ (ast : ParsedInclude)
  deriving DecidableEq

namespace QualifiedName

def front (name : QualifiedName) : String := name.nameElements.head name.nonempty

def back (name : QualifiedName) : String := name.nameElements.getLast name.nonempty

def joined (name : QualifiedName) : String :=
  name.nameElements.tail.foldl (fun ret element ↦ ret ++ "::" ++ element) name.front

end QualifiedName

structure HandleToken where
  requiredPermissions : List String := []
  derefType : String := ""
  deriving DecidableEq

structure Pointer where
  isIn : Bool := false
  isOut : Bool := false
  derefType : String
  deriving DecidableEq

inductive ParameterDescription
  | value (type : String)
  | token (token : HandleToken)
  | pointer (pointer : Pointer)
  deriving DecidableEq

structure SyscallDescription where
  implementationScope : String
  parameters : List (String × ParameterDescription)
  returnType : Option String
  blocking : Bool
  deriving DecidableEq

inductive MemberDescription
  | named (type : String)
  | union (members : List (String × String))
  deriving DecidableEq

inductive Description
  | enum (enumerations : List (String × ℕ))
  | struct (members : List (String × MemberDescription))
  | syscall (syscall : SyscallDescription)
  deriving DecidableEq

structure Symbol where
  module : String
  description : Description
  deriving DecidableEq

structure ContextArgs where
  scope : String
  arch : String
  deriving DecidableEq

structure Context where
  args : ContextArgs
  symbols : List (String × Symbol) := []
  moduleDeps : List (String × String) := []
  moduleIncludes : List (String × String) := []
  syscalls : List String := []
  permissions : List (String × List String) := []
  globalPermissions : Option (List String) := none
  deriving DecidableEq

/-- The ways to end early: those with a message, and the exceptions that nothing catches. -/
inductive Error
  | repeatedPermissions (filename : String) (line column : ℕ) (type : String)
  | repeatedGlobalPermissions (filename : String) (line column : ℕ)
  | undefinedMemberType (member struct type : String)
  | tooManyParameters (syscall arch : String)
  | generatedToken (parameter syscall : String)
  | undefinedParameterType (parameter syscall type : String)
  | invalidPermission (parameter syscall permission type : String)
  | undefinedReturnType (syscall type : String)
  | noResult (syscall : String)
  | duplicateSymbol (name : String)
  | badOptionalAccess
  | outOfRange
  deriving DecidableEq

def Error.message : Error → Option String
  | repeatedPermissions filename line column type =>
    some ("thorn: parse error in " ++ filename ++ " at line " ++ toString line ++ ", column " ++
      toString column ++ ": permissions enum for '" ++ type ++ "' specified more than once")
  | repeatedGlobalPermissions filename line column =>
    some ("thorn: parse error in " ++ filename ++ " at line " ++ toString line ++ ", column " ++
      toString column ++ ": global permissions enum specified more than once")
  | undefinedMemberType member struct type =>
    some ("thorn: semantic error: the definition of member '" ++ member ++ "' of struct '" ++
      struct ++ "' references '$::" ++ type ++
      "', which was not defined when its definition was processed")
  | tooManyParameters syscall arch =>
    some ("thorn: semantic error: syscall '" ++ syscall ++
      "' accepts more parameters than supposed on " ++ arch)
  | generatedToken parameter syscall =>
    some ("thorn: semantic error: the parameter '" ++ parameter ++ "' of syscall '" ++ syscall ++
      "' defined as a token to a type in the generated scope, which is invalid (it must only " ++
      "reference kernel object types)")
  | undefinedParameterType parameter syscall type =>
    some ("thorn: semantic error: the type of parameter '" ++ parameter ++ "' of syscall '" ++
      syscall ++ "' references '$::" ++ type ++
      "', which was not defined when its definition was processed")
  | invalidPermission parameter syscall permission type =>
    some ("thorn: semantic error: the parameter '" ++ parameter ++ "' of syscall '" ++ syscall ++
      "' specifies a permission '" ++ permission ++
      "' which is not a valid permission for a kernel object of type '" ++ type ++ "'")
  | undefinedReturnType syscall type =>
    some ("thorn: semantic error: the return type of syscall '" ++ syscall ++ "' references '$::" ++
      type ++ "', which was not defined when its definition was processed")
  | noResult syscall =>
    some ("thorn: semantic error: the syscall '" ++ syscall ++ "' accepts a handle token " ++
      "parameter with specified permissions, but does not return the generated result type")
  | duplicateSymbol name => some ("thorn: error: duplicate symbol '" ++ name ++ "'")
  | badOptionalAccess | outOfRange => none

abbrev ThornM := StateT Context (Except Error)

def archRegistersForArgs : List (String × List String) :=
  [("amd64", ["rdi", "rsi", "r8", "r9", "r10", "r12"])]

def require (condition : Bool) (error : Error) : ThornM Unit :=
  if condition then return else throw error

def addDependency (module dependency : String) : ThornM Unit :=
  if module = dependency then return
  else modify fun c ↦ { c with moduleDeps := c.moduleDeps.insert (module, dependency) }

def processQualifiedName (module : String) (ast : QualifiedName) : ThornM (Option String) := do
  if ast.inGeneratedScope then
    match (← get).symbols.lookup ast.back with
    | none => return none
    | some symbol =>
      addDependency module symbol.module
      return some ((← get).args.scope ++ "::" ++ ast.back)
  else return some ast.joined

def insertSymbol (name : String) (symbol : Symbol) : ThornM Unit := do
  require ((← get).symbols.lookup name).isNone (.duplicateSymbol name)
  modify fun c ↦ { c with symbols := c.symbols ++ [(name, symbol)] }

def insertEnum (module : String) (ast : ParsedEnum) : ThornM Unit :=
  insertSymbol ast.name ⟨module, .enum ast.enumerations.zipIdx⟩

def processMemberType (module struct member : String) (ast : QualifiedName) : ThornM String := do
  match ← processQualifiedName module ast with
  | none => throw (.undefinedMemberType member struct ast.back)
  | some processed => return processed

def insertStruct (module : String) (ast : ParsedStruct) : ThornM Unit := do
  let members ← ast.members.mapM fun member ↦ do
    match member.type with
    | .named type =>
      return (member.name, .named (← processMemberType module ast.name member.name type))
    | .union members =>
      let processed ← members.mapM fun umember ↦ do
        return (umember.name, ← processMemberType module ast.name member.name umember.type)
      return (member.name, .union processed)
  insertSymbol ast.name ⟨module, .struct members⟩

def Context.allows (c : Context) (type permission : String) : Bool :=
  (c.globalPermissions.getD []).contains permission ||
    ((c.permissions.lookup type).getD []).contains permission

def requirePermission (syscall parameter type permission : String) : ThornM String := do
  require ((← get).allows type permission) (.invalidPermission parameter syscall permission type)
  return permission

def processParameterType (module syscall : String) (param : Parameter) : ThornM String := do
  match ← processQualifiedName module param.typeSpec with
  | none => throw (.undefinedParameterType param.name syscall param.typeSpec.back)
  | some processed => return processed

def processParameter (module syscall : String) (param : Parameter) :
  ThornM (ParameterDescription × Bool) := do
  require (!(param.tokenPermissions.isSome && param.typeSpec.inGeneratedScope))
    (.generatedToken param.name syscall)
  if param.isIn || param.isOut then
    let processed ← processParameterType module syscall param
    return (.pointer ⟨param.isIn, param.isOut, processed⟩, false)
  else
    match param.tokenPermissions with
    | some permissions =>
      let token : HandleToken := {}
      let hasPermissions := !token.requiredPermissions.isEmpty
      let type := param.typeSpec.joined
      let required ← permissions.mapM (requirePermission syscall param.name type)
      return (.token ⟨token.requiredPermissions ++ required, type⟩, hasPermissions)
    | none =>
      let processed ← processParameterType module syscall param
      return (.value processed, false)

def processReturnType (module syscall : String) (ast : Option QualifiedName) :
  ThornM (Option String) := do
  match ast with
  | none => return none
  | some type =>
    match ← processQualifiedName module type with
    | none => throw (.undefinedReturnType syscall type.back)
    | some processed => return some processed

def checkParameterCount (syscall arch : String) (count : ℕ) : ThornM Unit :=
  match archRegistersForArgs.lookup arch with
  | none => throw .outOfRange
  | some registers => require (count ≤ registers.length) (.tooManyParameters syscall arch)

def insertSyscall (module : String) (ast : ParsedSyscall) : ThornM Unit := do
  let args := (← get).args
  checkParameterCount ast.name args.arch ast.parameters.length
  let parameters ← ast.parameters.mapM fun param ↦ do
    return (param.name, ← processParameter module ast.name param)
  let returnType ← processReturnType module ast.name ast.returnType
  let hasTokenWithPermissions := parameters.any fun param ↦ param.2.2
  require (!hasTokenWithPermissions || returnType = some (args.scope ++ "::result"))
    (.noResult ast.name)
  insertSymbol ast.name ⟨module, .syscall
    ⟨ast.scope.joined, parameters.map fun param ↦ (param.1, param.2.1), returnType, ast.blocking⟩⟩
  modify fun c ↦ { c with syscalls := c.syscalls ++ [ast.name] }

def insertInclude (module : String) (ast : ParsedInclude) : ThornM Unit :=
  modify fun c ↦ { c with moduleIncludes := c.moduleIncludes.insert (module, ast.headerName) }

def insertTypePermissions (filename : String) (line column : ℕ) (typeName : String)
  (permissions : List String) : ThornM Unit := do
  require ((← get).permissions.lookup typeName).isNone
    (.repeatedPermissions filename line column typeName)
  modify fun c ↦ { c with permissions := c.permissions ++ [(typeName, permissions)] }

def insertGlobalPermissions (filename : String) (line column : ℕ) (permissions : List String) :
  ThornM Unit := do
  require (← get).globalPermissions.isNone (.repeatedGlobalPermissions filename line column)
  modify fun c ↦ { c with globalPermissions := some permissions }

def insertPermissions (filename : String) (line column : ℕ) (ast : PermissionsDefinition) :
  ThornM Unit := do
  match ast.objectType with
  | some type =>
    match ← processQualifiedName filename type with
    | none => throw .badOptionalAccess
    | some typeName => insertTypePermissions filename line column typeName ast.permissions
  | none => insertGlobalPermissions filename line column ast.permissions

def insertDeclaration (filename : String) : Declaration → ThornM Unit
  | .permissions line column ast => insertPermissions filename line column ast
  | .enum ast => insertEnum filename ast
  | .struct ast => insertStruct filename ast
  | .syscall ast => insertSyscall filename ast
  | .include_ ast => insertInclude filename ast

def process (filename : String) (declarations : List Declaration) : ThornM Unit :=
  declarations.forM (insertDeclaration filename)

open Foundation.Stateful List Option

section

def Context.declared (c : Context) : List (String × List String) × Option (List String) :=
  (c.permissions, c.globalPermissions)

def IgnoresDeps {γ : Type} (f : Context → γ) : Prop :=
  ∀ c deps, f { c with moduleDeps := deps } = f c

variable {filename module syscall parameter struct member name : String} {c c' : Context}
  {γ : Type} {f : Context → γ}

theorem preserves_require (co : Bool) (e : Error) : Preserves f (require co e) :=
  .ite (.pure _) (.throw _)

theorem IgnoresDeps.addDependency (hf : IgnoresDeps f) (d : String) :
  Preserves f (addDependency module d) :=
  .ite (.pure _) (.modify fun _ ↦ hf _ _)

theorem IgnoresDeps.processQualifiedName (hf : IgnoresDeps f) (ast : QualifiedName) :
  Preserves f (processQualifiedName module ast) := by
  refine .ite (Preserves.get.bind fun c ↦ ?_) (.pure _)
  split
  · exact .pure _
  · exact (hf.addDependency _).bind fun _ ↦ Preserves.get.bind fun _ ↦ .pure _

theorem IgnoresDeps.processMemberType (hf : IgnoresDeps f) (ast : QualifiedName) :
  Preserves f (processMemberType module struct member ast) := by
  refine (hf.processQualifiedName ast).bind fun p ↦ ?_
  cases p with
  | none => exact .throw _
  | some p => exact .pure _

theorem IgnoresDeps.insertStruct_eq_ok (hf : IgnoresDeps f) {ast : ParsedStruct}
  (h : insertStruct module ast c = .ok ((), c')) : ∃ u ms, f u = f c ∧
  insertSymbol ast.name ⟨module, .struct ms⟩ u = .ok ((), c') := by
  obtain ⟨ms, u, hm, hs⟩ := bind_apply_eq_ok h
  refine ⟨u, ms, Preserves.mapM (fun member ↦ ?_) _ _ _ _ hm, hs⟩
  split
  · exact (hf.processMemberType _).bind fun _ ↦ .pure _
  · exact (Preserves.mapM (fun um ↦ (hf.processMemberType _).bind fun _ ↦ .pure _) _).bind
      fun _ ↦ .pure _

theorem IgnoresDeps.processParameterType (hf : IgnoresDeps f) (pa : Parameter) :
  Preserves f (processParameterType module syscall pa) := by
  refine (hf.processQualifiedName _).bind fun p ↦ ?_
  cases p with
  | none => exact .throw _
  | some p => exact .pure _

theorem preserves_requirePermission (ty p : String) :
  Preserves f (requirePermission syscall parameter ty p) :=
  Preserves.get.bind fun _ ↦ (preserves_require _ _).bind fun _ ↦ .pure _

theorem IgnoresDeps.processParameter (hf : IgnoresDeps f) (p : Parameter) :
  Preserves f (processParameter module syscall p) := by
  refine (preserves_require _ _).bind fun _ ↦ .ite ?_ ?_
  · exact (hf.processParameterType p).bind fun _ ↦ .pure _
  · split
    · exact (Preserves.mapM (fun _ ↦ preserves_requirePermission _ _) _).bind fun _ ↦ .pure _
    · exact (hf.processParameterType p).bind fun _ ↦ .pure _

theorem IgnoresDeps.processReturnType (hf : IgnoresDeps f) (ast : Option QualifiedName) :
  Preserves f (processReturnType module syscall ast) := by
  cases ast with
  | none => exact .pure _
  | some type =>
    refine (hf.processQualifiedName type).bind fun p ↦ ?_
    cases p with
    | none => exact .throw _
    | some p => exact .pure _

theorem preserves_checkParameterCount (ar : String) (cn : ℕ) :
  Preserves f (checkParameterCount syscall ar cn) := by
  rw [checkParameterCount]
  split
  · exact .throw _
  · exact preserves_require _ _

theorem ignoresDeps_declared : IgnoresDeps Context.declared := fun _ _ ↦ rfl

theorem preserves_insertSymbol (s : Symbol) : Preserves Context.declared (insertSymbol name s) :=
  Preserves.get.bind fun _ ↦ (preserves_require _ _).bind fun _ ↦ .modify fun _ ↦ rfl

theorem preserves_insertStruct (ast : ParsedStruct) :
  Preserves Context.declared (insertStruct module ast) := by
  intro c _ c' h
  obtain ⟨u, ms, hu, hs⟩ := ignoresDeps_declared.insertStruct_eq_ok h
  exact (preserves_insertSymbol _ _ _ _ hs).trans hu

theorem preserves_insertSyscall (ast : ParsedSyscall) :
  Preserves Context.declared (insertSyscall module ast) := by
  refine Preserves.get.bind fun c ↦ (preserves_checkParameterCount _ _).bind fun _ ↦ ?_
  refine (Preserves.mapM (fun p ↦ ?_) _).bind fun ps ↦ ?_
  · exact (ignoresDeps_declared.processParameter p).bind fun _ ↦ .pure _
  refine (ignoresDeps_declared.processReturnType _).bind fun r ↦
    (preserves_require _ _).bind fun _ ↦ ?_
  exact (preserves_insertSymbol _).bind fun _ ↦ .modify fun _ ↦ rfl

variable {a : Unit}

theorem require_eq_ok {co : Bool} {e : Error}
  (h : require co e c = .ok (a, c')) : co = true ∧ c' = c := by
  rw [require] at h
  split at h
  next hc =>
    cases h
    exact ⟨hc, rfl⟩
  next => cases h

variable {line column : ℕ}

theorem insertTypePermissions_eq_ok {t : String} {permissions : List String}
  (h : insertTypePermissions filename line column t permissions c = .ok (a, c')) :
  c.permissions.lookup t = none ∧
  c' = { c with permissions := c.permissions ++ [(t, permissions)] } := by
  rw [insertTypePermissions] at h
  obtain ⟨d, u, ⟨⟩, hre⟩ := bind_apply_eq_ok h
  obtain ⟨b, v, hr, hm⟩ := bind_apply_eq_ok hre
  obtain ⟨hn, rfl⟩ := require_eq_ok hr
  cases hm
  exact ⟨isNone_iff_eq_none.mp hn, rfl⟩

theorem insertGlobalPermissions_eq_ok {ps : List String}
  (h : insertGlobalPermissions filename line column ps c = .ok (a, c')) :
  c.globalPermissions = none ∧ c' = { c with globalPermissions := some ps } := by
  rw [insertGlobalPermissions] at h
  obtain ⟨d, u, ⟨⟩, hre⟩ := bind_apply_eq_ok h
  obtain ⟨b, v, hr, hm⟩ := bind_apply_eq_ok hre
  obtain ⟨hn, rfl⟩ := require_eq_ok hr
  cases hm
  exact ⟨isNone_iff_eq_none.mp hn, rfl⟩

def Declaration.specific : Declaration → Option (List String)
  | .permissions _ _ ⟨some _, perms, _⟩ => some perms
  | _ => none

def Declaration.global : Declaration → Option (List String)
  | .permissions _ _ ⟨none, perms, _⟩ => some perms
  | _ => none

structure Context.Knows (c : Context) (declarations : List Declaration) : Prop where
  keys : (c.permissions.map Prod.fst).Nodup
  specific : c.permissions.map Prod.snd = declarations.filterMap Declaration.specific
  global : c.globalPermissions.getD [] = (declarations.filterMap Declaration.global).flatten

variable {declarations rest : List Declaration} {de : Declaration}

theorem Context.Knows.other (h : c.Knows declarations) (hd : c'.declared = c.declared)
  (hs : de.specific = none) (hgl : de.global = none) : c'.Knows (declarations ++ [de]) := by
  obtain ⟨hp, hg⟩ := Prod.mk.inj hd
  refine ⟨hp ▸ h.keys, ?_, ?_⟩
  · rw [hp, h.specific, filterMap_append, filterMap_cons_none hs, filterMap_nil, append_nil]
  · rw [hg, h.global, filterMap_append, filterMap_cons_none hgl, filterMap_nil, append_nil]

theorem notMem_keys {β : Type} {es : List (String × β)} (h : es.lookup name = none) :
  name ∉ es.map Prod.fst := by
  intro hm
  obtain ⟨e, he, rfl⟩ := mem_map.mp hm
  exact absurd (lookup_eq_none_iff.mp h e he) (by simp)

theorem Context.Knows.insertPermissions {ast : PermissionsDefinition} (h : c.Knows declarations)
  (hs : Thorn.insertPermissions filename line column ast c = .ok ((), c')) :
  c'.Knows (declarations ++ [.permissions line column ast]) := by
  obtain ⟨_ | type, ps, hno⟩ := ast
  · obtain ⟨hn, rfl⟩ := insertGlobalPermissions_eq_ok hs
    refine ⟨h.keys, ?_, ?_⟩
    · rw [filterMap_append, ← h.specific]
      exact (append_nil _).symm
    · rw [filterMap_append, flatten_append, ← h.global, hn]
      exact (append_nil _).symm
  · obtain ⟨p, u, hpr, hs⟩ := bind_apply_eq_ok hs
    obtain ⟨hp, hg⟩ := Prod.mk.inj (ignoresDeps_declared.processQualifiedName type _ _ _ hpr)
    cases p with
    | none => cases hs
    | some t =>
      obtain ⟨hl, rfl⟩ := insertTypePermissions_eq_ok hs
      rw [hp] at hl
      refine ⟨?_, ?_, ?_⟩
      · rw [map_append, hp]
        exact h.keys.append (nodup_singleton _) (disjoint_singleton.mpr (notMem_keys hl))
      · rw [map_append, hp, h.specific, filterMap_append]
        rfl
      · rw [filterMap_append, flatten_append, ← h.global, ← hg]
        exact (append_nil _).symm

theorem Context.Knows.insertDeclaration (h : c.Knows declarations)
  (hs : Thorn.insertDeclaration filename de c = .ok ((), c')) :
  c'.Knows (declarations ++ [de]) := by
  cases de with
  | permissions line column ast => exact h.insertPermissions hs
  | enum ast => exact h.other (preserves_insertSymbol _ _ _ _ hs) rfl rfl
  | struct ast => exact h.other (preserves_insertStruct ast _ _ _ hs) rfl rfl
  | syscall ast => exact h.other (preserves_insertSyscall ast _ _ _ hs) rfl rfl
  | include_ ast =>
    cases hs
    exact h.other rfl rfl rfl

theorem process_induction {P : Context → List Declaration → Prop}
  (hs : ∀ c c' declarations de, P c declarations → insertDeclaration filename de c = .ok ((), c') →
  P c' (declarations ++ [de])) (h : P c declarations)
  (hru : process filename rest c = .ok ((), c')) : P c' (declarations ++ rest) := by
  induction rest generalizing c declarations with
  | nil =>
    cases hru
    rwa [append_nil]
  | cons de rest ih =>
    obtain ⟨a, u, hf, hr⟩ := bind_apply_eq_ok hru
    rw [append_cons]
    exact ih (hs c u declarations de h hf) hr

theorem Context.Knows.process (h : c.Knows declarations)
  (hr : Thorn.process filename rest c = .ok ((), c')) : c'.Knows (declarations ++ rest) :=
  process_induction (fun _ _ _ _ h hs ↦ h.insertDeclaration hs) h hr

end

def Context.compiled (c : Context) : ContextArgs × List (String × Symbol) × List String :=
  (c.args, c.symbols, c.syscalls)

def QualifiedName.resolved (name : QualifiedName) (scope : String) : String :=
  if name.inGeneratedScope then scope ++ "::" ++ name.back else name.joined

inductive Parameter.Described (p : Parameter) (scope : String) : ParameterDescription → Prop
  | pointer (direction : (p.isIn || p.isOut) = true) :
    p.Described scope (.pointer ⟨p.isIn, p.isOut, p.typeSpec.resolved scope⟩)
  | token (perms : List String) (direction : (p.isIn || p.isOut) = false)
    (annotated : p.tokenPermissions = some perms) :
    p.Described scope (.token ⟨perms, p.typeSpec.joined⟩)
  | value (direction : (p.isIn || p.isOut) = false) (annotated : p.tokenPermissions = none) :
    p.Described scope (.value (p.typeSpec.resolved scope))

structure ParsedSyscall.Described (ast : ParsedSyscall) (args : ContextArgs)
  (syscall : SyscallDescription) : Prop where
  blocking : syscall.blocking = ast.blocking
  count : ∃ registers, archRegistersForArgs.lookup args.arch = some registers ∧
    ast.parameters.length ≤ registers.length
  parameters : List.Forall₂ (fun p d ↦ p.name = d.1 ∧ p.Described args.scope d.2) ast.parameters
    syscall.parameters

variable {filename module syscall name : String} {c c' : Context}

theorem ignoresDeps_compiled : IgnoresDeps Context.compiled := fun _ _ ↦ rfl

theorem insertSymbol_eq_ok {s : Symbol} (h : insertSymbol name s c = .ok ((), c')) :
  c.symbols.lookup name = none ∧ c' = { c with symbols := c.symbols ++ [(name, s)] } := by
  rw [insertSymbol] at h
  obtain ⟨d, u, ⟨⟩, hre⟩ := bind_apply_eq_ok h
  obtain ⟨a, v, hr, hm⟩ := bind_apply_eq_ok hre
  obtain ⟨hn, rfl⟩ := require_eq_ok hr
  cases hm
  exact ⟨isNone_iff_eq_none.mp hn, rfl⟩

theorem requirePermission_eq_ok {pa ty p granted : String}
  (h : requirePermission syscall pa ty p c = .ok (granted, c')) : p = granted := by
  obtain ⟨d, u, ⟨⟩, hr⟩ := bind_apply_eq_ok h
  obtain ⟨a, v, hre, hp⟩ := bind_apply_eq_ok hr
  cases hp
  rfl

theorem addDependency_eq_ok {d : String}
  (h : addDependency module d c = .ok ((), c')) : c'.args = c.args :=
  IgnoresDeps.addDependency (fun _ _ ↦ rfl) d _ _ _ h

theorem processQualifiedName_eq_ok {ast : QualifiedName} {ty : String}
  (h : processQualifiedName module ast c = .ok (some ty, c')) : ty = ast.resolved c.args.scope := by
  rw [processQualifiedName] at h
  rw [QualifiedName.resolved]
  by_cases hs : ast.inGeneratedScope = true
  · rw [if_pos hs] at h ⊢
    obtain ⟨d, u, ⟨⟩, hr⟩ := bind_apply_eq_ok h
    cases hl : c.symbols.lookup ast.back with
    | none =>
      rw [hl] at hr
      cases hr
    | some s =>
      rw [hl] at hr
      obtain ⟨a, v, hd, hre⟩ := bind_apply_eq_ok hr
      obtain ⟨d, w, ⟨⟩, hp⟩ := bind_apply_eq_ok hre
      cases hp
      rw [addDependency_eq_ok hd]
  · rw [if_neg hs] at h ⊢
    cases h
    rfl

theorem processParameterType_eq_ok {pa : Parameter} {ty : String}
  (h : processParameterType module syscall pa c = .ok (ty, c')) :
  ty = pa.typeSpec.resolved c.args.scope := by
  obtain ⟨p, u, hp, hr⟩ := bind_apply_eq_ok h
  cases p with
  | none => cases hr
  | some p =>
    cases hr
    exact processQualifiedName_eq_ok hp

theorem processParameter_eq_ok {pa : Parameter} {d : ParameterDescription} {b : Bool}
  (h : processParameter module syscall pa c = .ok ((d, b), c')) : pa.Described c.args.scope d := by
  rw [processParameter] at h
  obtain ⟨a, u, hre, hr⟩ := bind_apply_eq_ok h
  obtain ⟨-, rfl⟩ := require_eq_ok hre
  by_cases hd : (pa.isIn || pa.isOut) = true
  · rw [if_pos hd] at hr
    obtain ⟨type, v, ht, hp⟩ := bind_apply_eq_ok hr
    cases hp
    rw [processParameterType_eq_ok ht]
    exact .pointer hd
  · rw [if_neg hd] at hr
    rw [Bool.not_eq_true] at hd
    cases ha : pa.tokenPermissions with
    | some perms =>
      rw [ha] at hr
      obtain ⟨r, v, hpe, hp⟩ := bind_apply_eq_ok hr
      cases hp
      have heq := forall₂_of_mapM_eq_ok (preserves_requirePermission (f := Context.args) _)
        (fun p u g v _ ↦ requirePermission_eq_ok) hpe
      rw [List.forall₂_eq_eq_eq] at heq
      rw [← heq]
      exact .token perms hd ha
    | none =>
      rw [ha] at hr
      obtain ⟨type, v, ht, hp⟩ := bind_apply_eq_ok hr
      cases hp
      rw [processParameterType_eq_ok ht]
      exact .value hd ha

theorem checkParameterCount_eq_ok {ar : String} {cn : ℕ}
  (h : checkParameterCount syscall ar cn c = .ok ((), c')) :
  ∃ rs, archRegistersForArgs.lookup ar = some rs ∧ cn ≤ rs.length := by
  rw [checkParameterCount] at h
  cases hl : archRegistersForArgs.lookup ar with
  | none =>
    rw [hl] at h
    cases h
  | some rs =>
    rw [hl] at h
    exact ⟨rs, rfl, of_decide_eq_true (require_eq_ok h).1⟩

theorem processParameters_eq_ok {ast : ParsedSyscall}
  {ps : List (String × ParameterDescription × Bool)}
  (h : (ast.parameters.mapM fun pa ↦ do
    return (pa.name, ← processParameter module ast.name pa)) c = .ok (ps, c')) :
  c'.compiled = c.compiled ∧
    List.Forall₂ (fun p d ↦ p.name = d.1 ∧ p.Described c.args.scope d.2) ast.parameters
      (ps.map fun pa ↦ (pa.1, pa.2.1)) := by
  have hk : ∀ pa : Parameter, Preserves Context.compiled
    (do return (pa.name, ← processParameter module ast.name pa)) := fun pa ↦
    (ignoresDeps_compiled.processParameter pa).bind fun _ ↦ .pure _
  refine ⟨Preserves.mapM hk _ _ _ _ h, ?_⟩
  rw [List.forall₂_map_right_iff]
  refine forall₂_of_mapM_eq_ok hk (fun pa u b v hu hpa ↦ ?_) h
  obtain ⟨⟨d, t⟩, w, hp, hpu⟩ := bind_apply_eq_ok hpa
  cases hpu
  have ha : u.args = c.args := congrArg Prod.fst hu
  exact ⟨rfl, ha ▸ processParameter_eq_ok hp⟩

theorem processReturnType_eq_ok {ast : Option QualifiedName} {ty : Option String}
  (h : processReturnType module syscall ast c = .ok (ty, c')) :
  ty = ast.map fun name ↦ name.resolved c.args.scope := by
  cases ast with
  | none =>
    cases h
    rfl
  | some name =>
    obtain ⟨p, u, hp, hr⟩ := bind_apply_eq_ok h
    cases p with
    | none => cases hr
    | some p =>
      cases hr
      exact congrArg some (processQualifiedName_eq_ok hp)

theorem insertSyscall_eq_ok {ast : ParsedSyscall} (h : insertSyscall module ast c = .ok ((), c')) :
  ∃ ds, ast.Described c.args ds ∧
  ds.returnType = ast.returnType.map (fun name ↦ name.resolved c.args.scope) ∧
  c.symbols.lookup ast.name = none ∧
  c'.compiled = (c.args, c.symbols ++ [(ast.name, ⟨module, .syscall ds⟩)],
  c.syscalls ++ [ast.name]) := by
  rw [insertSyscall] at h
  obtain ⟨d, u, ⟨⟩, h₁⟩ := bind_apply_eq_ok h
  obtain ⟨a, u, hc, h₂⟩ := bind_apply_eq_ok h₁
  obtain ⟨ps, v, hp, h₃⟩ := bind_apply_eq_ok h₂
  obtain ⟨r, w, hre, h₄⟩ := bind_apply_eq_ok h₃
  obtain ⟨a', w', hrq, h₅⟩ := bind_apply_eq_ok h₄
  obtain ⟨a'', x, hsy, h₆⟩ := bind_apply_eq_ok h₅
  obtain ⟨hun, hd⟩ := processParameters_eq_ok hp
  have hu : u.compiled = c.compiled := preserves_checkParameterCount _ _ _ _ _ hc
  have hv : v.compiled = c.compiled := hun.trans hu
  have hw : w'.compiled = c.compiled :=
    calc w'.compiled = w.compiled := preserves_require _ _ _ _ _ hrq
      _ = v.compiled := ignoresDeps_compiled.processReturnType _ _ _ _ hre
      _ = c.compiled := hv
  have hr := processReturnType_eq_ok hre
  rw [show v.args = c.args from congrArg Prod.fst hv] at hr
  rw [show u.args = c.args from congrArg Prod.fst hu] at hd
  obtain ⟨hn, rfl⟩ := insertSymbol_eq_ok hsy
  cases h₆
  simp only [Context.compiled, Prod.mk.injEq] at hw ⊢
  obtain ⟨ha, hsm, hs⟩ := hw
  rw [hsm] at hn ⊢
  rw [ha, hs]
  exact ⟨_, ⟨rfl, checkParameterCount_eq_ok hc, hd⟩, hr, hn, rfl, rfl, rfl⟩

theorem eq_of_lookup {ar : String} {rs : List String}
  (h : archRegistersForArgs.lookup ar = some rs) :
  ar = "amd64" ∧ rs = ["rdi", "rsi", "r8", "r9", "r10", "r12"] := by
  rw [archRegistersForArgs, lookup_cons] at h
  split at h
  next ha =>
    cases h
    exact ⟨eq_of_beq ha, rfl⟩
  next => cases h

end

open Foundation.Flags List

structure PermissionDescription where
  name : String
  flagBit : ℕ
  deriving DecidableEq

def globalDescriptions (permissions : List String) : List PermissionDescription :=
  permissions.zipIdx.map fun (perm, i) ↦ ⟨perm, i⟩

def typeDescriptions (permissions : List String) : List PermissionDescription :=
  let i := 0
  permissions.map fun perm ↦ ⟨perm, 64 + i⟩

/-- The list that `context::output` builds. The map of the types has no order of its own, and
`entries` is the one in which its entries come. -/
def Context.perms (c : Context) (entries : List (String × List String)) :
  List PermissionDescription :=
  globalDescriptions (c.globalPermissions.getD []) ++
    entries.flatMap fun entry ↦ typeDescriptions entry.2

def Context.attributed (c : Context) (entries : List (String × List String)) :
  List (Option String × PermissionDescription) :=
  (globalDescriptions (c.globalPermissions.getD [])).map (none, ·) ++
    entries.flatMap fun entry ↦ (typeDescriptions entry.2).map (some entry.1, ·)

theorem map_snd_attributed (c : Context) (entries : List (String × List String)) :
  (c.attributed entries).map Prod.snd = c.perms entries := by
  simp [Context.attributed, Context.perms, List.map_flatMap, Function.comp_def]

structure Permission where
  owner : Option String
  name : String
  deriving DecidableEq

def Permission.AppliesTo (p : Permission) (type : String) : Prop :=
  p.owner = none ∨ p.owner = some type

def permissionOf (known : Option String × PermissionDescription) : Permission :=
  ⟨known.1, known.2.name⟩

def valueOf (known : List (Option String × PermissionDescription)) (set : List Permission) :
  BitVec 128 :=
  mask 128 (fun k ↦ k.2.flagBit) (known.filter fun k ↦ permissionOf k ∈ set)

structure Handle where
  perms : BitVec 128

def Handle.hasPermissions (handle : Handle) (perms : BitVec 128) : Bool :=
  perms &&& handle.perms = perms

/-- Among the permissions that apply to one type no bit is used twice, and the checks of a handle
are those of its set of permissions. -/
structure Distinguished (known : List (Option String × PermissionDescription)) : Prop where
  bits : ∀ type, ∀ j ∈ known, ∀ k ∈ known, (permissionOf j).AppliesTo type →
    (permissionOf k).AppliesTo type → permissionOf j ≠ permissionOf k →
      j.2.flagBit ≠ k.2.flagBit ∧ j.2.flagBit < 128 ∧ k.2.flagBit < 128
  checks : ∀ type required granted,
    (∀ p ∈ required ++ granted, p ∈ known.map permissionOf ∧ p.AppliesTo type) →
      ((Handle.mk (valueOf known granted)).hasPermissions (valueOf known required) = true ↔
        required ⊆ granted)

def globalNames (declarations : List Declaration) : List String :=
  (declarations.filterMap Declaration.global).flatten

/-- No type has two permissions of its own, and the bit that they all have is not that of a global
one. -/
structure Separable (declarations : List Declaration) : Prop where
  specific : ∀ perms ∈ declarations.filterMap Declaration.specific, ∀ a ∈ perms, ∀ b ∈ perms, a = b
  shared : declarations.filterMap Declaration.specific ≠ [] → (globalNames declarations).length ≤ 64
  global : (globalNames declarations).length ≤ 128 ∨
    ∀ a ∈ globalNames declarations, ∀ b ∈ globalNames declarations, a = b

variable {c : Context} {entries : List (String × List String)} {declarations : List Declaration}
  {known : Option String × PermissionDescription}

theorem mem_attributed : known ∈ c.attributed entries ↔
  (∃ i name, (c.globalPermissions.getD [])[i]? = some name ∧ known = (none, ⟨name, i⟩)) ∨
  ∃ e ∈ entries, ∃ name ∈ e.2, known = (some e.1, ⟨name, 64⟩) := by
  rw [Context.attributed, mem_append, mem_flatMap]
  refine or_congr ?_ (exists_congr fun e ↦ and_congr_right fun _ ↦ ?_)
  · simp only [globalDescriptions, map_map, mem_map, mem_zipIdx_iff_getElem?,
      Prod.exists, Function.comp_apply]
    constructor
    · rintro ⟨name, i, hi, rfl⟩
      exact ⟨i, name, hi, rfl⟩
    · rintro ⟨i, name, hi, rfl⟩
      exact ⟨name, i, hi, rfl⟩
  · simp only [typeDescriptions, map_map, mem_map, Function.comp_apply]
    refine exists_congr fun name ↦ and_congr_right fun _ ↦ eq_comm

variable {perms : List String}

theorem Context.Knows.mem_specific (h : c.Knows declarations) :
  perms ∈ declarations.filterMap Declaration.specific ↔ ∃ type, (type, perms) ∈ c.permissions := by
  rw [← h.specific, mem_map]
  simp

theorem ne_nil_of_mem_specific (h : perms ∈ declarations.filterMap Declaration.specific) :
  perms ≠ [] := by
  obtain ⟨de, -, hs⟩ := mem_filterMap.mp h
  obtain ⟨line, column, ⟨_ | type, ps, hn⟩⟩ | _ | _ | _ | _ := de <;>
    cases hs
  exact hn

variable {name : String}

theorem mem_attributed_global {i : ℕ} (hk : c.Knows declarations)
  (h : (globalNames declarations)[i]? = some name) : (none, ⟨name, i⟩) ∈ c.attributed entries :=
  mem_attributed.mpr (.inl ⟨i, name, by rw [hk.global]; exact h, rfl⟩)

variable {type : String}

theorem mem_attributed_specific (ho : entries.Perm c.permissions)
  (he : (type, perms) ∈ c.permissions) (hn : name ∈ perms) :
  (some type, ⟨name, 64⟩) ∈ c.attributed entries :=
  mem_attributed.mpr (.inr ⟨(type, perms), ho.mem_iff.mpr he, name, hn, rfl⟩)

theorem Distinguished.separable (h : Distinguished (c.attributed entries))
  (hk : c.Knows declarations) (ho : entries.Perm c.permissions) :
  Separable declarations := by
  refine ⟨fun perms hp a ha b hb ↦ ?_, fun hso ↦ ?_, ?_⟩
  · obtain ⟨type, he⟩ := hk.mem_specific.mp hp
    by_contra hne
    refine (h.bits type _ (mem_attributed_specific ho he ha) _
      (mem_attributed_specific ho he hb) (.inr rfl) (.inr rfl) ?_).1 rfl
    simpa [permissionOf] using hne
  · obtain ⟨perms, hp⟩ := exists_mem_of_ne_nil _ hso
    obtain ⟨type, he⟩ := hk.mem_specific.mp hp
    obtain ⟨name, hn⟩ := exists_mem_of_ne_nil _ (ne_nil_of_mem_specific hp)
    by_contra hl
    have hg := getElem?_eq_getElem (Nat.lt_of_not_le hl)
    exact (h.bits type _ (mem_attributed_global hk hg) _
      (mem_attributed_specific ho he hn) (.inl rfl) (.inr rfl) (by simp [permissionOf])).1
        rfl
  · by_contra hbo
    obtain ⟨hl, hs⟩ := not_or.mp hbo
    have hla := Nat.lt_of_not_le hl
    push Not at hs
    obtain ⟨a, ha, b, hb, hne⟩ := hs
    obtain ⟨name, hn, hot⟩ : ∃ name ∈ globalNames declarations,
      name ≠ (globalNames declarations)[128] := by
      by_cases heq : a = (globalNames declarations)[128]
      · exact ⟨b, hb, heq ▸ hne.symm⟩
      · exact ⟨a, ha, heq⟩
    obtain ⟨i, hi⟩ := mem_iff_getElem?.mp hn
    have hbi := (h.bits "" _ (mem_attributed_global hk hi) _
      (mem_attributed_global hk (getElem?_eq_getElem hla)) (.inl rfl) (.inl rfl)
      (by simpa [permissionOf] using hot)).2.2
    exact absurd hbi (lt_irrefl 128)

theorem Separable.global_lt (h : Separable declarations) (hk : c.Knows declarations) {i : ℕ}
  (he : (type, perms) ∈ c.permissions) (hi : (globalNames declarations)[i]? = some name) :
  i < 64 := by
  have hs := hk.mem_specific.mpr ⟨type, he⟩
  exact lt_of_lt_of_le (List.getElem?_eq_some_iff.mp hi).1 (h.shared (ne_nil_of_mem hs))

theorem Separable.bits (h : Separable declarations) (hkn : c.Knows declarations)
  (ho : entries.Perm c.permissions) {j k : Option String × PermissionDescription}
  (hj : j ∈ c.attributed entries) (hk : k ∈ c.attributed entries)
  (hjt : (permissionOf j).AppliesTo type) (hkt : (permissionOf k).AppliesTo type)
  (hne : permissionOf j ≠ permissionOf k) :
  j.2.flagBit ≠ k.2.flagBit ∧ j.2.flagBit < 128 ∧ k.2.flagBit < 128 := by
  rw [mem_attributed, hkn.global, ← globalNames] at hj hk
  obtain ⟨i, a, hi, rfl⟩ | ⟨⟨t, perms⟩, he, a, ha, rfl⟩ := hj <;>
    obtain ⟨i', b, hi', rfl⟩ | ⟨⟨t', perms'⟩, he', b, hb, rfl⟩ := hk
  · have hn : a ≠ b := fun hq ↦ hne (by rw [permissionOf, permissionOf, hq])
    have hin : i ≠ i' := fun hq ↦ hn (Option.some.inj (hi.symm.trans (hq ▸ hi')))
    rcases h.global with hs | hsa
    · have hlt := (List.getElem?_eq_some_iff.mp hi).1
      have hlt' := (List.getElem?_eq_some_iff.mp hi').1
      exact ⟨hin, lt_of_lt_of_le hlt hs, lt_of_lt_of_le hlt' hs⟩
    · exact absurd (hsa a (mem_of_getElem? hi) b (mem_of_getElem? hi')) hn
  · have hlt := h.global_lt hkn (ho.mem_iff.mp he') hi
    dsimp only
    omega
  · have hlt := h.global_lt hkn (ho.mem_iff.mp he) hi'
    dsimp only
    omega
  · simp only [permissionOf, Permission.AppliesTo, reduceCtorEq, false_or, Option.some.injEq]
      at hjt hkt
    subst hjt hkt
    have hp := congrArg Prod.snd (inj_on_of_nodup_map hkn.keys
      (ho.mem_iff.mp he) (ho.mem_iff.mp he') rfl)
    subst hp
    have hsp := hkn.mem_specific.mpr ⟨_, ho.mem_iff.mp he⟩
    exact absurd (by rw [h.specific perms hsp a ha b hb]) hne

theorem Separable.reach (h : Separable declarations) (hkn : c.Knows declarations)
  {k : Option String × PermissionDescription} (hk : k ∈ c.attributed entries) :
  ∃ j ∈ c.attributed entries, permissionOf j = permissionOf k ∧ j.2.flagBit < 128 := by
  rcases mem_attributed.mp hk with ⟨i, name, hi, rfl⟩ | ⟨entry, -, name, -, rfl⟩
  · rw [hkn.global] at hi
    obtain ⟨hl, hg⟩ := List.getElem?_eq_some_iff.mp hi
    rcases h.global with hs | hsa
    · exact ⟨_, hk, rfl, lt_of_lt_of_le hl hs⟩
    · have hf := getElem?_eq_getElem (Nat.zero_lt_of_lt hl)
      refine ⟨_, mem_attributed_global hkn hf, ?_, by simp⟩
      rw [permissionOf, permissionOf]
      exact congrArg _ (hsa _ (getElem_mem _) _ (mem_of_getElem? hi))
  · exact ⟨_, hk, rfl, by simp⟩

theorem Separable.distinguished (h : Separable declarations) (hkno : c.Knows declarations)
  (ho : entries.Perm c.permissions) : Distinguished (c.attributed entries) := by
  refine ⟨fun type j hj k hk ↦ h.bits hkno ho hj hk, fun type r g hs ↦ ?_⟩
  rw [Handle.hasPermissions, decide_eq_true_eq, valueOf, valueOf, and_mask_eq_iff]
  simp only [mem_filter, decide_eq_true_eq]
  constructor
  · intro hb p hp
    obtain ⟨hkn, ht⟩ := hs p (mem_append_left _ hp)
    obtain ⟨k, hk, rfl⟩ := mem_map.mp hkn
    obtain ⟨j, hj, hjk, hl⟩ := h.reach hkno hk
    obtain ⟨i, ⟨hi, hg⟩, hbi⟩ := hb j ⟨hj, hjk ▸ hp⟩ hl
    obtain ⟨-, hit⟩ := hs _ (mem_append_right _ hg)
    by_contra hn
    refine (h.bits hkno ho hi hj hit (hjk ▸ ht) fun he ↦ ?_).1 hbi
    exact hn (hjk ▸ he ▸ hg)
  · rintro hsu j ⟨hj, hr⟩ -
    exact ⟨j, ⟨hj, hsu hr⟩, rfl⟩

theorem distinguished_iff_separable (filename : String) (args : ContextArgs)
    (declarations : List Declaration) (c : Context)
    (hprocess : process filename declarations { args := args } = .ok ((), c))
    (entries : List (String × List String)) (horder : entries.Perm c.permissions) :
    Distinguished (c.attributed entries) ↔ Separable declarations := by
  have hi : Context.Knows { args := args } [] := ⟨nodup_nil, rfl, rfl⟩
  have hk := hi.process hprocess
  exact ⟨fun h ↦ h.separable hk horder, fun h ↦ h.distinguished hk horder⟩

def vmoPermissions : List Declaration :=
  [.permissions 3 1 ⟨none, ["read", "write", "transfer", "clone"], by decide⟩,
    .permissions 10 1 ⟨some { nameElements := ["kernel", "vm", "vmo"] }, ["map"], by decide⟩]

theorem distinguished_vmo :
  ∃ c, process "meta" vmoPermissions { args := ⟨"rose::syscall", "amd64"⟩ } = .ok ((), c) ∧
  Distinguished (c.attributed c.permissions) := by
  refine ⟨_, rfl, (distinguished_iff_separable "meta" ⟨"rose::syscall", "amd64"⟩ vmoPermissions _
    rfl _ (List.Perm.refl _)).mpr ⟨?_, ?_, ?_⟩⟩
  · decide
  · decide
  · decide

def metaPermissions : List Declaration :=
  [.permissions 3 1 ⟨none, ["read", "write", "transfer", "clone"], by decide⟩,
    .permissions 10 1 ⟨some { nameElements := ["kernel", "kernel_caps_t"] },
      ["create_vas", "create_process"], by decide⟩,
    .permissions 15 1 ⟨some { nameElements := ["kernel", "vm", "vmo"] }, ["map"], by decide⟩,
    .permissions 19 1 ⟨some { nameElements := ["kernel", "vm", "vas"] }, ["create_mapping"],
      by decide⟩,
    .permissions 23 1 ⟨some { nameElements := ["kernel", "vm", "vmo_mapping"] },
      ["unmap", "destroy"], by decide⟩]

theorem not_distinguished : ¬ ∀ filename args declarations c entries,
      process filename declarations { args := args } = .ok ((), c) →
        entries.Perm c.permissions → Distinguished (c.attributed entries) := by
  intro h
  have hm := h "meta" ⟨"rose::syscall", "amd64"⟩ metaPermissions _ _ rfl (List.Perm.refl _)
  refine (hm.bits "kernel::kernel_caps_t" (some "kernel::kernel_caps_t", ⟨"create_vas", 64⟩) ?_
    (some "kernel::kernel_caps_t", ⟨"create_process", 64⟩) ?_ (.inr rfl) (.inr rfl) ?_).1 rfl
  · decide
  · decide
  · decide

end ReaverOS.Thorn
