import ReaverOS.Thorn.Lexer

namespace ReaverOS.Thorn.Parser

open Foundation.TokenProgram Lexer

abbrev Parse := Program Token Failure

def expect (type : TokenType) : Parse String := do
  let t ← accept (·.type == type) fun t ↦ .expected t.line t.column type t.contents
  return t.contents

def optionally {α : Type} (type : TokenType) (p : Parse α) : Parse (Option α) :=
  choose (·.type == type)
    (do
      let _ ← expect type
      let a ← p
      return some a)
    (return none)

def qualifiedName (inGeneratedScope : Bool) (first : String) : List String → Parse QualifiedName
  | [] => return if inGeneratedScope then .generated first else .outer first []
  | second :: rest =>
    if inGeneratedScope then do
      let t ← .token
      .fail (.nestedGenerated t.line t.column)
    else return .outer first (second :: rest)

def parseQualifiedName : Parse QualifiedName := do
  let dollar ← optionally .dollar (expect .scope)
  let first ← expect .identifier
  let rest ← .whileDo (·.type == .scope) do
    let _ ← expect .scope
    expect .identifier
  qualifiedName dollar.isSome first rest

def commaSeparated {α : Type} (item : Parse α) : Parse (α × List α) := do
  let first ← item
  let rest ← .whileDo (·.type != .closeParen) do
    let _ ← expect .comma
    item
  let _ ← expect .closeParen
  return (first, rest)

def parseObjectType : Parse (Option QualifiedName) :=
  choose (·.type != .openParen)
    (do
      let _ ← expect .for_
      let type ← parseQualifiedName
      return some type)
    (return none)

def parsePermissions : Parse PermissionsDefinition := do
  let _ ← expect .permissions
  let objectType ← parseObjectType
  let _ ← expect .openParen
  let permissions ← commaSeparated (expect .identifier)
  let _ ← expect .semicolon
  return ⟨objectType, permissions.1 :: permissions.2, List.cons_ne_nil _ _⟩

def parseDirection : Parse (Bool × Bool) := do
  let contents ← expect .direction
  return (contents == "in", contents == "out")

def parseParameterType (name : String) (isIn isOut : Bool) : Parse Parameter := do
  let _ ← (if isIn || isOut then expect .ptr else return "")
  let permissions ← optionally .token do
    let _ ← expect .openParen
    commaSeparated (expect .identifier)
  let typeSpec ← parseQualifiedName
  return { name, isIn, isOut, typeSpec,
           tokenPermissions := permissions.map fun list ↦ list.1 :: list.2 }

def parseParameter : Parse Parameter := do
  let name ← expect .identifier
  let _ ← expect .colon
  let directions ← .whileDo (·.type == .direction) parseDirection
  parseParameterType name (directions.any (·.1)) (directions.any (·.2))

def parseSyscall : Parse ParsedSyscall := do
  let _ ← expect .syscall
  let _ ← expect .openParen
  let scope ← parseQualifiedName
  let blocking ← optionally .comma (expect .blocking)
  let _ ← expect .closeParen
  let name ← expect .identifier
  let _ ← expect .openParen
  let parameters ← commaSeparated parseParameter
  let returnType ← optionally .arrow parseQualifiedName
  let _ ← expect .semicolon
  return { scope, blocking := blocking.isSome, name, returnType,
           parameters := parameters.1 :: parameters.2 }

def parseEnum : Parse ParsedEnum := do
  let _ ← expect .enum
  let name ← expect .identifier
  let _ ← expect .openParen
  let enumerations ← commaSeparated (expect .identifier)
  let _ ← expect .semicolon
  return { name, enumerations := enumerations.1 :: enumerations.2 }

def parseUnionMember : Parse UnionMember := do
  let name ← expect .identifier
  let _ ← expect .colon
  let type ← parseQualifiedName
  return { name, type }

def parseUnion : Parse (List UnionMember) := do
  let _ ← expect .union
  let _ ← expect .openParen
  let members ← commaSeparated parseUnionMember
  return members.1 :: members.2

def parseMemberType : Parse MemberType :=
  choose (·.type == .union)
    (do
      let members ← parseUnion
      return .union members)
    (do
      let type ← parseQualifiedName
      return .named type)

def parseStructMember : Parse StructMember := do
  let name ← expect .identifier
  let _ ← expect .colon
  let type ← parseMemberType
  return { name, type }

def parseStructItem : Parse StructMember := do
  let member ← parseStructMember
  let _ ← choose (·.type != .closeParen) (expect .comma) (return "")
  return member

def parseStruct : Parse ParsedStruct := do
  let _ ← expect .struct
  let name ← expect .identifier
  let _ ← expect .openParen
  let members ← .whileDo (·.type != .closeParen) parseStructItem
  let _ ← expect .closeParen
  let _ ← expect .semicolon
  return { name, members }

def parseInclude : Parse ParsedInclude := do
  let _ ← expect .include_
  let headerName ← expect .headerName
  let _ ← expect .semicolon
  return { headerName }

def declarationAt (t : Token) : Parse Declaration :=
  match t.type with
  | .permissions => return .permissions t.line t.column (← parsePermissions)
  | .enum => return .enum (← parseEnum)
  | .struct => return .struct (← parseStruct)
  | .syscall => return .syscall (← parseSyscall)
  | .include_ => return .include_ (← parseInclude)
  | .union | .openParen | .closeParen | .colon | .comma | .semicolon | .scope | .token | .for_
  | .direction | .ptr | .identifier | .arrow | .dollar | .headerName | .blocking =>
    .fail (.expectedDeclaration t.line t.column t.contents)

def parseDeclaration : Parse Declaration := .token >>= declarationAt

def handleDeclaration (filename : String) (declaration : Declaration) (c : Context) :
  Except Failure Context :=
  match insertDeclaration filename declaration c with
  | .error e => .error (.semantic e)
  | .ok (_, c) => .ok c

def readFile {γ : Type} (handle : Declaration → γ → Except Failure γ) (fuel : ℕ) (text : List Char)
  (c : γ) : Verdict Failure γ :=
  match tokenize text with
  | .error e => .failed e
  | .ok s => readItems tokens parseDeclaration handle fuel fuel s c

def processFile (filename : String) (fuel : ℕ) (text : List Char) (c : Context) :
  Verdict Failure Context :=
  readFile (handleDeclaration filename) fuel text c

def parseFile (fuel : ℕ) (text : List Char) : Verdict Failure (List Declaration) :=
  readFile (fun declaration declarations ↦ .ok (declarations ++ [declaration])) fuel text []

variable {σ α β : Type} {F : Feed σ Token Failure} {en : Option Failure}
  {before before' m after after' late late' : List TokenType}

def Cut (F : Feed σ Token Failure) (before : List TokenType) (p : Parse α)
  (after late : List TokenType) : Prop :=
  F.Cut (F.last.type = .direction) (F.last.type ∈ before) p (F.last.type ∈ after)
    (F.last.type ∈ late)

namespace Cut

theorem mono {p : Parse α} (h : Cut F before p after late) (hb : before' ⊆ before) :
  Cut F before' p after late :=
  Feed.Cut.mono h (fun h ↦ hb h) id id

theorem bind {p : Parse β} {f : β → Parse α} (hp : Cut F before p m late) (hl : late ⊆ m)
  (hf : ∀ b, Cut F m (f b) after late') : Cut F before (p >>= f) after late' :=
  Feed.Cut.bind hp (fun h ↦ hl h) hf

theorem bindTo (m : List TokenType) {p : Parse β} {f : β → Parse α} (hp : Cut F before p m m)
  (hf : ∀ b, Cut F m (f b) after late) : Cut F before (p >>= f) after late :=
  Feed.Cut.bind hp id hf

theorem bind_pure {p : Parse β} (hp : Cut F before p m late) (g : β → α) (hm : m ⊆ after)
  (hl : late ⊆ late') : Cut F before (p >>= fun b ↦ pure (g b)) after late' :=
  Feed.Cut.bind_pure hp g (fun h ↦ hm h) fun h ↦ hl h

theorem pure (a : α) (ha : before ⊆ after) (hl : before ⊆ late) :
  Cut F before (pure a) after late :=
  Feed.Cut.pure a (fun h ↦ ha h) fun h ↦ hl h

theorem fail (e : Failure) (h : .direction ∉ before) :
  Cut F before (.fail e : Parse α) after late :=
  Feed.Cut.fail e fun hl he ↦ h (he ▸ hl)

theorem token_bind {f : Token → Parse α} (hf : ∀ t, Cut F before (f t) after late) :
  Cut F before (.token >>= f) after late :=
  Feed.Cut.token_bind fun t ↦ Feed.Cut.mono (hf t) And.left id id

theorem expect (ty : TokenType) (h : .direction ∉ before ∧ ty ∉ before) :
  Cut F before (Parser.expect ty) [ty] [] := by
  have hd : F.last.type ∈ before → F.last.type ≠ .direction := fun hl he ↦ h.1 (he ▸ hl)
  refine Feed.Cut.bind_pure (Feed.Cut.accept _ _ fun hl _ ↦ hd hl) _ ?_ ?_
  · intro he
    exact List.mem_singleton.2 (beq_iff_eq.1 he)
  · rintro ⟨hl, he⟩
    exact absurd hl (beq_iff_eq.1 he ▸ h.2)

theorem expectTo (ty : TokenType) (h : .direction ∉ before ∧ ty ∉ before)
  (ha : ty ∈ after) : Cut F before (Parser.expect ty) after late := by
  refine Feed.Cut.mono (expect ty h) id ?_ ?_
  · intro hl
    rw [List.mem_singleton.1 hl]
    exact ha
  · intro hl
    cases hl

theorem expectAgain (ty : TokenType) (h : .direction ∉ before) :
  Cut F before (Parser.expect ty) [ty] [ty] := by
  refine Feed.Cut.bind_pure (Feed.Cut.accept _ _ fun hl _ he ↦ ?_) _ ?_ ?_
  · exact h (he ▸ hl)
  · intro he
    exact List.mem_singleton.2 (beq_iff_eq.1 he)
  · rintro ⟨-, he⟩
    exact List.mem_singleton.2 (beq_iff_eq.1 he)

theorem choose (ys no : List TokenType) {t : Token → Bool} {p q : Parse α}
  (hy : F.last.type ∈ before → t F.last = true → F.last.type ∈ ys)
  (hn : F.last.type ∈ before → t F.last = false → F.last.type ∈ no)
  (hp : Cut F ys p after late) (hq : Cut F no q after late) :
  Cut F before (choose t p q) after late :=
  Feed.Cut.choose (Feed.Cut.mono hp (fun h ↦ hy h.1 h.2) id id)
    (Feed.Cut.mono hq (fun h ↦ hn h.1 h.2) id id)

theorem whileDo (after : List TokenType) {c : Token → Bool} {b : Parse β}
  (hb : Cut F [] b before before) (ha : Advances F.ending b) (hd : .direction ∉ before)
  (hr : F.last.type ∈ before → c F.last = true → F.Refuses b)
  (he : F.last.type ∈ before → c F.last = false → F.last.type ∈ after) :
  Cut F before (.whileDo c b) after after := by
  have hb' := Feed.Cut.mono hb False.elim id id
  refine Feed.Cut.mono (Feed.Cut.whileDo hb' id ha ?_) id ?_ ?_
  · exact fun hl hc ↦ .inl ⟨fun hq ↦ hd (hq ▸ hl), hr hl hc⟩
  · exact fun h ↦ he h.1 h.2
  · exact fun h ↦ he h.1 h.2

end Cut

theorem advances_expect (ty : TokenType) : Advances en (expect ty) :=
  (Advances.accept _ _).bind _

theorem refuses_expect {ty : TokenType} (h : F.last.type ≠ ty) : F.Refuses (expect ty) := by
  refine Feed.Refuses.bind (Feed.refuses_accept _ ?_) _
  exact beq_eq_false_iff_ne.2 h

theorem Cut.optionally {ty : TokenType} {p : Parse α}
  (hb : .direction ∉ before ∧ ty ∉ before) (hp : Cut F [ty] p m late)
  (ha : before ⊆ after) (hm : m ⊆ after) (hl : late ⊆ after) :
  Cut F before (optionally ty p) after after := by
  refine .choose [] before ?_ (fun h _ ↦ h) ?_ (.pure _ ha ha)
  · intro h ht
    exact absurd (beq_iff_eq.1 ht ▸ h) hb.2
  · refine .bind (.expect _ ⟨by simp, by simp⟩) (by simp) fun _ ↦ ?_
    exact .bind_pure hp _ hm hl

end ReaverOS.Thorn.Parser
