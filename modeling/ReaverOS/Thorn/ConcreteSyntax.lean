import ReaverOS.Thorn.ParserEnd

namespace ReaverOS.Thorn.Parser

open Lexer

section

structure Lexeme where
  type : TokenType
  contents : String
  deriving DecidableEq

def lexeme (t : Token) : Lexeme := ⟨t.type, t.contents⟩

def spelling : TokenType → String
  | .syscall => "syscall"
  | .enum => "enum"
  | .struct => "struct"
  | .union => "union"
  | .openParen => "("
  | .closeParen => ")"
  | .colon => ":"
  | .comma => ","
  | .semicolon => ";"
  | .scope => "::"
  | .token => "token"
  | .permissions => "permissions"
  | .for_ => "for"
  | .ptr => "ptr"
  | .arrow => "->"
  | .dollar => "$"
  | .include_ => "include"
  | .blocking => "blocking"
  | .direction | .identifier | .headerName => ""

namespace Lexeme

def fixed (type : TokenType) : Lexeme := ⟨type, spelling type⟩

def identifier (name : String) : Lexeme := ⟨.identifier, name⟩

def direction (isIn : Bool) : Lexeme := ⟨.direction, if isIn then "in" else "out"⟩

def headerName (name : String) : Lexeme := ⟨.headerName, name⟩

def text (l : Lexeme) : List Char :=
  match l.type with
  | .headerName => '<' :: l.contents.toList ++ ['>']
  | _ => l.contents.toList

end Lexeme

open Lexeme

def commaList : List (List Lexeme) → List Lexeme
  | [] => []
  | first :: rest => first ++ rest.flatMap fun item ↦ fixed .comma :: item

def identifiers (names : List String) : List Lexeme := commaList (names.map fun n ↦ [identifier n])

def nameLexemes (name : QualifiedName) : List Lexeme :=
  (if name.inGeneratedScope then [fixed .dollar, fixed .scope] else []) ++
    match name.nameElements with
    | [] => []
    | first :: rest => identifier first :: rest.flatMap fun e ↦ [fixed .scope, identifier e]

def unionMemberLexemes (m : UnionMember) : List Lexeme :=
  [identifier m.name, fixed .colon] ++ nameLexemes m.type

def memberTypeLexemes : MemberType → List Lexeme
  | .named type => nameLexemes type
  | .union members =>
    [fixed .union, fixed .openParen] ++ commaList (members.map unionMemberLexemes) ++
      [fixed .closeParen]

def structMemberLexemes (m : StructMember) : List Lexeme :=
  [identifier m.name, fixed .colon] ++ memberTypeLexemes m.type

def tokenLexemes : Option (List String) → List Lexeme
  | none => []
  | some permissions =>
    [fixed .token, fixed .openParen] ++ identifiers permissions ++ [fixed .closeParen]

def SpellsParameter (p : Parameter) (ls : List Lexeme) : Prop :=
  ∃ directions : List Bool, p.isIn = directions.any id ∧ p.isOut = directions.any not ∧
    p.tokenPermissions ≠ some [] ∧
    ls = [identifier p.name, fixed .colon] ++ directions.map direction ++
      (if p.isIn || p.isOut then [fixed .ptr] else []) ++ tokenLexemes p.tokenPermissions ++
      nameLexemes p.typeSpec

inductive Spells : Declaration → List Lexeme → Prop
  | permissions (line column : ℕ) (ast : PermissionsDefinition) :
    Spells (.permissions line column ast)
      ([fixed .permissions] ++
        (match ast.objectType with
        | none => []
        | some type => fixed .for_ :: nameLexemes type) ++
        [fixed .openParen] ++ identifiers ast.permissions ++ [fixed .closeParen, fixed .semicolon])
  | enum (ast : ParsedEnum) (h : ast.enumerations ≠ []) :
    Spells (.enum ast)
      ([fixed .enum, identifier ast.name, fixed .openParen] ++ identifiers ast.enumerations ++
        [fixed .closeParen, fixed .semicolon])
  | struct (ast : ParsedStruct) (h : ∀ m ∈ ast.members, m.type ≠ .union []) (trailing : Bool)
    (htrailing : trailing = true → ast.members ≠ []) :
    Spells (.struct ast)
      ([fixed .struct, identifier ast.name, fixed .openParen] ++
        commaList (ast.members.map structMemberLexemes) ++
        (if trailing then [fixed .comma] else []) ++ [fixed .closeParen, fixed .semicolon])
  | syscall (ast : ParsedSyscall) (h : ast.parameters ≠ []) (parameters : List (List Lexeme))
    (hparameters : List.Forall₂ SpellsParameter ast.parameters parameters) :
    Spells (.syscall ast)
      ([fixed .syscall, fixed .openParen] ++ nameLexemes ast.scope ++
        (if ast.blocking then [fixed .comma, fixed .blocking] else []) ++
        [fixed .closeParen, identifier ast.name, fixed .openParen] ++ commaList parameters ++
        [fixed .closeParen] ++
        (match ast.returnType with
        | none => []
        | some type => fixed .arrow :: nameLexemes type) ++ [fixed .semicolon])
  | include_ (ast : ParsedInclude) :
    Spells (.include_ ast) [fixed .include_, headerName ast.headerName, fixed .semicolon]

def SpellsAll (declarations : List Declaration) (ls : List Lexeme) : Prop :=
  ∃ lss, List.Forall₂ Spells declarations lss ∧ ls = lss.flatten

inductive Written : List Lexeme → List Char → Prop
  | nil (gap : List Char) (hgap : ∀ c ∈ gap, isSpace c = true) : Written [] gap
  | cons (l : Lexeme) (gap : List Char) (hne : gap ≠ []) (hgap : ∀ c ∈ gap, isSpace c = true)
    {ls : List Lexeme} {text : List Char} (h : Written ls text) :
    Written (l :: ls) (l.text ++ gap ++ text)

def isWord : List Char → Bool
  | [] => false
  | c :: cs => c.isAlpha && cs.all isWordChar

def IsIdentifier (name : String) : Prop :=
  isWord name.toList = true ∧ keywords.lookup name = none

instance instDecidableIsIdentifier (name : String) : Decidable (IsIdentifier name) :=
  inferInstanceAs (Decidable (_ ∧ _))

def withoutPlace : Declaration → Declaration
  | .permissions _ _ ast => .permissions 0 0 ast
  | .enum ast => .enum ast
  | .struct ast => .struct ast
  | .syscall ast => .syscall ast
  | .include_ ast => .include_ ast

open Lexeme List

variable {p : Position} {c : Char} {cs : List Char} {l : Lexeme}

theorem isWordChar_of_isSpace (h : isSpace c = true) : isWordChar c = false := by
  have ha : [' ', '\t', '\n', '\x0b', '\x0c', '\r'].all (fun d ↦ !isWordChar d) = true := by
    decide
  simpa using all_eq_true.1 ha c (contains_iff_mem.1 h)

theorem ne_colon_of_isSpace (h : isSpace c = true) : c ≠ ':' := by
  rintro rfl
  exact absurd h (by decide)

theorem isSpace_of_isAlpha (h : c.isAlpha = true) : isSpace c = false := by
  rw [Bool.eq_false_iff]
  intro hs
  have hw : isWordChar c = true := by
    simp [isWordChar, Char.isAlphanum, h]
  rw [isWordChar_of_isSpace hs] at hw
  cases hw

theorem ne_of_isAlpha {d : Char} (h : c.isAlpha = true) (hd : d.isAlpha = false) : c ≠ d := by
  rintro rfl
  rw [h] at hd
  cases hd

theorem lookup_symbolTypes_of_isAlpha (h : c.isAlpha = true) : symbolTypes.lookup c = none := by
  have hs : symbolTypes.all (fun e ↦ !e.1.isAlpha) = true := by decide
  refine lookup_eq_none_iff.mpr fun e he ↦ bne_iff_ne.mpr (ne_of_isAlpha h ?_)
  exact Bool.not_eq_true' _ |>.mp (all_eq_true.mp hs e he)

theorem scanWord_append (b : Position) (w : List Char) (p : Position) (xs : List Char)
  (hs : ∀ d ∈ cs, isWordChar d = true) (hc : isWordChar c = false) :
  ∃ po, scanWord b w p (cs ++ c :: xs) =
  ⟨wordToken b (String.ofList (w.reverse ++ cs)), c :: xs, po, false⟩ := by
  induction cs generalizing w p with
  | nil => exact ⟨p, by simp [scanWord, hc]⟩
  | cons d cs ih =>
    obtain ⟨po, h⟩ := ih (d :: w) (p.after d) fun e he ↦ hs e (mem_cons_of_mem d he)
    refine ⟨po, ?_⟩
    rw [cons_append, scanWord, if_pos (hs d mem_cons_self), h]
    simp

theorem scanHeaderName_append (b : Position) (n : List Char) (p : Position)
  (xs : List Char) (hs : '>' ∉ cs) : ∃ po, scanHeaderName b n p (cs ++ '>' :: xs) =
  .ok ⟨⟨b.line, b.column, String.ofList (n.reverse ++ cs), .headerName⟩, xs, po, false⟩ := by
  induction cs generalizing n p with
  | nil => exact ⟨p.after '>', by simp [scanHeaderName]⟩
  | cons d cs ih =>
    obtain ⟨po, h⟩ := ih (d :: n) (p.after d) fun h ↦ hs (mem_cons_of_mem d h)
    refine ⟨po, ?_⟩
    have hd : d ≠ '>' := fun h ↦ hs (h ▸ mem_cons_self)
    rw [cons_append, scanHeaderName, if_neg hd, h]
    simp

def Proper (l : Lexeme) : Prop :=
  match l.type with
  | .identifier => IsIdentifier l.contents
  | .headerName => '>' ∉ l.contents.toList
  | .direction => l.contents = "in" ∨ l.contents = "out"
  | type => l.contents = spelling type

def Scans (l : Lexeme) : Prop :=
  ∃ d ds, l.text = d :: ds ∧ isSpace d = false ∧
    ∀ (p : Position) (c : Char) (rest : List Char), isSpace c = true →
      ∃ position, scanToken p d (ds ++ c :: rest) =
        .ok ⟨⟨p.line, p.column, l.contents, l.type⟩, c :: rest, position, false⟩

theorem scans_of_isWord (hw : isWord l.contents.toList = true)
  (ht : (keywords.lookup l.contents).getD .identifier = l.type)
  (hte : l.text = l.contents.toList) : Scans l := by
  cases hl : l.contents.toList with
  | nil =>
    rw [hl] at hw
    cases hw
  | cons d ds =>
    rw [hl, isWord, Bool.and_eq_true, all_eq_true] at hw
    obtain ⟨hd, hs⟩ := hw
    refine ⟨d, ds, hte.trans hl, isSpace_of_isAlpha hd, fun p c xs hc ↦ ?_⟩
    obtain ⟨po, h⟩ := scanWord_append p [d] (p.after d) xs hs (isWordChar_of_isSpace hc)
    refine ⟨po, ?_⟩
    rw [scanToken, if_neg (ne_of_isAlpha hd (by decide)), if_neg (ne_of_isAlpha hd (by decide)),
      if_neg (ne_of_isAlpha hd (by decide)), lookup_symbolTypes_of_isAlpha hd]
    simp only [hd, if_true]
    rw [h, wordToken]
    have hco : String.ofList ([d].reverse ++ ds) = l.contents := by
      rw [reverse_singleton, singleton_append, ← hl, String.ofList_toList]
    rw [hco, ht]

theorem keywords_words : ∀ k ∈ keywords, isWord k.1.toList = true ∧
  (keywords.lookup k.1).getD .identifier = k.2 ∧ k.2 ≠ .headerName := by
  decide

theorem scans_of_mem_keywords {co : String} {ty : TokenType}
  (h : (co, ty) ∈ keywords) : Scans ⟨ty, co⟩ := by
  obtain ⟨hw, ht, hh⟩ := keywords_words _ h
  refine scans_of_isWord hw ht ?_
  rw [Lexeme.text]
  split
  · exact absurd ‹_› hh
  · rfl

theorem scans_of_proper (h : Proper l) : Scans l := by
  obtain ⟨type, contents⟩ := l
  cases type with
  | identifier =>
    obtain ⟨hw, hl⟩ : IsIdentifier contents := h
    exact scans_of_isWord hw (by rw [hl]; rfl) rfl
  | headerName =>
    have hn := h
    refine ⟨'<', contents.toList ++ ['>'], rfl, by decide, fun p c rest _ ↦ ?_⟩
    obtain ⟨position, h⟩ := scanHeaderName_append p [] (p.after '<') (c :: rest) hn
    refine ⟨position, ?_⟩
    rw [List.append_assoc, singleton_append, scanToken, if_neg (by decide),
      if_neg (by decide), if_pos rfl, h, reverse_nil, nil_append, String.ofList_toList]
  | direction =>
    rcases h with rfl | rfl
    · exact scans_of_mem_keywords (by decide)
    · exact scans_of_mem_keywords (by decide)
  | openParen =>
    obtain rfl : contents = "(" := h
    exact ⟨'(', [], by decide, by decide, fun p c rest _ ↦ ⟨_, rfl⟩⟩
  | closeParen =>
    obtain rfl : contents = ")" := h
    exact ⟨')', [], by decide, by decide, fun p c rest _ ↦ ⟨_, rfl⟩⟩
  | comma =>
    obtain rfl : contents = "," := h
    exact ⟨',', [], by decide, by decide, fun p c rest _ ↦ ⟨_, rfl⟩⟩
  | semicolon =>
    obtain rfl : contents = ";" := h
    exact ⟨';', [], by decide, by decide, fun p c rest _ ↦ ⟨_, rfl⟩⟩
  | dollar =>
    obtain rfl : contents = "$" := h
    exact ⟨'$', [], by decide, by decide, fun p c rest _ ↦ ⟨_, rfl⟩⟩
  | colon =>
    obtain rfl : contents = ":" := h
    refine ⟨':', [], by decide, by decide, fun p c rest hc ↦ ⟨p.after ':', ?_⟩⟩
    rw [scanToken, if_pos rfl, nil_append, scanColon, if_neg (ne_colon_of_isSpace hc)]
  | scope =>
    obtain rfl : contents = "::" := h
    exact ⟨':', [':'], by decide, by decide, fun p c rest _ ↦ ⟨_, rfl⟩⟩
  | arrow =>
    obtain rfl : contents = "->" := h
    exact ⟨'-', ['>'], by decide, by decide, fun p c rest _ ↦ ⟨_, rfl⟩⟩
  | _ =>
    simp only [Proper, spelling] at h
    subst h
    exact scans_of_mem_keywords (by decide)

theorem skipSpace_append {g : List Char} (hg : ∀ c ∈ g, isSpace c = true) (p : Position)
  (cs : List Char) : ∃ p', skipSpace (g ++ cs) p = skipSpace cs p' := by
  induction g generalizing p with
  | nil => exact ⟨p, rfl⟩
  | cons c g ih =>
    obtain ⟨p', h⟩ := ih (fun d hd ↦ hg d (mem_cons_of_mem c hd)) (p.after c)
    refine ⟨p', ?_⟩
    rw [cons_append, skipSpace, if_pos (hg c mem_cons_self), h]

theorem lexFrom_written {ls : List Lexeme} {t : List Char} (h : Written ls t)
  (hp : ∀ l ∈ ls, Proper l) (g : List Char) (hg : ∀ c ∈ g, isSpace c = true)
  (p : Position) {fuel : ℕ} (hf : (g ++ t).length < fuel) :
  ∃ ts, lexFrom fuel (g ++ t) p = ⟨ts, none, false⟩ ∧ ts.map lexeme = ls := by
  obtain ⟨fuel, rfl⟩ : ∃ k, fuel = k + 1 := ⟨fuel - 1, by omega⟩
  induction h generalizing g p fuel with
  | nil g' hg' =>
    refine ⟨[], ?_, rfl⟩
    obtain ⟨p', h⟩ := skipSpace_append hg p g'
    obtain ⟨p'', h'⟩ := skipSpace_append hg' p' []
    rw [List.append_nil] at h'
    simp only [lexFrom, h, h', skipSpace]
  | @cons l g' hne hg' ls t hr ih =>
    obtain ⟨d, ds, ht, hd, hs⟩ := scans_of_proper (hp l mem_cons_self)
    obtain ⟨c, g', rfl⟩ := exists_cons_of_ne_nil hne
    have hw : l.text ++ c :: g' ++ t = d :: (ds ++ c :: (g' ++ t)) := by
      simp [ht]
    rw [hw] at hf ⊢
    obtain ⟨p', hsk⟩ := skipSpace_append hg p (d :: (ds ++ c :: (g' ++ t)))
    obtain ⟨po, hs⟩ := hs p' c (g' ++ t) (hg' c mem_cons_self)
    have hle : (c :: g' ++ t).length < fuel := by
      simp only [length_append, length_cons] at hf ⊢
      omega
    obtain ⟨fuel, rfl⟩ : ∃ k, fuel = k + 1 := ⟨fuel - 1, by omega⟩
    obtain ⟨ts, hts, hm⟩ := ih (fun l hl ↦ hp l (mem_cons_of_mem _ hl)) (c :: g') hg' po fuel hle
    refine ⟨⟨p'.line, p'.column, l.contents, l.type⟩ :: ts, ?_, ?_⟩
    · rw [lexFrom, hsk, skipSpace, if_neg (by simp [hd])]
      simp only [hs]
      rw [← cons_append, hts]
      rfl
    · rw [map_cons, hm]
      rfl

end

open Foundation.TokenProgram Lexeme

section

open List

section

variable {α : Type} {ls : List Lexeme} {nx : Option Lexeme → Prop}

def NextIsNot (type : TokenType) (o : Option Lexeme) : Prop := ∃ l, o = some l ∧ l.type ≠ type

variable {type : TokenType}

theorem nextIsNot_fixed {type' : TokenType} (h : type' ≠ type) :
  NextIsNot type (some (fixed type')) :=
  ⟨_, rfl, h⟩

theorem nextIsNot_identifier (h : .identifier ≠ type) (n : String) :
  NextIsNot type (some (identifier n)) :=
  ⟨_, rfl, h⟩

theorem type_of_lexeme {t : Token} {l : Lexeme} (h : lexeme t = l) : t.type = l.type := by
  rw [← h]
  rfl

theorem reads_expect (ty : TokenType) (cs : String) :
  Reads lexeme (expect ty) cs [⟨ty, cs⟩] nx := by
  refine Reads.accept _ fun t ht ↦ ⟨?_, ?_⟩
  · rw [type_of_lexeme ht, beq_self_eq_true]
  · rw [← show (lexeme t).contents = cs by rw [ht]]
    rfl

variable {a : α}

theorem Reads.expect_bind {cs : String} {f : String → Parse α} (hf : Reads lexeme (f cs) a ls nx) :
  Reads lexeme (expect type >>= f) a (⟨type, cs⟩ :: ls) nx := by
  have he : Reads lexeme (expect type) cs [⟨type, cs⟩] fun _ ↦ True := reads_expect type cs
  exact he.bind hf fun _ _ ↦ trivial

theorem type_beq_of_lexeme {t : Token} {l : Lexeme} (h : lexeme t = l) :
  (t.type == type) = (l.type == type) := by
  rw [type_of_lexeme h]

theorem reads_optionally_none (p : Parse α) :
  Reads lexeme (optionally type p) none [] (NextIsNot type) := by
  refine Reads.choose_no ?_ (Reads.pure none)
  rintro o ⟨l, rfl, hl⟩
  exact ⟨l, rfl, fun t ht ↦ (type_beq_of_lexeme ht).trans (beq_eq_false_iff_ne.2 hl)⟩

theorem reads_optionally_some {cs : String} {p : Parse α} (hp : Reads lexeme p a ls nx) :
  Reads lexeme (optionally type p) (some a) (⟨type, cs⟩ :: ls) nx := by
  refine Reads.choose_yes (fun t ht ↦ ?_) (Reads.expect_bind (hp.bind_pure some))
  rw [type_beq_of_lexeme ht, beq_self_eq_true]

theorem reads_scopes (xs : List String) :
  Reads lexeme (.whileDo (·.type == .scope) do
      let _ ← expect .scope
      expect .identifier) xs
    (xs.flatMap fun e ↦ [fixed .scope, identifier e]) (NextIsNot .scope) := by
  induction xs with
  | nil =>
    refine Reads.whileDo_nil ?_
    rintro o ⟨l, rfl, hl⟩
    exact ⟨l, rfl, fun t ht ↦ (type_beq_of_lexeme ht).trans (beq_eq_false_iff_ne.2 hl)⟩
  | cons e xs ih =>
    have hb : Reads lexeme (expect .scope >>= fun _ ↦ expect .identifier) e
      [fixed .scope, identifier e] fun _ ↦ True := Reads.expect_bind (reads_expect _ _)
    exact Reads.whileDo_cons (fun t ht ↦ type_beq_of_lexeme ht) hb ih fun _ _ ↦ trivial

theorem qualifiedName_eq (name : QualifiedName) {x : String} {xs : List String}
  (h : name.nameElements = x :: xs) : qualifiedName name.inGeneratedScope x xs = pure name := by
  obtain ⟨ing, es, n, s⟩ := name
  subst h
  cases ing with
  | false => cases xs <;> rfl
  | true =>
    obtain rfl : xs = [] := by simpa using s rfl
    rfl

theorem reads_parseQualifiedName (n : QualifiedName) :
  Reads lexeme parseQualifiedName n (nameLexemes n) (NextIsNot .scope) := by
  cases h : n.nameElements with
  | nil => exact absurd h n.nonempty
  | cons x xs =>
    have hn : Reads lexeme (qualifiedName n.inGeneratedScope x xs) n [] (NextIsNot .scope) := by
      rw [qualifiedName_eq n h]
      exact Reads.pure n
    have hr := (reads_scopes xs).bind hn fun _ h ↦ h
    rw [append_nil] at hr
    rw [nameLexemes, h]
    cases hs : n.inGeneratedScope with
    | false =>
      rw [hs] at hr
      exact (reads_optionally_none _).bind (Reads.expect_bind hr)
        fun _ _ ↦ nextIsNot_identifier (by decide) _
    | true =>
      rw [hs] at hr
      have hd : Reads lexeme (optionally .dollar (expect .scope)) (some (spelling .scope))
        [fixed .dollar, fixed .scope] fun _ ↦ True := reads_optionally_some (reads_expect _ _)
      exact hd.bind (Reads.expect_bind hr) fun _ _ ↦ trivial

section Lists

variable {i : Parse α} {a : α} {as : List α} {lss : List (List Lexeme)}
  {fo : Option Lexeme → Prop}

theorem reads_commaRest (hi : List.Forall₂ (fun a ls ↦ Reads lexeme i a ls fo) as lss)
  (hc : fo (some (fixed .comma))) (h : fo (some (fixed .closeParen))) :
  Reads lexeme (.whileDo (·.type != .closeParen) do
      let _ ← expect .comma
      i) as
    (lss.flatMap fun i ↦ fixed .comma :: i) fun o ↦ o = some (fixed .closeParen) := by
  induction hi with
  | nil =>
    refine Reads.whileDo_nil ?_
    rintro o rfl
    refine ⟨_, rfl, fun t ht ↦ ?_⟩
    rw [type_of_lexeme ht]
    rfl
  | @cons a ls as lss hit hi ih =>
    have hb : Reads lexeme (expect .comma >>= fun _ ↦ i) a (fixed .comma :: ls) fo :=
      Reads.expect_bind hit
    refine Reads.whileDo_cons (fun t ht ↦ ?_) hb ih ?_
    · rw [type_of_lexeme ht]
      rfl
    · rintro o rfl
      cases lss with
      | nil => exact h
      | cons ls' lss => exact hc

theorem reads_commaSeparated (hf : Reads lexeme i a ls fo)
  (hi : List.Forall₂ (fun a ls ↦ Reads lexeme i a ls fo) as lss)
  (hc : fo (some (fixed .comma))) (h : fo (some (fixed .closeParen))) :
  Reads lexeme (commaSeparated i) (a, as) (commaList (ls :: lss) ++ [fixed .closeParen]) nx := by
  have he : Reads lexeme (expect .closeParen >>= fun _ ↦ pure (a, as)) (a, as)
    [fixed .closeParen] nx := Reads.expect_bind (Reads.pure _)
  rw [commaList, append_assoc]
  refine hf.bind ((reads_commaRest hi hc h).bind he fun _ _ ↦ rfl) fun _ _ ↦ ?_
  cases lss with
  | nil => exact h
  | cons ls' lss => exact hc

end Lists

theorem reads_identifiers (x : String) (xs : List String) :
  Reads lexeme (commaSeparated (expect .identifier)) (x, xs)
  (identifiers (x :: xs) ++ [fixed .closeParen]) nx := by
  have hi (n : String) : Reads lexeme (expect .identifier) n [identifier n]
    fun _ ↦ True := reads_expect _ _
  refine reads_commaSeparated (hi x) ?_ trivial trivial
  induction xs with
  | nil => exact .nil
  | cons n xs ih => exact .cons (hi n) ih

theorem reads_parseUnionMember (m : UnionMember) :
  Reads lexeme parseUnionMember m (unionMemberLexemes m) (NextIsNot .scope) := by
  refine Reads.expect_bind (Reads.expect_bind ?_)
  exact (reads_parseQualifiedName m.type).bind_pure fun type ↦ (⟨m.name, type⟩ : UnionMember)

theorem Reads.close_bind {β : Type} {p : Parse β} {b : β} {f : β → Parse α} {inn : List Lexeme}
  (hp : Reads lexeme p b (inn ++ [fixed .closeParen]) fun _ ↦ True)
  (hf : Reads lexeme (f b) a ls nx) :
  Reads lexeme (p >>= f) a (inn ++ fixed .closeParen :: ls) nx := by
  have h := hp.bind hf fun _ _ ↦ trivial
  rwa [append_assoc] at h

theorem reads_parseUnion (first : UnionMember) (rest : List UnionMember) :
  Reads lexeme parseUnion (first :: rest) (memberTypeLexemes (.union (first :: rest))) nx := by
  refine Reads.expect_bind (Reads.expect_bind ?_)
  have hm : Reads lexeme (commaSeparated parseUnionMember) (first, rest)
    (commaList (unionMemberLexemes first :: rest.map unionMemberLexemes) ++ [fixed .closeParen])
      nx := by
    refine reads_commaSeparated (reads_parseUnionMember first) ?_ (nextIsNot_fixed (by decide))
      (nextIsNot_fixed (by decide))
    induction rest with
    | nil => exact .nil
    | cons m rest ih => exact .cons (reads_parseUnionMember m) ih
  exact hm.bind_pure fun members ↦ members.1 :: members.2

theorem nextIsNot_name (ty : TokenType) (h : .dollar ≠ ty ∧ .identifier ≠ ty)
  (n : QualifiedName) (ls : List Lexeme) (o : Option Lexeme) :
  NextIsNot ty ((nameLexemes n ++ ls).head?.or o) := by
  rw [nameLexemes]
  cases n.inGeneratedScope with
  | true => exact nextIsNot_fixed h.1
  | false =>
    cases he : n.nameElements with
    | nil => exact absurd he n.nonempty
    | cons x xs => exact nextIsNot_identifier h.2 x

theorem reads_parseMemberType (ty : MemberType) (h : ty ≠ .union []) :
  Reads lexeme parseMemberType ty (memberTypeLexemes ty) (NextIsNot .scope) := by
  cases ty with
  | named ty =>
    refine Reads.choose_no (fun o _ ↦ ?_) ((reads_parseQualifiedName ty).bind_pure MemberType.named)
    obtain ⟨l, hl, hn⟩ := nextIsNot_name .union (by decide) ty [] o
    rw [append_nil] at hl
    exact ⟨l, hl, fun t ht ↦ (type_beq_of_lexeme ht).trans (beq_eq_false_iff_ne.2 hn)⟩
  | union ms =>
    cases ms with
    | nil => exact absurd rfl h
    | cons x xs =>
      exact Reads.choose_yes (fun t ht ↦ type_beq_of_lexeme ht)
        ((reads_parseUnion x xs).bind_pure MemberType.union)

theorem reads_parseStructMember (m : StructMember) (h : m.type ≠ .union []) :
  Reads lexeme parseStructMember m (structMemberLexemes m) (NextIsNot .scope) := by
  refine Reads.expect_bind (Reads.expect_bind ?_)
  exact (reads_parseMemberType m.type h).bind_pure fun type ↦ (⟨m.name, type⟩ : StructMember)

theorem reads_parseStructItem (m : StructMember) (h : m.type ≠ .union []) :
  Reads lexeme parseStructItem m (structMemberLexemes m) fun o ↦ o = some (fixed .closeParen) := by
  have hn : Reads lexeme (choose (·.type != .closeParen) (expect .comma) (return "")) "" []
    fun o ↦ o = some (fixed .closeParen) := by
    refine Reads.choose_no ?_ (Reads.pure "")
    rintro o rfl
    refine ⟨_, rfl, fun t ht ↦ ?_⟩
    rw [type_of_lexeme ht]
    rfl
  rw [← append_nil (structMemberLexemes m)]
  refine (reads_parseStructMember m h).bind (hn.bind_pure fun _ ↦ m) ?_
  rintro o rfl
  exact nextIsNot_fixed (by decide)

theorem reads_parseStructItem_comma (m : StructMember) (h : m.type ≠ .union []) :
  Reads lexeme parseStructItem m (structMemberLexemes m ++ [fixed .comma]) nx := by
  have hc : Reads lexeme (choose (·.type != .closeParen) (expect .comma) (return ""))
    (spelling .comma) [fixed .comma] nx := by
    refine Reads.choose_yes (fun t ht ↦ ?_) (reads_expect _ _)
    rw [type_of_lexeme ht]
    rfl
  exact (reads_parseStructMember m h).bind (hc.bind_pure fun _ ↦ m)
    fun _ _ ↦ nextIsNot_fixed (by decide)

theorem commaList_cons_cons (x s : List Lexeme) (xs : List (List Lexeme)) :
  commaList (x :: s :: xs) = x ++ [fixed .comma] ++ commaList (s :: xs) := by
  simp [commaList]

theorem reads_structItems (ms : List StructMember) (h : ∀ m ∈ ms, m.type ≠ .union [])
  (tr : Bool) (htr : tr = true → ms ≠ []) :
  Reads lexeme (.whileDo (·.type != .closeParen) parseStructItem) ms
  (commaList (ms.map structMemberLexemes) ++ if tr then [fixed .comma] else [])
  fun o ↦ o = some (fixed .closeParen) := by
  have hni : Reads lexeme (.whileDo (·.type != .closeParen) parseStructItem) [] []
    fun o ↦ o = some (fixed .closeParen) := by
    refine Reads.whileDo_nil ?_
    rintro o rfl
    refine ⟨_, rfl, fun t ht ↦ ?_⟩
    rw [type_of_lexeme ht]
    rfl
  have hn (n : String) (t : Token) (ht : lexeme t = identifier n) :
    (t.type != .closeParen) = true := by
    rw [type_of_lexeme ht]
    rfl
  induction ms with
  | nil =>
    obtain rfl : tr = false := by simpa using htr
    exact hni
  | cons m ms ih =>
    have hm := h m mem_cons_self
    cases ms with
    | nil =>
      cases tr with
      | false =>
        have hs : commaList ([m].map structMemberLexemes) = structMemberLexemes m := by
          simp [commaList]
        rw [hs]
        exact Reads.whileDo_cons (hn m.name) (reads_parseStructItem m hm) hni fun _ h ↦ h
      | true =>
        have hi : Reads lexeme parseStructItem m (structMemberLexemes m ++ [fixed .comma])
          fun _ ↦ True := reads_parseStructItem_comma m hm
        rw [show commaList ([m].map structMemberLexemes) ++ (if true then [fixed .comma] else []) =
          structMemberLexemes m ++ [fixed .comma] ++ [] by simp [commaList]]
        exact Reads.whileDo_cons (hn m.name) hi hni fun _ _ ↦ trivial
    | cons m' ms =>
      have hi : Reads lexeme parseStructItem m (structMemberLexemes m ++ [fixed .comma])
        fun _ ↦ True := reads_parseStructItem_comma m hm
      have hr := ih (fun m hme ↦ h m (mem_cons_of_mem _ hme)) fun _ ↦ cons_ne_nil m' ms
      rw [map_cons, map_cons, commaList_cons_cons, append_assoc]
      exact Reads.whileDo_cons (hn m.name) hi hr fun _ _ ↦ trivial

theorem reads_directions (ds : List Bool) :
  Reads lexeme (.whileDo (·.type == .direction) parseDirection)
  (ds.map fun isi ↦ (isi, !isi)) (ds.map direction) (NextIsNot .direction) := by
  induction ds with
  | nil =>
    refine Reads.whileDo_nil ?_
    rintro o ⟨l, rfl, hl⟩
    exact ⟨l, rfl, fun t ht ↦ (type_beq_of_lexeme ht).trans (beq_eq_false_iff_ne.2 hl)⟩
  | cons isi ds ih =>
    have hb : Reads lexeme parseDirection (isi, !isi) [direction isi] fun _ ↦ True := by
      cases isi with
      | true => exact (reads_expect _ "in").bind_pure fun c ↦ (c == "in", c == "out")
      | false => exact (reads_expect _ "out").bind_pure fun c ↦ (c == "in", c == "out")
    exact Reads.whileDo_cons (fun t ht ↦ type_beq_of_lexeme ht) hb ih fun _ _ ↦ trivial

end

variable {α : Type} {ls : List Lexeme} {nx : Option Lexeme → Prop}

theorem reads_tokenPermissions (permissions : Option (List String)) (h : permissions ≠ some []) :
  ∃ l, Reads lexeme (optionally .token do
      let _ ← expect .openParen
      commaSeparated (expect .identifier)) l (tokenLexemes permissions) (NextIsNot .token) ∧
    (l.map fun li ↦ li.1 :: li.2) = permissions := by
  cases permissions with
  | none => exact ⟨none, reads_optionally_none _, rfl⟩
  | some ns =>
    cases ns with
    | nil => exact absurd rfl h
    | cons x xs =>
      exact ⟨some (x, xs),
        reads_optionally_some (Reads.expect_bind (reads_identifiers x xs)), rfl⟩

theorem nextIsNot_direction (p : Bool) (ps : Option (List String))
  (n : QualifiedName) (o : Option Lexeme) :
  NextIsNot .direction (((if p then [fixed .ptr] else []) ++
  (tokenLexemes ps ++ nameLexemes n)).head?.or o) := by
  cases p with
  | true => exact nextIsNot_fixed (by decide)
  | false =>
    cases ps with
    | some ns => exact nextIsNot_fixed (by decide)
    | none =>
      have h := nextIsNot_name .direction (by decide) n [] o
      rwa [append_nil] at h

theorem reads_parseParameterType (p : Parameter) (h : p.tokenPermissions ≠ some []) :
  Reads lexeme (parseParameterType p.name p.isIn p.isOut) p
  ((if p.isIn || p.isOut then [fixed .ptr] else []) ++
  (tokenLexemes p.tokenPermissions ++ nameLexemes p.typeSpec)) (NextIsNot .scope) := by
  obtain ⟨l, hl, he⟩ := reads_tokenPermissions p.tokenPermissions h
  have ht : Reads lexeme (parseQualifiedName >>= fun typeSpec ↦ (pure
    { name := p.name, isIn := p.isIn, isOut := p.isOut, typeSpec := typeSpec,
        tokenPermissions := l.map fun li ↦ li.1 :: li.2 } : Parse Parameter)) p
      (nameLexemes p.typeSpec) (NextIsNot .scope) := by
    rw [he]
    exact (reads_parseQualifiedName p.typeSpec).bind_pure fun typeSpec ↦
      ({ name := p.name, isIn := p.isIn, isOut := p.isOut, typeSpec := typeSpec,
         tokenPermissions := p.tokenPermissions } : Parameter)
  have hf (o : Option Lexeme) (_ : NextIsNot .scope o) :
    NextIsNot .token ((nameLexemes p.typeSpec).head?.or o) := by
    have h := nextIsNot_name .token (by decide) p.typeSpec [] o
    rwa [append_nil] at h
  rw [parseParameterType]
  cases p.isIn || p.isOut with
  | true => exact Reads.expect_bind (hl.bind ht hf)
  | false =>
    have hn : Reads lexeme (pure "" : Parse String) "" [] fun _ ↦ True := Reads.pure ""
    exact hn.bind (hl.bind ht hf) fun _ _ ↦ trivial

theorem reads_parseParameter {p : Parameter} (h : SpellsParameter p ls) :
  Reads lexeme parseParameter p ls (NextIsNot .scope) := by
  obtain ⟨ds, hi, ho, hp, rfl⟩ := h
  have ht := reads_parseParameterType p hp
  simp only [append_assoc, cons_append, nil_append]
  refine Reads.expect_bind (Reads.expect_bind ((reads_directions ds).bind ?_ ?_))
  · have hin' : (ds.map fun i ↦ (i, !i)).any (·.1) = p.isIn := by
      rw [hi, any_map]
      rfl
    have ho' : (ds.map fun i ↦ (i, !i)).any (·.2) = p.isOut := by
      rw [ho, any_map]
      rfl
    rw [hin', ho']
    exact ht
  · exact fun o _ ↦ nextIsNot_direction _ _ _ o

theorem reads_parseEnum (a : ParsedEnum) (h : a.enumerations ≠ []) : Reads lexeme parseEnum a
  ([fixed .enum, identifier a.name, fixed .openParen] ++ identifiers a.enumerations ++
  [fixed .closeParen, fixed .semicolon]) nx := by
  obtain ⟨n, es⟩ := a
  cases es with
  | nil => exact absurd rfl h
  | cons x xs =>
    refine Reads.expect_bind (Reads.expect_bind (Reads.expect_bind ?_))
    refine Reads.close_bind (reads_identifiers x xs) ?_
    exact Reads.expect_bind (Reads.pure _)

theorem reads_parseInclude (a : ParsedInclude) : Reads lexeme parseInclude a
  [fixed .include_, headerName a.headerName, fixed .semicolon] nx :=
  Reads.expect_bind (Reads.expect_bind (Reads.expect_bind (Reads.pure _)))

theorem reads_parseStruct (a : ParsedStruct) (h : ∀ m ∈ a.members, m.type ≠ .union [])
  (t : Bool) (ht : t = true → a.members ≠ []) : Reads lexeme parseStruct a
  ([fixed .struct, identifier a.name, fixed .openParen] ++
  commaList (a.members.map structMemberLexemes) ++
  (if t then [fixed .comma] else []) ++ [fixed .closeParen, fixed .semicolon])
  nx := by
  refine Reads.expect_bind (Reads.expect_bind (Reads.expect_bind ?_))
  refine (reads_structItems a.members h t ht).bind ?_ fun _ _ ↦ rfl
  exact Reads.expect_bind (Reads.expect_bind (Reads.pure _))

theorem reads_parseObjectType (ty : Option QualifiedName) : Reads lexeme parseObjectType ty
  (match ty with
  | none => []
  | some ty => fixed .for_ :: nameLexemes ty) fun o ↦ o = some (fixed .openParen) := by
  cases ty with
  | none =>
    refine Reads.choose_no ?_ (Reads.pure none)
    rintro o rfl
    refine ⟨_, rfl, fun t ht ↦ ?_⟩
    rw [type_of_lexeme ht]
    rfl
  | some ty =>
    have hn : Reads lexeme parseQualifiedName ty (nameLexemes ty)
      fun o ↦ o = some (fixed .openParen) := by
      refine (reads_parseQualifiedName ty).mono ?_
      rintro o rfl
      exact nextIsNot_fixed (by decide)
    refine Reads.choose_yes (fun t ht ↦ ?_) (Reads.expect_bind (hn.bind_pure some))
    rw [type_of_lexeme ht]
    rfl

theorem reads_parsePermissions (a : PermissionsDefinition) : Reads lexeme parsePermissions a
  ([fixed .permissions] ++ (match a.objectType with
  | none => []
  | some ty => fixed .for_ :: nameLexemes ty) ++
  [fixed .openParen] ++ identifiers a.permissions ++ [fixed .closeParen, fixed .semicolon])
  nx := by
  obtain ⟨o, ps, n⟩ := a
  cases ps with
  | nil => exact absurd rfl n
  | cons x xs =>
    simp only [append_assoc, cons_append, nil_append]
    refine Reads.expect_bind ((reads_parseObjectType o).bind ?_ fun _ _ ↦ rfl)
    refine Reads.expect_bind (Reads.close_bind (reads_identifiers x xs) ?_)
    exact Reads.expect_bind (Reads.pure _)

theorem reads_blocking (blocking : Bool) :
  ∃ o, Reads lexeme (optionally .comma (expect .blocking)) o
  (if blocking then [fixed .comma, fixed .blocking] else [])
  (fun o ↦ o = some (fixed .closeParen)) ∧ o.isSome = blocking := by
  cases blocking with
  | true => exact ⟨_, reads_optionally_some (reads_expect _ _), rfl⟩
  | false =>
    refine ⟨none, (reads_optionally_none _).mono ?_, rfl⟩
    rintro o rfl
    exact nextIsNot_fixed (by decide)

theorem reads_returnType (ty : Option QualifiedName) :
  Reads lexeme (optionally .arrow parseQualifiedName) ty (match ty with
  | none => []
  | some ty => fixed .arrow :: nameLexemes ty) fun o ↦ o = some (fixed .semicolon) := by
  cases ty with
  | none =>
    refine (reads_optionally_none _).mono ?_
    rintro o rfl
    exact nextIsNot_fixed (by decide)
  | some ty =>
    refine (reads_optionally_some (reads_parseQualifiedName ty)).mono ?_
    rintro o rfl
    exact nextIsNot_fixed (by decide)

theorem reads_parseSyscall (ast : ParsedSyscall) (h : ast.parameters ≠ []) {pa : List (List Lexeme)}
  (hpa : List.Forall₂ SpellsParameter ast.parameters pa) : Reads lexeme parseSyscall ast
  ([fixed .syscall, fixed .openParen] ++ nameLexemes ast.scope ++
  (if ast.blocking then [fixed .comma, fixed .blocking] else []) ++
  [fixed .closeParen, identifier ast.name, fixed .openParen] ++ commaList pa ++
  [fixed .closeParen] ++ (match ast.returnType with
  | none => []
  | some ty => fixed .arrow :: nameLexemes ty) ++ [fixed .semicolon]) nx := by
  obtain ⟨sc, b, n, a, r⟩ := ast
  obtain ⟨o, hb, rfl⟩ := reads_blocking b
  cases hpa with
  | nil => exact absurd rfl h
  | @cons p ls ps lss hp hps =>
    simp only [append_assoc, cons_append, nil_append]
    refine Reads.expect_bind (Reads.expect_bind ((reads_parseQualifiedName sc).bind ?_ ?_))
    · refine hb.bind ?_ fun _ _ ↦ rfl
      refine Reads.expect_bind (Reads.expect_bind (Reads.expect_bind ?_))
      refine Reads.close_bind (reads_commaSeparated (reads_parseParameter hp)
        (hps.imp fun _ _ ↦ reads_parseParameter) (nextIsNot_fixed (by decide))
        (nextIsNot_fixed (by decide))) ?_
      refine (reads_returnType r).bind ?_ fun _ _ ↦ rfl
      exact Reads.expect_bind (Reads.pure _)
    · intro o' _
      cases o with
      | none => exact nextIsNot_fixed (by decide)
      | some cs => exact nextIsNot_fixed (by decide)

theorem run_declarationAt {p : Parse α} {a : α} {type : TokenType} {g : Token → α → Declaration}
  (hat : ∀ t : Token, t.type = type → declarationAt t = p >>= fun a ↦ pure (g t a))
  (hp : Reads lexeme p a (fixed type :: ls) fun _ ↦ True) {ts rest : List Token} {fuel : ℕ}
  (hts : ts.map lexeme = fixed type :: ls) (hf : (ts ++ rest).length < fuel) :
  ∃ t, run (ofList none) fuel parseDeclaration (ts ++ rest) = .done (g t a, rest) := by
  obtain ⟨t, ts', rfl, ht, -⟩ := map_eq_cons_iff.1 hts
  refine ⟨t, ?_⟩
  have hr := (hp.bind_pure (g t)) hts trivial hf
  rw [← hat t (type_of_lexeme ht)] at hr
  rw [parseDeclaration, cons_append, run_token_bind rfl]
  exact hr

theorem run_parseDeclaration {d : Declaration} (h : Spells d ls) {ts rest : List Token} {fuel : ℕ}
  (hts : ts.map lexeme = ls) (hf : (ts ++ rest).length < fuel) :
  ∃ d', run (ofList none) fuel parseDeclaration (ts ++ rest) = .done (d', rest) ∧
  withoutPlace d' = withoutPlace d := by
  cases h with
  | permissions line column ast =>
    obtain ⟨t, ht⟩ := run_declarationAt (g := fun t ast ↦ .permissions t.line t.column ast)
      (fun t ht ↦ by rw [declarationAt, ht]) (reads_parsePermissions ast) hts hf
    exact ⟨_, ht, rfl⟩
  | enum ast hne =>
    obtain ⟨t, ht⟩ := run_declarationAt (g := fun _ ast ↦ .enum ast)
      (fun t ht ↦ by rw [declarationAt, ht]) (reads_parseEnum ast hne) hts hf
    exact ⟨_, ht, rfl⟩
  | struct ast hu trailing htr =>
    obtain ⟨t, ht⟩ := run_declarationAt (g := fun _ ast ↦ .struct ast)
      (fun t ht ↦ by rw [declarationAt, ht]) (reads_parseStruct ast hu trailing htr) hts hf
    exact ⟨_, ht, rfl⟩
  | syscall ast hne parameters hp =>
    obtain ⟨t, ht⟩ := run_declarationAt (g := fun _ ast ↦ .syscall ast)
      (fun t ht ↦ by rw [declarationAt, ht]) (reads_parseSyscall ast hne hp) hts hf
    exact ⟨_, ht, rfl⟩
  | include_ ast =>
    obtain ⟨t, ht⟩ := run_declarationAt (g := fun _ ast ↦ .include_ ast)
      (fun t ht ↦ by rw [declarationAt, ht]) (reads_parseInclude ast) hts hf
    exact ⟨_, ht, rfl⟩

theorem items_of_spells {ds : List Declaration} {l : List (List Lexeme)}
  (h : List.Forall₂ Spells ds l) {ts : List Token} (hts : ts.map lexeme = l.flatten) :
  ∃ ds', Items none parseDeclaration ts ds' [] ∧ ds'.map withoutPlace = ds.map withoutPlace := by
  induction h generalizing ts with
  | nil =>
    obtain rfl := map_eq_nil_iff.1 hts
    exact ⟨[], .nil [], rfl⟩
  | @cons d ls ds l hd _ ih =>
    obtain ⟨ts₁, t, rfl, hts₁, ht⟩ := map_eq_append_iff.1 hts
    obtain ⟨ds', hi, hs⟩ := ih ht
    obtain ⟨d', hr, hd'⟩ := run_parseDeclaration hd hts₁ (Nat.lt_succ_self (ts₁ ++ t).length)
    refine ⟨d' :: ds', .cons hr hi, ?_⟩
    rw [map_cons, map_cons, hd', hs]

end

variable {l : Lexeme} {ls ls' : List Lexeme} {lss : List (List Lexeme)}

def Regular (ls : List Lexeme) : Prop :=
  ∀ l ∈ ls, l.type ≠ .identifier → l.type ≠ .headerName → Proper l

theorem regular_nil : Regular [] := fun _ h ↦ by cases h

theorem Regular.append (h : Regular ls) (h' : Regular ls') : Regular (ls ++ ls') :=
  List.forall_mem_append.2 ⟨h, h'⟩

theorem Regular.fixed {ty : TokenType} (ht : ty ≠ .direction) (h : Regular ls) :
  Regular (fixed ty :: ls) := by
  refine List.forall_mem_cons.2 ⟨fun hi hh ↦ ?_, h⟩
  cases ty with
  | identifier => exact absurd rfl hi
  | headerName => exact absurd rfl hh
  | direction => exact absurd rfl ht
  | _ => rfl

theorem Regular.identifier (name : String) (h : Regular ls) : Regular (identifier name :: ls) :=
  List.forall_mem_cons.2 ⟨fun h ↦ absurd rfl h, h⟩

variable {α : Type} {as : List α}

theorem regular_flatMap {f : α → List Lexeme} (h : ∀ a ∈ as, Regular (f a)) :
  Regular (as.flatMap f) := by
  intro l hl
  obtain ⟨a, ha, hl⟩ := List.mem_flatMap.1 hl
  exact h a ha l hl

theorem regular_commaList (h : ∀ ls ∈ lss, Regular ls) : Regular (commaList lss) := by
  cases lss with
  | nil => exact regular_nil
  | cons x rest =>
    refine (h x List.mem_cons_self).append (regular_flatMap fun ls hls ↦ ?_)
    exact (h ls (List.mem_cons_of_mem _ hls)).fixed (by decide)

theorem regular_map_commaList {f : α → List Lexeme} (h : ∀ a ∈ as, Regular (f a)) :
  Regular (commaList (as.map f)) := by
  refine regular_commaList fun ls hs ↦ ?_
  obtain ⟨a, ha, rfl⟩ := List.mem_map.1 hs
  exact h a ha

theorem regular_identifiers (names : List String) : Regular (identifiers names) :=
  regular_map_commaList fun name _ ↦ regular_nil.identifier name

theorem regular_name (name : QualifiedName) : Regular (nameLexemes name) := by
  refine Regular.append ?_ ?_
  · split
    · exact (regular_nil.fixed (by decide)).fixed (by decide)
    · exact regular_nil
  · split
    · exact regular_nil
    · refine Regular.identifier _ (regular_flatMap fun e _ ↦ ?_)
      exact (regular_nil.identifier e).fixed (by decide)

theorem regular_structMember (m : StructMember) : Regular (structMemberLexemes m) := by
  refine Regular.identifier m.name (Regular.fixed (by decide) ?_)
  cases m.type with
  | named type => exact regular_name type
  | union members =>
    refine Regular.fixed (by decide) (Regular.fixed (by decide) (Regular.append ?_
      (regular_nil.fixed (by decide))))
    exact regular_map_commaList fun m _ ↦
      ((regular_name m.type).fixed (by decide)).identifier m.name

theorem regular_parameter {p : Parameter} (h : SpellsParameter p ls) : Regular ls := by
  obtain ⟨directions, -, -, -, rfl⟩ := h
  refine Regular.append (Regular.append (Regular.append (Regular.append ?_ ?_) ?_) ?_)
    (regular_name _)
  · exact (regular_nil.fixed (by decide)).identifier p.name
  · intro l hl _ _
    obtain ⟨isIn, -, rfl⟩ := List.mem_map.1 hl
    cases isIn with
    | true => exact .inl rfl
    | false => exact .inr rfl
  · split
    · exact regular_nil.fixed (by decide)
    · exact regular_nil
  · cases p.tokenPermissions with
    | none => exact regular_nil
    | some names =>
      refine Regular.append (Regular.fixed (by decide) (Regular.fixed (by decide) ?_))
        (regular_nil.fixed (by decide))
      exact regular_identifiers names

theorem regular_of_forall₂ {R : α → List Lexeme → Prop} (h : List.Forall₂ R as lss)
  (hR : ∀ {a ls}, R a ls → Regular ls) : ∀ ls ∈ lss, Regular ls := by
  induction h with
  | nil => exact fun _ h ↦ by cases h
  | cons ha _ ih => exact List.forall_mem_cons.2 ⟨hR ha, ih⟩

theorem regular_of_spells {d : Declaration} (h : Spells d ls) : Regular ls := by
  have he : Regular [fixed .closeParen, fixed .semicolon] :=
    (regular_nil.fixed (by decide)).fixed (by decide)
  cases h with
  | permissions line column ast =>
    simp only [List.append_assoc, List.cons_append, List.nil_append]
    refine Regular.fixed (by decide) (Regular.append ?_ (Regular.fixed (by decide)
      ((regular_identifiers _).append he)))
    cases ast.objectType with
    | none => exact regular_nil
    | some type => exact (regular_name type).fixed (by decide)
  | enum ast _ =>
    refine Regular.fixed (by decide) (Regular.identifier _ (Regular.fixed (by decide) ?_))
    exact (regular_identifiers _).append he
  | struct ast _ trailing _ =>
    refine Regular.fixed (by decide) (Regular.identifier _ (Regular.fixed (by decide) ?_))
    refine Regular.append (Regular.append ?_ ?_) he
    · exact regular_map_commaList fun m _ ↦ regular_structMember m
    · split
      · exact regular_nil.fixed (by decide)
      · exact regular_nil
  | syscall ast _ parameters hp =>
    simp only [List.append_assoc, List.cons_append, List.nil_append]
    refine Regular.fixed (by decide) (Regular.fixed (by decide) ((regular_name _).append
      (Regular.append ?_ (Regular.fixed (by decide) (Regular.identifier _ (Regular.fixed (by decide)
      (Regular.append ?_ (Regular.fixed (by decide) (Regular.append ?_ ?_)))))))))
    · split
      · exact (regular_nil.fixed (by decide)).fixed (by decide)
      · exact regular_nil
    · exact regular_commaList (regular_of_forall₂ hp regular_parameter)
    · cases ast.returnType with
      | none => exact regular_nil
      | some type => exact (regular_name type).fixed (by decide)
    · exact regular_nil.fixed (by decide)
  | include_ ast =>
    refine Regular.fixed (by decide) (List.forall_mem_cons.2 ⟨fun _ h ↦ absurd rfl h, ?_⟩)
    exact regular_nil.fixed (by decide)

theorem proper_of_spellsAll {ds : List Declaration} (h : SpellsAll ds ls)
  (hid : ∀ l ∈ ls, l.type = .identifier → IsIdentifier l.contents)
  (hhe : ∀ l ∈ ls, l.type = .headerName → '>' ∉ l.contents.toList) : ∀ l ∈ ls, Proper l := by
  obtain ⟨lss, hlss, rfl⟩ := h
  intro l hl
  by_cases hi : l.type = .identifier
  · rw [Proper, hi]
    exact hid l hl hi
  by_cases hh : l.type = .headerName
  · rw [Proper, hh]
    exact hhe l hl hh
  obtain ⟨ls, hs, hl⟩ := List.mem_flatten.1 hl
  exact regular_of_forall₂ hlss regular_of_spells ls hs l hl hi hh

theorem handleAll_append (ds b : List Declaration) : handleAll (fun de ds ↦
  (.ok (ds ++ [de]) : Except Failure (List Declaration))) ds b = .ok (b ++ ds) := by
  induction ds generalizing b with
  | nil => rw [handleAll, List.append_nil]
  | cons d ds ih =>
    simp only [handleAll]
    rw [ih, List.append_assoc, List.singleton_append]

theorem readFile_of_items {γ : Type} {h : Declaration → γ → Except Failure γ} {c c' : γ}
  {t : List Char} {ts : List Token} {ds : List Declaration}
  (hl : lex t = ⟨ts, none, false⟩) (hi : Items none parseDeclaration ts ds [])
  (hh : handleAll h ds c = .ok c') : ∃ n, readFile h n t c = .done c' := by
  rcases tokenize_yields t with ⟨e, -, -, he⟩ | ⟨s, hs, hy⟩
  · rw [hl] at he
    cases he
  · have hen : (feed t).ending = none := by rw [feed, hl]
    rw [hl] at hy
    rw [← hen] at hi
    have hf : ts.length < ts.length + 1 + ds.length := by omega
    obtain ⟨s', hs', hq⟩ := (readsItems_parseDeclaration (feed t)).readItems_of_items hi hh hy hf
    refine ⟨ts.length + 1 + ds.length, ?_⟩
    rw [readFile, hs]
    refine (hq (ts.length + 1)).trans ?_
    simp only [readItems, hs'.2.2, if_true]

theorem parseFile_written {declarations : List Declaration} {ls : List Lexeme} {text : List Char}
    (hspells : SpellsAll declarations ls)
    (hidentifiers : ∀ l ∈ ls, l.type = .identifier → IsIdentifier l.contents)
    (hheaders : ∀ l ∈ ls, l.type = .headerName → '>' ∉ l.contents.toList)
    (hwritten : Written ls text) : ∃ fuel declarations', parseFile fuel text = .done declarations' ∧
      declarations'.map withoutPlace = declarations.map withoutPlace := by
  obtain ⟨ts, hl, ht⟩ := lexFrom_written hwritten
    (proper_of_spellsAll hspells hidentifiers hheaders) [] (fun _ h ↦ by cases h) {}
    (Nat.lt_succ_self _)
  obtain ⟨lss, hls, rfl⟩ := hspells
  obtain ⟨declarations', hi, hs⟩ := items_of_spells hls ht
  obtain ⟨fuel, hf⟩ := readFile_of_items hl hi (handleAll_append declarations' [])
  exact ⟨fuel, declarations', hf, hs⟩

theorem written_newlines (ls : List Lexeme) : Written ls (ls.flatMap fun l ↦ l.text ++ ['\n']) := by
  induction ls with
  | nil => exact .nil [] fun _ h ↦ by cases h
  | cons l ls ih => exact .cons l ['\n'] (List.cons_ne_nil _ _) (List.forall_mem_singleton.2 rfl) ih

def someDeclarations : List Declaration :=
  [.include_ ⟨"cstdint"⟩, .enum ⟨"kind", ["file", "socket"]⟩,
    .struct ⟨"result", [⟨"value", .union [⟨"number", .outer "std" ["size_t"]⟩]⟩]⟩]

def someLexemes : List Lexeme :=
  [fixed .include_, headerName "cstdint", fixed .semicolon, fixed .enum, identifier "kind",
    fixed .openParen, identifier "file", fixed .comma, identifier "socket", fixed .closeParen,
    fixed .semicolon, fixed .struct, identifier "result", fixed .openParen, identifier "value",
    fixed .colon, fixed .union, fixed .openParen, identifier "number", fixed .colon,
    identifier "std", fixed .scope, identifier "size_t", fixed .closeParen, fixed .closeParen,
    fixed .semicolon]

theorem spellsAll_someDeclarations : SpellsAll someDeclarations someLexemes := by
  refine ⟨_, .cons (.include_ _) (.cons (.enum _ ?_) (.cons (.struct _ ?_ false ?_) .nil)), rfl⟩
  · decide
  · decide
  · decide

theorem parseFile_someLexemes :
  ∃ fuel declarations', parseFile fuel (someLexemes.flatMap fun l ↦ l.text ++ ['\n']) =
  .done declarations' ∧ declarations'.map withoutPlace = someDeclarations.map withoutPlace :=
  parseFile_written spellsAll_someDeclarations (by decide) (by decide)
    (written_newlines someLexemes)

end ReaverOS.Thorn.Parser
