import ReaverOS.Foundation.TokenFeed
import ReaverOS.Thorn.Ast

namespace ReaverOS.Thorn.Lexer

open Foundation.TokenProgram

inductive TokenType
  | syscall
  | enum
  | struct
  | union
  | openParen
  | closeParen
  | colon
  | comma
  | semicolon
  | scope
  | token
  | permissions
  | for_
  | direction
  | ptr
  | identifier
  | arrow
  | dollar
  | include_
  | headerName
  | blocking
  deriving DecidableEq

def descriptions : TokenType → String
  | .syscall => "'syscall'"
  | .enum => "'enum'"
  | .struct => "'struct'"
  | .union => "'union'"
  | .openParen => "'('"
  | .closeParen => "')'"
  | .colon => "':'"
  | .comma => "','"
  | .semicolon => "';'"
  | .scope => "'::'"
  | .token => "'token'"
  | .permissions => "'permissions'"
  | .for_ => "'for'"
  | .direction => "direction-specifier"
  | .ptr => "'ptr'"
  | .identifier => "identifier"
  | .arrow => "'->'"
  | .dollar => "'$'"
  | .include_ => "'include'"
  | .headerName => "header-name"
  | .blocking => "'blocking'"

def symbolTypes : List (Char × TokenType) :=
  [('(', .openParen), (')', .closeParen), (',', .comma), (';', .semicolon), ('$', .dollar)]

def keywords : List (String × TokenType) :=
  [("syscall", .syscall), ("enum", .enum), ("struct", .struct), ("union", .union),
    ("token", .token), ("permissions", .permissions), ("for", .for_), ("in", .direction),
    ("out", .direction), ("ptr", .ptr), ("include", .include_), ("blocking", .blocking)]

structure Token where
  line : ℕ := 0
  column : ℕ := 0
  contents : String
  type : TokenType
  deriving DecidableEq

inductive Failure
  | expectedGreater (line column : ℕ) (got : Option Char)
  | unterminatedHeaderName (line column : ℕ)
  | unexpectedCharacter (line column : ℕ) (got : Char)
  | expected (line column : ℕ) (type : TokenType) (got : String)
  | nestedGenerated (line column : ℕ)
  | expectedDeclaration (line column : ℕ) (got : String)
  | semantic (error : Error)
  deriving DecidableEq

def reportError (filename : String) (line column : ℕ) (message : String) : String :=
  "thorn: parse error in " ++ filename ++ " at line " ++ toString line ++ ", column " ++
    toString column ++ ": " ++ message

def Failure.message (path filename : String) : Failure → Option String
  | expectedGreater line column got =>
    some (reportError ("\"" ++ path ++ "\"") line column
      ("expected '>', got " ++ String.singleton (got.getD (Char.ofNat 0xff))))
  | unterminatedHeaderName line column =>
    some (reportError ("\"" ++ path ++ "\"") line column "unternimated header-name")
  | unexpectedCharacter line column got =>
    some (reportError ("\"" ++ path ++ "\"") line column
      ("unexpected character: '" ++ String.singleton got ++ "'"))
  | expected line column type got =>
    some (reportError filename line column
      ("expected " ++ descriptions type ++ ", got '" ++ got ++ "'"))
  | nestedGenerated line column =>
    some (reportError filename line column ("a qualified name referencing generated scope " ++
      "contains more than one nested name segment"))
  | expectedDeclaration line column got =>
    some (reportError filename line column ("expected declaration, got '" ++ got ++ "'"))
  | semantic error => error.message

structure Position where
  line : ℕ := 1
  column : ℕ := 1
  deriving DecidableEq

def Position.after (p : Position) (c : Char) : Position :=
  if c = '\n' then ⟨p.line + 1, 1⟩ else ⟨p.line, p.column + 1⟩

def isSpace (c : Char) : Bool := [' ', '\t', '\n', '\x0b', '\x0c', '\r'].contains c

def isWordChar (c : Char) : Bool := c.isAlphanum || c == '_'

def skipSpace : List Char → Position → List Char × Position
  | [], p => ([], p)
  | c :: cs, p => if isSpace c then skipSpace cs (p.after c) else (c :: cs, p)

structure Scanned where
  token : Token
  rest : List Char
  position : Position
  /-- The end of the file has been seen behind the token. -/
  sawEnd : Bool
  deriving DecidableEq

def scanColon (p : Position) (cs : List Char) : Scanned :=
  match cs with
  | [] => ⟨⟨p.line, p.column, ":", .colon⟩, [], p.after ':', true⟩
  | c :: rest =>
    if c = ':' then ⟨⟨p.line, p.column, "::", .scope⟩, rest, (p.after ':').after ':', false⟩
    else ⟨⟨p.line, p.column, ":", .colon⟩, c :: rest, p.after ':', false⟩

def scanArrow (p : Position) (cs : List Char) : Except Failure Scanned :=
  match cs with
  | [] => .error (.expectedGreater (p.after '-').line (p.after '-').column none)
  | c :: rest =>
    if c = '>' then
      .ok ⟨⟨p.line, p.column, "->", .arrow⟩, rest, (p.after '-').after '>', false⟩
    else .error (.expectedGreater (p.after '-').line (p.after '-').column (some c))

def scanHeaderName (start : Position) (name : List Char) :
  Position → List Char → Except Failure Scanned
  | p, [] => .error (.unterminatedHeaderName p.line p.column)
  | p, c :: rest =>
    if c = '>' then
      .ok ⟨⟨start.line, start.column, String.ofList name.reverse, .headerName⟩, rest, p.after c,
        false⟩
    else scanHeaderName start (c :: name) (p.after c) rest

def wordToken (start : Position) (contents : String) : Token :=
  ⟨start.line, start.column, contents, (keywords.lookup contents).getD .identifier⟩

def scanWord (start : Position) (word : List Char) : Position → List Char → Scanned
  | p, [] => ⟨wordToken start (String.ofList word.reverse), [], p, true⟩
  | p, c :: rest =>
    if isWordChar c then scanWord start (c :: word) (p.after c) rest
    else ⟨wordToken start (String.ofList word.reverse), c :: rest, p, false⟩

def scanToken (p : Position) (c : Char) (cs : List Char) : Except Failure Scanned :=
  if c = ':' then .ok (scanColon p cs)
  else if c = '-' then scanArrow p cs
  else if c = '<' then scanHeaderName p [] (p.after c) cs
  else
    match symbolTypes.lookup c with
    | some type => .ok ⟨⟨p.line, p.column, String.singleton c, type⟩, cs, p.after c, false⟩
    | none =>
      if c.isAlpha then .ok (scanWord p [c] (p.after c) cs)
      else .error (.unexpectedCharacter p.line p.column c)

structure Tokenizer where
  input : List Char
  eof : Bool := false
  current : Token
  position : Position := {}
  deriving DecidableEq

def generate (s : Tokenizer) : Except Failure Tokenizer :=
  match skipSpace s.input s.position with
  | ([], p) => .ok { s with input := [], eof := true, position := p }
  | (c :: cs, p) =>
    match scanToken p c cs with
    | .error e => .error e
    | .ok x =>
      .ok { input := x.rest, eof := s.eof || x.sawEnd, current := x.token, position := x.position }

def noToken : Token := { contents := "", type := .identifier }

def tokenize (text : List Char) : Except Failure Tokenizer :=
  generate { input := text, current := noToken }

def tokens : Source Tokenizer Token Failure where
  current s := some s.current
  next := generate
  atEnd s := s.eof

variable {p : Position} {c : Char} {cs : List Char} {x : Scanned} {e : Failure}

structure Lexed where
  tokens : List Token
  error : Option Failure
  sawEnd : Bool
  deriving DecidableEq

def Lexed.cons (x : Scanned) (l : Lexed) : Lexed :=
  ⟨x.token :: l.tokens, l.error, x.sawEnd || l.sawEnd⟩

def lexFrom : ℕ → List Char → Position → Lexed
  | 0, _, _ => ⟨[], none, false⟩
  | fuel + 1, cs, p =>
    match skipSpace cs p with
    | ([], _) => ⟨[], none, false⟩
    | (c :: cs, p) =>
      match scanToken p c cs with
      | .error e => ⟨[], some e, false⟩
      | .ok x => (lexFrom fuel x.rest x.position).cons x

def lex (text : List Char) : Lexed := lexFrom (text.length + 1) text {}

theorem skipSpace_length (cs : List Char) (p : Position) :
  (skipSpace cs p).1.length ≤ cs.length := by
  induction cs generalizing p with
  | nil => exact le_refl 0
  | cons c cs ih =>
    rw [skipSpace]
    split
    · exact Nat.le_succ_of_le (ih _)
    · exact le_refl _

theorem scanWord_rest (b : Position) (w : List Char) (p : Position) (cs : List Char) :
  (scanWord b w p cs).rest.length ≤ cs.length ∧
  ((scanWord b w p cs).sawEnd = true → (scanWord b w p cs).rest = []) := by
  induction cs generalizing w p with
  | nil => exact ⟨le_refl 0, fun _ ↦ rfl⟩
  | cons c cs ih =>
    rw [scanWord]
    split
    · exact ⟨Nat.le_succ_of_le (ih _ _).1, (ih _ _).2⟩
    · exact ⟨le_refl _, fun h ↦ absurd h Bool.false_ne_true⟩

theorem scanHeaderName_rest {b : Position} {n : List Char} (h : scanHeaderName b n p cs = .ok x) :
  x.rest.length ≤ cs.length ∧ x.sawEnd = false := by
  induction cs generalizing n p with
  | nil => cases h
  | cons c cs ih =>
    rw [scanHeaderName] at h
    split at h
    · cases h
      exact ⟨Nat.le_succ _, rfl⟩
    · exact ⟨Nat.le_succ_of_le (ih h).1, (ih h).2⟩

theorem scanColon_rest (p : Position) (cs : List Char) : (scanColon p cs).rest.length ≤ cs.length ∧
  ((scanColon p cs).sawEnd = true → (scanColon p cs).rest = []) := by
  cases cs with
  | nil => exact ⟨le_refl 0, fun _ ↦ rfl⟩
  | cons c cs =>
    rw [scanColon]
    split
    · exact ⟨Nat.le_succ _, fun h ↦ absurd h Bool.false_ne_true⟩
    · exact ⟨le_refl _, fun h ↦ absurd h Bool.false_ne_true⟩

theorem scanArrow_rest (h : scanArrow p cs = .ok x) :
  x.rest.length ≤ cs.length ∧ x.sawEnd = false := by
  cases cs with
  | nil => cases h
  | cons c cs =>
    rw [scanArrow] at h
    split at h
    · cases h
      exact ⟨Nat.le_succ _, rfl⟩
    · cases h

theorem scanToken_rest (h : scanToken p c cs = .ok x) :
  x.rest.length ≤ cs.length ∧ (x.sawEnd = true → x.rest = []) := by
  have hf : x.sawEnd = false → x.sawEnd = true → x.rest = [] := fun h h' ↦ by
    rw [h] at h'
    cases h'
  rw [scanToken] at h
  split at h
  · cases h
    exact scanColon_rest p cs
  · split at h
    · exact ⟨(scanArrow_rest h).1, hf (scanArrow_rest h).2⟩
    · split at h
      · exact ⟨(scanHeaderName_rest h).1, hf (scanHeaderName_rest h).2⟩
      · split at h
        · cases h
          exact ⟨le_refl _, fun h ↦ absurd h Bool.false_ne_true⟩
        · split at h
          · cases h
            exact scanWord_rest p [c] (p.after c) cs
          · cases h

theorem sawEnd_of_tokens_nil {n : ℕ} (h : (lexFrom n cs p).tokens = []) :
  (lexFrom n cs p).sawEnd = false := by
  cases n with
  | zero => rfl
  | succ n =>
    rw [lexFrom] at h ⊢
    split
    · rfl
    · rename_i c cs p heq
      rw [heq] at h
      simp only at h
      cases hx : scanToken p c cs with
      | error e => rfl
      | ok x =>
        rw [hx] at h
        cases h

theorem lexFrom_nil (n : ℕ) (p : Position) : lexFrom n [] p = ⟨[], none, false⟩ := by
  cases n <;> rfl

theorem generate_cases (s : Tokenizer) (n : ℕ) :
  (∃ p, generate s = .ok { s with input := [], eof := true, position := p } ∧
  lexFrom (n + 1) s.input s.position = ⟨[], none, false⟩) ∨
  (∃ e, generate s = .error e ∧ lexFrom (n + 1) s.input s.position = ⟨[], some e, false⟩) ∨
  ∃ x : Scanned, generate s = .ok ⟨x.rest, s.eof || x.sawEnd, x.token, x.position⟩ ∧
  lexFrom (n + 1) s.input s.position = (lexFrom n x.rest x.position).cons x ∧
  x.rest.length < s.input.length ∧ (x.sawEnd = true → x.rest = []) := by
  have hl := skipSpace_length s.input s.position
  simp only [generate, lexFrom]
  cases hs : skipSpace s.input s.position with
  | mk cs p =>
    rw [hs] at hl
    cases cs with
    | nil => exact .inl ⟨p, rfl, rfl⟩
    | cons c cs =>
      dsimp only
      cases hx : scanToken p c cs with
      | error e => exact .inr (.inl ⟨e, rfl, rfl⟩)
      | ok x =>
        obtain ⟨hr, he⟩ := scanToken_rest hx
        exact .inr (.inr ⟨x, rfl, rfl, lt_of_le_of_lt hr hl, he⟩)

theorem yields_lexFrom {F : Feed Tokenizer Token Failure} (hs : F.source = tokens) (fuel : ℕ)
  (s : Tokenizer) (hf : s.input.length < fuel) {l : Lexed}
  (hl : lexFrom fuel s.input s.position = l) (he : F.ending = l.error)
  (hla : l.tokens = [] → s.current = F.last) (hla' : ∀ t ∈ l.tokens.getLast?, t = F.last)
  (heo : s.eof = (l.tokens.isEmpty && F.glued)) (hgl : l.tokens ≠ [] → F.glued = l.sawEnd) :
  F.Yields s (s.current :: l.tokens) := by
  induction fuel generalizing s l with
  | zero => exact absurd hf (Nat.not_lt_zero _)
  | succ fuel ih =>
    have hc : F.source.current s = some s.current := by rw [hs]; rfl
    have ha : F.source.atEnd s = (l.tokens.isEmpty && F.glued) := by
      rw [hs]
      exact heo
    refine ⟨hc, hla, ha, ?_⟩
    have hn : F.source.next s = generate s := by rw [hs]; rfl
    rw [hn]
    rcases generate_cases s fuel with ⟨p, hg, hle⟩ | ⟨e, hg, hle⟩ | ⟨x, hg, hle, hln, hen⟩
    · obtain rfl := hle.symm.trans hl
      rw [he, hg]
      refine ⟨{ s with input := [], eof := true, position := p }, rfl, ?_, ?_, ?_⟩
      · rw [hs, ← hla rfl]
        rfl
      · rw [hs]
        rfl
      · rw [hs]
        rfl
    · obtain rfl := hle.symm.trans hl
      rw [he, hg]
      rfl
    · obtain ⟨l', hl'⟩ : ∃ l', lexFrom fuel x.rest x.position = l' := ⟨_, rfl⟩
      rw [hl'] at hle
      obtain rfl := hle.symm.trans hl
      have heo' : s.eof = false := heo
      have hgl' : F.glued = (x.sawEnd || l'.sawEnd) := hgl (List.cons_ne_nil _ _)
      -- the flag is set with this token only if no other follows
      have hsa : x.sawEnd = true → l' = ⟨[], none, false⟩ := fun h ↦ by
        rw [← hl', hen h, lexFrom_nil]
      have hni : l'.tokens = [] → l'.sawEnd = false := fun h ↦ by
        rw [← hl'] at h ⊢
        exact sawEnd_of_tokens_nil h
      have hm := next_ofList_cons_cons F.ending s.current x.token l'.tokens
      rw [hg, show (l'.cons x).tokens = x.token :: l'.tokens from rfl, hm]
      refine ⟨⟨x.rest, s.eof || x.sawEnd, x.token, x.position⟩, rfl, ih _ ?_ hl' he ?_ ?_ ?_ ?_⟩
      · simp only
        omega
      · intro h
        refine hla' x.token ?_
        simp [Lexed.cons, h]
      · intro t ht
        refine hla' t ?_
        rw [show (l'.cons x).tokens = x.token :: l'.tokens from rfl]
        rw [Option.mem_def] at ht ⊢
        rw [List.getLast?_cons, ht]
        rfl
      · rw [heo', Bool.false_or, hgl']
        by_cases h : x.sawEnd = true
        · rw [hsa h, h]
          rfl
        · rw [Bool.eq_false_iff.2 h, Bool.false_or]
          cases ht : l'.tokens with
          | nil =>
            rw [hni ht]
            rfl
          | cons u us => rfl
      · intro h
        have hx : x.sawEnd = false := by
          rw [Bool.eq_false_iff]
          intro hx
          exact h (by rw [hsa hx])
        rw [hgl', hx, Bool.false_or]

def feed (text : List Char) : Feed Tokenizer Token Failure where
  source := tokens
  last := (lex text).tokens.getLast?.getD noToken
  ending := (lex text).error
  glued := (lex text).sawEnd

theorem tokenize_yields (text : List Char) :
  (∃ e, tokenize text = .error e ∧ (lex text).tokens = [] ∧ (lex text).error = some e) ∨
  ∃ s, tokenize text = .ok s ∧ (feed text).Yields s (lex text).tokens := by
  have h : (feed text).Yields { input := text, current := noToken }
    (noToken :: (lex text).tokens) := by
    refine yields_lexFrom rfl (text.length + 1) { input := text, current := noToken }
      (Nat.lt_succ_self _) rfl rfl ?_ ?_ ?_ fun _ ↦ rfl
    · intro h
      rw [feed, h]
      rfl
    · intro t ht
      rw [feed, ht]
      rfl
    · cases ht : (lex text).tokens with
      | nil =>
        have hs : (lex text).sawEnd = false := sawEnd_of_tokens_nil ht
        rw [feed, hs, Bool.and_false]
      | cons t ts => rfl
  obtain ⟨-, -, -, hn⟩ := h
  rcases next_ofList_cases (feed text).ending noToken (lex text).tokens with
    ⟨e, her, hni, he⟩ | ⟨-, hok⟩
  · rw [he] at hn
    exact .inl ⟨e, hn, hni, her⟩
  · rw [hok] at hn
    exact .inr hn

end ReaverOS.Thorn.Lexer
