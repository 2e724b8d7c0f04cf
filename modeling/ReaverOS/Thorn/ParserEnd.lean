import ReaverOS.Thorn.Parser

namespace ReaverOS.Thorn.Parser

open Foundation.TokenProgram Lexer

section

open List

variable {σ α β : Type} {F : Feed σ Token Failure} {e : Option Failure}

theorem cut_qualifiedName (gs : Bool) (x : String) (xs : List String) :
  Cut F [.identifier] (qualifiedName gs x xs) [.identifier] [.identifier] := by
  cases xs with
  | nil => exact .pure _ (by simp) (by simp)
  | cons s xs =>
    rw [qualifiedName]
    split
    · exact .token_bind fun t ↦ .fail _ (by decide)
    · exact .pure _ (by simp) (by simp)

def beforeName : List TokenType := [.for_, .openParen, .arrow, .colon, .ptr, .closeParen]

theorem cut_parseQualifiedName :
  Cut F beforeName parseQualifiedName [.identifier] [.identifier] := by
  refine .bindTo (.scope :: beforeName) (.optionally (by decide) (.expect _ (by decide))
    (by decide) (by decide) (by decide)) fun d ↦ ?_
  refine .bind (.expect _ (by decide)) (by decide) fun x ↦ ?_
  refine .bindTo [.identifier] (.whileDo _ ?_ ?_ (by decide) ?_ (fun h _ ↦ h))
    fun xs ↦ cut_qualifiedName _ _ _
  · refine .bind (.expect _ (by decide)) (by decide) fun _ ↦ ?_
    exact .expectTo _ (by decide) (by decide)
  · exact (advances_expect _).bind _
  · intro h _
    refine (refuses_expect fun he ↦ ?_).bind _
    exact absurd (he ▸ h) (by decide)

theorem cut_commaSeparated {i : Parse α}
  (hi : Cut F [.openParen, .comma] i [.identifier] [.identifier]) :
  Cut F [.openParen] (commaSeparated i) [.closeParen] [] := by
  refine .bind (hi.mono (by decide)) (by decide) fun x ↦ ?_
  refine .bindTo [] (.whileDo [] ?_ ?_ (by decide) ?_ ?_) fun xs ↦ ?_
  · refine .bind (.expect _ (by decide)) (by decide) fun _ ↦ ?_
    exact hi.mono (by decide)
  · exact (advances_expect _).bind _
  · intro h _
    refine (refuses_expect ?_).bind _
    rw [mem_singleton.1 h]
    decide
  · intro h hc
    rw [mem_singleton.1 h] at hc
    cases hc
  · exact .bind_pure (.expect _ (by decide)) _ (by decide) (by decide)

theorem cut_identifiers :
  Cut F [.openParen] (commaSeparated (expect .identifier)) [.closeParen] [] :=
  cut_commaSeparated (.expectTo _ (by decide) (by decide))

theorem cut_parsePermissions : Cut F [] parsePermissions [.semicolon] [] := by
  refine .bind (.expect _ (by decide)) (by decide) fun _ ↦ ?_
  refine .bindTo [.identifier] (.choose [.permissions] [] (fun h _ ↦ h) ?_ ?_ ?_) fun o ↦ ?_
  · intro h ht
    rw [mem_singleton.1 h] at ht
    cases ht
  · refine .bind (.expect _ (by decide)) (by decide) fun _ ↦ ?_
    exact .bind_pure (cut_parseQualifiedName.mono (by decide)) _ (by decide) (by decide)
  · exact .pure _ (by decide) (by decide)
  refine .bind (.expect _ (by decide)) (by decide) fun _ ↦ ?_
  refine .bind cut_identifiers (by decide) fun ps ↦ ?_
  exact .bind_pure (.expect _ (by decide)) _ (by decide) (by decide)

theorem cut_parseEnum : Cut F [] parseEnum [.semicolon] [] := by
  refine .bind (.expect _ (by decide)) (by decide) fun _ ↦ ?_
  refine .bind (.expect _ (by decide)) (by decide) fun n ↦ ?_
  refine .bind (.expect _ (by decide)) (by decide) fun _ ↦ ?_
  refine .bind cut_identifiers (by decide) fun es ↦ ?_
  exact .bind_pure (.expect _ (by decide)) _ (by decide) (by decide)

theorem cut_parseInclude : Cut F [] parseInclude [.semicolon] [] := by
  refine .bind (.expect _ (by decide)) (by decide) fun _ ↦ ?_
  refine .bind (.expect _ (by decide)) (by decide) fun h ↦ ?_
  exact .bind_pure (.expect _ (by decide)) _ (by decide) (by decide)

theorem cut_directions :
  Cut F [.colon] (.whileDo (·.type == .direction) parseDirection) [.colon] [.colon] := by
  have hb : Cut F [] parseDirection [.colon, .direction] [.colon, .direction] :=
    .bind_pure (.expect _ (by decide)) _ (by decide) (by decide)
  refine Feed.Cut.mono (Feed.Cut.whileDo (Feed.Cut.mono hb False.elim id id) id ?_ ?_) ?_ ?_ ?_
  · exact (advances_expect _).bind _
  · intro _ hc
    have hr : F.Repeats (expect .direction) :=
      (Feed.repeats_accept _ hc).bind fun t ↦ Feed.repeats_pure _
    exact .inr ⟨beq_iff_eq.1 hc, hr.bind fun cs ↦ Feed.repeats_pure _⟩
  · intro h
    exact mem_cons.2 (.inl (mem_singleton.1 h))
  all_goals
    rintro ⟨h, hc⟩
    rcases mem_cons.1 h with h | h
    · exact mem_singleton.2 h
    · rw [mem_singleton.1 h] at hc
      cases hc

theorem cut_parseParameterType (n : String) (isi i : Bool) :
  Cut F [.colon] (parseParameterType n isi i) [.identifier] [.identifier] := by
  refine .bindTo [.colon, .ptr] ?_ fun _ ↦ ?_
  · split
    · exact .expectTo _ (by decide) (by decide)
    · exact .pure _ (by decide) (by decide)
  have hl : Cut F [.token] (expect .openParen >>= fun _ ↦ commaSeparated (expect .identifier))
    [.closeParen] [] := .bind (.expect _ (by decide)) (by decide) fun _ ↦ cut_identifiers
  refine .bindTo [.colon, .ptr, .closeParen] (.optionally (by decide) hl (by decide) (by decide)
    (by decide)) fun ps ↦ ?_
  exact .bind_pure (cut_parseQualifiedName.mono (by decide)) _ (by decide) (by decide)

theorem cut_parseParameter :
  Cut F [.openParen, .comma] parseParameter [.identifier] [.identifier] := by
  refine .bind (.expect _ (by decide)) (by decide) fun n ↦ ?_
  refine .bind (.expect _ (by decide)) (by decide) fun _ ↦ ?_
  exact .bind cut_directions (by decide) fun ds ↦ cut_parseParameterType _ _ _

theorem cut_parseSyscall : Cut F [] parseSyscall [.semicolon] [] := by
  refine .bind (.expect _ (by decide)) (by decide) fun _ ↦ ?_
  refine .bind (.expect _ (by decide)) (by decide) fun _ ↦ ?_
  refine .bind (cut_parseQualifiedName.mono (by decide)) (by decide) fun sc ↦ ?_
  refine .bindTo [.identifier, .blocking] (.optionally (by decide) (.expect _ (by decide))
    (by decide) (by decide) (by decide)) fun b ↦ ?_
  refine .bind (.expect _ (by decide)) (by decide) fun _ ↦ ?_
  refine .bind (.expect _ (by decide)) (by decide) fun n ↦ ?_
  refine .bind (.expect _ (by decide)) (by decide) fun _ ↦ ?_
  refine .bind (cut_commaSeparated cut_parseParameter) (by decide) fun ps ↦ ?_
  refine .bindTo [.closeParen, .identifier] (.optionally (by decide)
    (cut_parseQualifiedName.mono (by decide)) (by decide) (by decide) (by decide)) fun r ↦ ?_
  exact .bind_pure (.expect _ (by decide)) _ (by decide) (by decide)

theorem cut_parseUnionMember :
  Cut F [.openParen, .comma] parseUnionMember [.identifier] [.identifier] := by
  refine .bind (.expect _ (by decide)) (by decide) fun n ↦ ?_
  refine .bind (.expect _ (by decide)) (by decide) fun _ ↦ ?_
  exact .bind_pure (cut_parseQualifiedName.mono (by decide)) _ (by decide) (by decide)

theorem cut_parseUnion : Cut F [] parseUnion [.closeParen] [] := by
  refine .bind (.expect _ (by decide)) (by decide) fun _ ↦ ?_
  refine .bind (.expect _ (by decide)) (by decide) fun _ ↦ ?_
  exact .bind_pure (cut_commaSeparated cut_parseUnionMember) _ (by decide) (by decide)

theorem cut_parseStructMember :
  Cut F [] parseStructMember [.closeParen, .identifier] [.closeParen, .identifier] := by
  refine .bind (.expect _ (by decide)) (by decide) fun n ↦ ?_
  refine .bind (.expect _ (by decide)) (by decide) fun _ ↦ ?_
  refine .bindTo [.closeParen, .identifier] (.choose [] [.colon] ?_ (fun h _ ↦ h) ?_ ?_)
    fun ty ↦ .pure _ (by decide) (by decide)
  · intro h ht
    exact absurd (beq_iff_eq.1 ht ▸ h) (by decide)
  · exact .bind_pure cut_parseUnion _ (by decide) (by decide)
  · exact .bind_pure (cut_parseQualifiedName.mono (by decide)) _ (by decide) (by decide)

theorem cut_parseStructItem : Cut F [] parseStructItem [.openParen, .comma, .closeParen]
  [.openParen, .comma, .closeParen] := by
  refine .bind cut_parseStructMember (by decide) fun m ↦ ?_
  refine .bindTo [.comma, .closeParen] (.choose [.identifier] [.closeParen] ?_ ?_
    (.expectTo _ (by decide) (by decide)) (.pure _ (by decide) (by decide)))
    fun _ ↦ .pure _ (by decide) (by decide)
  · intro h ht
    simp_all
  · intro _ ht
    simp_all

theorem cut_parseStruct : Cut F [] parseStruct [.semicolon] [] := by
  refine .bind (.expect _ (by decide)) (by decide) fun _ ↦ ?_
  refine .bind (.expect _ (by decide)) (by decide) fun n ↦ ?_
  refine .bindTo [.openParen, .comma, .closeParen] (.expectTo _ (by decide) (by decide)) fun _ ↦ ?_
  refine .bindTo [.closeParen] (.whileDo _ cut_parseStructItem ?_ (by decide) ?_ ?_) fun ms ↦ ?_
  · exact ((advances_expect _).bind _).bind _
  · intro h _
    refine ((refuses_expect fun he ↦ ?_).bind _).bind _
    exact absurd (he ▸ h) (by decide)
  · intro _ hc
    simp_all
  refine .bind (.expectAgain _ (by decide)) (by decide) fun _ ↦ ?_
  exact .bind_pure (.expect _ (by decide)) _ (by decide) (by decide)

theorem advances_parseDeclaration : Advances e parseDeclaration := by
  refine .bind_right _ fun t ↦ ?_
  obtain ⟨l, c, cs, ty⟩ := t
  cases ty with
  | permissions => exact ((advances_expect _).bind _).bind _
  | enum => exact ((advances_expect _).bind _).bind _
  | struct => exact ((advances_expect _).bind _).bind _
  | syscall => exact ((advances_expect _).bind _).bind _
  | include_ => exact ((advances_expect _).bind _).bind _
  | _ => exact fun _ _ _ _ h ↦ by cases h

theorem cut_parseDeclaration : Cut F [] parseDeclaration [.semicolon] [] := by
  refine .token_bind fun t ↦ ?_
  obtain ⟨l, c, cs, ty⟩ := t
  cases ty with
  | permissions => exact .bind_pure cut_parsePermissions _ (by decide) (by decide)
  | enum => exact .bind_pure cut_parseEnum _ (by decide) (by decide)
  | struct => exact .bind_pure cut_parseStruct _ (by decide) (by decide)
  | syscall => exact .bind_pure cut_parseSyscall _ (by decide) (by decide)
  | include_ => exact .bind_pure cut_parseInclude _ (by decide) (by decide)
  | _ => exact .fail _ (by decide)

theorem run_bind_single_ne_done {p : Parse α} (g : α → β)
  {t : Token} (hp : ∀ y, run (ofList e) 2 p [t] ≠ .done y) (x : β × List Token) :
  run (ofList e) 2 (p >>= fun a ↦ pure (g a)) [t] ≠ .done x := by
  intro h
  obtain ⟨y, hy, -⟩ := Verdict.bind_eq_done.1 h
  exact hp y hy

theorem run_parseDeclaration_single (t : Token) (x : Declaration × List Token) :
  run (ofList e) 2 parseDeclaration [t] ≠ .done x := by
  rw [parseDeclaration, run_token_bind rfl]
  obtain ⟨l, c, cs, ty⟩ := t
  cases ty with
  | permissions =>
    refine run_bind_single_ne_done _ (fun y ↦ ?_) x
    refine (advances_expect _).run_single_ne_done fun _ ↦ ?_
    exact .bind_right _ fun _ ↦ (advances_expect _).bind _
  | enum =>
    refine run_bind_single_ne_done _ (fun y ↦ ?_) x
    exact (advances_expect _).run_single_ne_done fun _ ↦ (advances_expect _).bind _
  | struct =>
    refine run_bind_single_ne_done _ (fun y ↦ ?_) x
    exact (advances_expect _).run_single_ne_done fun _ ↦ (advances_expect _).bind _
  | syscall =>
    refine run_bind_single_ne_done _ (fun y ↦ ?_) x
    exact (advances_expect _).run_single_ne_done fun _ ↦ (advances_expect _).bind _
  | include_ =>
    refine run_bind_single_ne_done _ (fun y ↦ ?_) x
    exact (advances_expect _).run_single_ne_done fun _ ↦ (advances_expect _).bind _
  | _ => exact fun h ↦ by cases h

theorem readsItems_parseDeclaration (F : Feed σ Token Failure) :
  F.ReadsItems (F.last.type = .direction) parseDeclaration where
  cut := Feed.Cut.mono cut_parseDeclaration False.elim (fun _ ↦ trivial) fun h ↦ by cases h
  advances := advances_parseDeclaration
  pair := run_parseDeclaration_single
  opening h := by
    rw [parseDeclaration, run_token_bind rfl, declarationAt, h]
    exact fun h ↦ by cases h

end

variable {filename : String} {text : List Char} {c c' : Context}

theorem handleAll_handleDeclaration (f : String) (ds : List Declaration)
  (c : Context) : handleAll (handleDeclaration f) ds c =
  match process f ds c with
  | .error e => .error (.semantic e)
  | .ok (_, c') => .ok c' := by
  induction ds generalizing c with
  | nil => rfl
  | cons d ds ih =>
    simp only [handleAll, handleDeclaration, process]
    cases h : insertDeclaration f d c with
    | error e => simp [bind, StateT.bind, Except.bind, h]
    | ok x =>
      simp only [ih, process]
      simp [bind, StateT.bind, Except.bind, h]

theorem handleAll_eq_ok_iff {ds : List Declaration} :
  handleAll (handleDeclaration filename) ds c = .ok c' ↔ process filename ds c = .ok ((), c') := by
  rw [handleAll_handleDeclaration]
  cases h : process filename ds c with
  | error e => simp
  | ok x =>
    obtain ⟨⟨⟩, c₁⟩ := x
    simp

def Declares (text : List Char) (declarations : List Declaration) (rest : List Token) : Prop :=
  Items (lex text).error parseDeclaration (lex text).tokens declarations rest

/-- The file is processed to an end, and if this is not an error then each of its tokens belongs to
one of the declarations. -/
def UsesAll (filename : String) (text : List Char) (c : Context) : Prop :=
  ∃ fuel, processFile filename fuel text c ≠ .pending ∧
    ∀ c', processFile filename fuel text c = .done c' →
      ∃ declarations, Declares text declarations [] ∧
        process filename declarations c = .ok ((), c')

/-- The last token of the file is a direction, and it belongs to a declaration that the file does
not end. -/
def EndsInDirection (filename : String) (text : List Char) (c : Context) : Prop :=
  (∃ t ∈ (lex text).tokens.getLast?, t.type = .direction) ∧
    ∃ declarations c' rest, Declares text declarations rest ∧
      process filename declarations c = .ok ((), c') ∧ rest ≠ [] ∧
      run (ofList (lex text).error) (rest.length + 1) parseDeclaration rest = .pending

def EndsInWord (filename : String) (text : List Char) (c : Context) : Prop :=
  (lex text).sawEnd = true ∧
    ∃ declarations c' t, Declares text declarations [t] ∧
      process filename declarations c = .ok ((), c')

theorem last_feed_type (tx : List Char) :
  (feed tx).last.type = .direction ↔ ∃ t ∈ (lex tx).tokens.getLast?, t.type = .direction := by
  simp only [feed]
  cases (lex tx).tokens.getLast? with
  | none => simp [noToken]
  | some t => simp

theorem endsInDirection_iff : EndsInDirection filename text c ↔
  (feed text).last.type = .direction ∧ Unfinished (lex text).error parseDeclaration
  (handleDeclaration filename) (lex text).tokens c := by
  simp only [EndsInDirection, Unfinished, handleAll_eq_ok_iff, Declares, last_feed_type]

theorem endsInWord_iff : EndsInWord filename text c ↔
  (lex text).sawEnd = true ∧ LoneToken (lex text).error parseDeclaration
  (handleDeclaration filename) (lex text).tokens c := by
  simp only [EndsInWord, LoneToken, handleAll_eq_ok_iff, Declares]

theorem not_ends_of_tokens_nil (h : (lex text).tokens = []) :
  ¬EndsInDirection filename text c ∧ ¬EndsInWord filename text c := by
  have hr : ∀ {ds xs}, Declares text ds xs → xs = [] := by
    intro ds xs hr
    have hl := hr.length_le
    rw [h] at hl
    exact List.length_eq_zero_iff.1 (Nat.le_zero.1 hl)
  constructor
  · rintro ⟨-, ds, c', xs, hd, -, hne, -⟩
    exact hne (hr hd)
  · rintro ⟨-, ds, c', t, hd, -⟩
    exact absurd (hr hd) (List.cons_ne_nil t [])

theorem processFile_of_tokenize {s : Tokenizer} (h : tokenize text = .ok s) (n : ℕ) :
  processFile filename n text c =
  readItems tokens parseDeclaration (handleDeclaration filename) n n s c := by
  rw [processFile, readFile, h]

theorem processFile_pending (h : EndsInDirection filename text c) (n : ℕ) :
  processFile filename n text c = .pending := by
  rcases tokenize_yields text with ⟨e, -, hn, -⟩ | ⟨s, hs, hy⟩
  · exact absurd h (not_ends_of_tokens_nil hn).1
  · obtain ⟨hl, hu⟩ := endsInDirection_iff.1 h
    rw [processFile_of_tokenize hs]
    exact (readsItems_parseDeclaration (feed text)).readItems_pending hl hu hy n

theorem usesAll_iff (filename : String) (text : List Char) (c : Context) : UsesAll filename text c ↔
      ¬EndsInDirection filename text c ∧ ¬EndsInWord filename text c := by
  rcases tokenize_yields text with ⟨e, he, hn, -⟩ | ⟨s, hs, hy⟩
  · refine iff_of_true ⟨0, ?_⟩ (not_ends_of_tokens_nil hn)
    rw [processFile, readFile, he]
    exact ⟨by simp, by simp⟩
  · have h := (readsItems_parseDeclaration (feed text)).readItems_iff hy
      (handleDeclaration filename) c
    rw [endsInDirection_iff, endsInWord_iff]
    refine Iff.trans ?_ h
    refine exists_congr fun n ↦ ?_
    rw [processFile_of_tokenize hs]
    refine and_congr_right fun _ ↦ forall_congr' fun c' ↦ imp_congr_right fun _ ↦ ?_
    simp only [Complete, handleAll_eq_ok_iff, Declares]
    exact Iff.rfl

def cutSyscall : List Char := "syscall (a) b (c: in\n".toList

def loneWord : List Char := "foo".toList

def emptyContext : Context := { args := { scope := "rose", arch := "amd64" } }

theorem endsInDirection_cutSyscall : EndsInDirection "file" cutSyscall emptyContext := by
  have hl : ∃ t ∈ (lex cutSyscall).tokens.getLast?, t.type = .direction :=
    ⟨⟨1, 19, "in", .direction⟩, by decide, rfl⟩
  refine ⟨hl, [], emptyContext, (lex cutSyscall).tokens, .nil _, rfl, ?_, ?_⟩
  · decide
  · decide

theorem not_declares_loneWord (ds : List Declaration) : ¬Declares loneWord ds [] := by
  have ht : (lex loneWord).tokens = [⟨1, 1, "foo", .identifier⟩] := by decide
  intro h
  rw [Declares, ht] at h
  cases h with
  | cons hr _ => exact run_parseDeclaration_single _ _ hr

theorem cutSyscall_loneWord_not_usesAll :
    ¬UsesAll "file" cutSyscall emptyContext ∧ ¬UsesAll "file" loneWord emptyContext := by
  constructor
  · rintro ⟨n, h, -⟩
    exact h (processFile_pending endsInDirection_cutSyscall n)
  · rintro ⟨n, h, ha⟩
    cases n with
    | zero => exact h (by decide)
    | succ n =>
      have hdo : processFile "file" (n + 1) loneWord emptyContext = .done emptyContext := rfl
      obtain ⟨ds, hd, -⟩ := ha emptyContext hdo
      exact not_declares_loneWord ds hd

end ReaverOS.Thorn.Parser
