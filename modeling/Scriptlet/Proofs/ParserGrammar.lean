import Mathlib.Data.List.Basic
import Scriptlet.Proofs.ParserComplete
import Scriptlet.Proofs.ParserRuns
import Scriptlet.Proofs.Scanning

/-!
The descent parser accepts exactly the texts whose tokens derive a program, and gives that program.
Both directions are put together here from soundness and completeness, which speak of tokens and of
any room, for the texts and the room that `parse` has.

Programs are compared without their places: `DerivesProgram` derives the erased program.
-/

namespace Scriptlet

/-- The tokens derive the program, apart from where its nodes stand. -/
def DerivesProgram (w : List Token) (p : Program) : Prop :=
  Derives .free w (.stmts .endOfInput p.erase.body)

theorem Derives.program {place : Placing} {w : List Token} {p : Program}
    (h : Derives place w (.stmts .endOfInput p.body)) : DerivesProgram w p :=
  h.erase

namespace Parser

variable {p : Program} {w : List Token} {room length : Nat} {tokens : Lexer.Tokens}

/-- Tokens that derive a program are parsed as that program, apart from places, in enough room. -/
theorem statements_of_derives (h : DerivesProgram w p) :
    ∃ least, ∀ room, least ≤ room → ∀ eof : Token, eof.type = .endOfInput →
      ∃ body s, statements (w.length + 1) room (stateAt eof 0 w) = .ok (body, s) ∧
        Stmt.eraseAll body = p.erase.body := by
  obtain ⟨least, h⟩ := h.fitting
  have h := h.relocate (Moving.zero .free)
  rw [Phrase.relocate, Stmt.relocateAll_zero, Program.erase, Stmt.eraseAll_eraseAll] at h
  refine ⟨least, fun room hroom eof heof => ?_⟩
  -- The tokens without their places are parsed as the program without its places.
  have hrun := statements_of_fits (h.mono hroom) heof 0
  rw [List.length_map] at hrun
  have hsame : Same (List.map Token.erase) (w.map (Token.relocate fun _ => 0)) w := by
    rw [Same, List.map_map]
    rfl
  have hbelow := alike_relaid.statements (w.length + 1) (Nat.le_refl room) _ _
    (.intro 0 0 (Eq.refl eof.erase) hsame)
  rw [hrun] at hbelow
  generalize statements (w.length + 1) room (stateAt eof 0 w) = r at hbelow ⊢
  cases hbelow with
  | stopped hstop => exact hstop.elim
  | ended hbody =>
    refine ⟨_, _, rfl, ?_⟩
    rw [Stmt.eraseAll_eq_map, ← hbody, ← Stmt.eraseAll_eq_map, Stmt.eraseAll_eraseAll]
    rfl

/-- A sequence of tokens derives at most one program. -/
theorem derivesProgram_unique {q : Program} (hp : DerivesProgram w p) (hq : DerivesProgram w q) :
    p.erase = q.erase := by
  obtain ⟨least, hp⟩ := statements_of_derives hp
  obtain ⟨least', hq⟩ := statements_of_derives hq
  obtain ⟨body, s, hrun, hbody⟩ := hp (max least least') (Nat.le_max_left ..) (.endOfInput 0) rfl
  obtain ⟨body', s', hrun', hbody'⟩ := hq (max least least') (Nat.le_max_right ..) (.endOfInput 0) rfl
  cases hrun.symm.trans hrun'
  exact Program.erase_congr (hbody.symm.trans hbody')

/-- With any room for nesting, a program that the tokens derive is found unless the room runs out. -/
theorem parseTokens_of_derives {eof : Token} (heof : tokens.ending = .ok eof) (htype : eof.type = .endOfInput)
    (h : DerivesProgram tokens.tokens p) :
    (∃ span, parseTokens room length tokens = .error (.tooDeep span)) ∨
      ∃ q, parseTokens room length tokens = .ok q ∧ q.erase = p.erase := by
  obtain ⟨least, h⟩ := statements_of_derives h
  obtain ⟨body, s, hrun, hbody⟩ := h (max least room) (Nat.le_max_left ..) eof htype
  rw [parseTokens_eq heof]
  rcases statements_le (tokens.tokens.length + 1) (Nat.le_max_right least room) hrun with
    ⟨span, hdeep⟩ | ⟨body', hrun', hbody'⟩
  · exact .inl ⟨span, by rw [hdeep]; rfl⟩
  · refine .inr ⟨⟨body', ⟨0, length⟩⟩, by rw [hrun']; rfl, Program.erase_congr ?_⟩
    rw [← hbody, Program.erase, Stmt.eraseAll_eq_map, Stmt.eraseAll_eq_map, hbody']

/-- Tokens behind which no token starts are no program. -/
theorem parseTokens_of_error {e : LexError} (hending : tokens.ending = .error e)
    (hreg : ∀ t ∈ tokens.tokens, t.Regular) :
    parseTokens room length tokens ≠ .ok p := by
  intro h
  obtain ⟨list, ending, stop⟩ := tokens
  dsimp only at hending hreg
  subst hending
  cases list with
  | nil => cases h
  | cons t rest =>
    change (statements _ room ⟨t, rest, .error e, 0⟩ >>= fun q =>
      .ok (⟨q.1, ⟨0, length⟩⟩ : Program)) = .ok p at h
    have hbroken : Broken (.endOfInput 0) ⟨t, rest, .error e, 0⟩
        (stateAt (.endOfInput 0) 0 (t :: rest)) :=
      ⟨rfl, rfl, ⟨e, rfl⟩, rfl, fun u hu => (hreg u hu).ne_end⟩
    have hbelow := (alike_broken (.endOfInput 0)).statements ((t :: rest).length + 1) (Nat.le_refl room)
      _ _ hbroken
    generalize hx' : statements ((t :: rest).length + 1) room (stateAt (.endOfInput 0) 0 (t :: rest)) =
      r' at hbelow
    generalize statements ((t :: rest).length + 1) room ⟨t, rest, .error e, 0⟩ = r at h hbelow
    cases hbelow with
    | givenUp | failed => cases h
    | stopped hstop => exact hstop.elim
    | @ended body body' s s' _ hs =>
      -- The other run takes all tokens, while this one still has one ahead.
      have hend := (statements_sound rfl hreg hx').2
      refine hs.ne_end s.lookahead List.mem_cons_self ?_
      rw [hs.lookahead, hend]
      rfl

end Parser

/-- An accepted text is tokens up to its end, unless a keyword without text gets in the way. -/
theorem exists_end_of_parse {table : KeywordTable} {source : String} {p : Program}
    (htable : ∀ k, "" ∉ table.spellings k) (h : parse table source = .ok p) :
    ∃ eof, (Lexer.scan (Lexer.rules table) source).ending = .ok eof ∧ eof.type = .endOfInput := by
  obtain ⟨c, -, ⟨-, hend⟩ | ⟨e, hend⟩ | ⟨type, hm, hend⟩⟩ :=
    Lexer.scans_collect (Lexer.rules_progress table) (c := .ofSource source) (Nat.lt_succ_self _)
  · exact ⟨_, hend, rfl⟩
  · exact absurd h (Parser.parseTokens_of_error hend (Lexer.regular_scan table source))
  · exact absurd (Lexer.shape_of_firstMatch hm) (Lexer.not_shape_nil htable type)

/-- The tokens of an accepted text derive its program, with every node placed tightly. -/
theorem derives_of_parse {table : KeywordTable} {source : String} {p : Program} {eof : Token}
    (heof : (Lexer.scan (Lexer.rules table) source).ending = .ok eof)
    (htype : eof.type = .endOfInput) (h : parse table source = .ok p) :
    Derives .tight (Lexer.scan (Lexer.rules table) source).tokens (.stmts .endOfInput p.body) :=
  Parser.derives_of_parseTokens heof htype (Lexer.regular_scan table source) h

/-- A text that is tokens up to its end, and nests within the limit, is parsed as a program exactly if
its tokens derive the program; and no tokens derive two programs. -/
theorem parse_eq_ok_iff_derives (table : KeywordTable) (source : String) (eof : Token)
    (heof : (Lexer.scan (Lexer.rules table) source).ending = .ok eof)
    (htype : eof.type = .endOfInput)
    (hdepth : ∀ span, parse table source ≠ .error (.tooDeep span)) :
    (∀ p : Program, (∃ q, parse table source = .ok q ∧ q.erase = p.erase) ↔
      DerivesProgram (Lexer.scan (Lexer.rules table) source).tokens p) ∧
    ∀ (w : List Token) (p q : Program), DerivesProgram w p → DerivesProgram w q →
      p.erase = q.erase := by
  refine ⟨fun p => ⟨?_, fun h => ?_⟩, fun w p q => Parser.derivesProgram_unique⟩
  · rintro ⟨q, hq, heq⟩
    have hd := (derives_of_parse heof htype hq).program
    rwa [DerivesProgram, heq] at hd
  · rcases Parser.parseTokens_of_derives heof htype h with ⟨span, hdeep⟩ | hok
    · exact absurd hdeep (hdepth span)
    · exact hok

/-- A nested conditional: the `else` goes with the inner one and the last terminator is missing. -/
theorem derives_nested_conditional :
    DerivesProgram
      (Lexer.scan (Lexer.rules .default) "agr (a) if (b) x = (y) = 1 - 2 * 3; else f(z)").tokens
      ⟨[.ifThen (.ident ⟨"a", .nowhere⟩)
        (.ifElse (.ident ⟨"b", .nowhere⟩)
          (.expr (.assign .set ⟨"x", .nowhere⟩
            (.assign .set ⟨"y", .nowhere⟩
              (.binary .sub (.literal (.number (.int 1)) .nowhere)
                (.binary .mul (.literal (.number (.int 2)) .nowhere)
                  (.literal (.number (.int 3)) .nowhere) .nowhere) .nowhere) .nowhere) .nowhere)
            .nowhere)
          (.expr (.call (.ident ⟨"f", .nowhere⟩) [.ident ⟨"z", .nowhere⟩] .nowhere) .nowhere)
          .nowhere) .nowhere], .nowhere⟩ := by
  have hok : (parse .default "agr (a) if (b) x = (y) = 1 - 2 * 3; else f(z)").isOk = true := by
    decide +kernel
  refine ((parse_eq_ok_iff_derives _ _ (.endOfInput 45) (by decide +kernel) rfl ?_).1 _).1
    (exists_ok_of_map (by decide +kernel))
  intro span hdeep
  rw [hdeep] at hok
  cases hok

end Scriptlet
