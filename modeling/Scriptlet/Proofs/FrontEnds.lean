import Scriptlet.Grammar.Cache
import Scriptlet.Proofs.Lookahead
import Scriptlet.Proofs.ParserGrammar
import Scriptlet.Proofs.TableComplete
import Scriptlet.Proofs.TableDepth
import Scriptlet.Proofs.TableLexer
import Scriptlet.Proofs.Terminators

/-!
The two parsers against each other. What the table-driven parser accepts, the descent parser accepts, and
they give the same program apart from places. The other way round there is one difference: at the end of
the text the descent parser does without a terminator wherever one could stand, and the table-driven
parser only behind a last statement that is a plain one. So the programs agree once the missing terminator
is written.

Both directions go through derivations: the tokens of a text are the same for both parsers, and they
derive one program only.
-/

namespace Scriptlet

open Scriptlet.Parser (headType_append)

/-! ## The last statement -/

section

variable {place : Placing} {w : List Token} {next : TokenType}

/-- The last statement derives from the last tokens. -/
theorem derives_stmts_snoc {first : List Stmt} {last : Stmt} :
    Derives place w (.stmts next (first ++ [last])) ↔
      ∃ v u, w = v ++ u ∧ Derives place v (.stmts (headType u next) first) ∧
        Derives place u (.stmt next last) := by
  induction first generalizing w with
  | nil =>
    constructor
    · intro h
      cases h with
      | @moreStmts w v _ _ _ h hl =>
        cases hl
        exact ⟨[], w, List.append_nil w, .noStmts, h⟩
    · rintro ⟨v, u, rfl, hv, hu⟩
      cases hv
      have hone : Derives place (u ++ []) (.stmts next [last]) := .moreStmts hu .noStmts
      rwa [List.append_nil] at hone
  | cons s first ih =>
    constructor
    · intro h
      cases h with
      | @moreStmts w x _ _ _ h hl =>
        obtain ⟨v, u, rfl, hv, hu⟩ := ih.1 hl
        rw [headType_append] at h
        exact ⟨w ++ v, u, (List.append_assoc w v u).symm, .moreStmts h hv, hu⟩
    · rintro ⟨v, u, rfl, hv, hu⟩
      cases hv with
      | @moreStmts w x _ _ _ h hl =>
        rw [← headType_append] at h
        rw [List.append_assoc]
        exact .moreStmts h (ih.2 ⟨x, u, rfl, hl, hu⟩)

theorem Stmt.isPlain_erase (s : Stmt) : s.erase.isPlain = s.isPlain := by
  cases s <;> rfl

/-- Whether the last statement of a program is a plain one. -/
def Program.endsPlain (p : Program) : Bool :=
  p.body.getLast?.any Stmt.isPlain

theorem Program.endsPlain_erase (p : Program) : p.erase.endsPlain = p.endsPlain := by
  rw [endsPlain, endsPlain, erase, Stmt.eraseAll_eq_map, List.getLast?_map, Option.any_map]
  congr 1
  exact funext Stmt.isPlain_erase

/-- At the end of a text the descent parser allows what the productions allow. -/
theorem DerivesWhole.derives {list : List Stmt} (h : DerivesWhole place w list) :
    Derives place w (.stmts .endOfInput list) := by
  rcases h with h | ⟨v, u, first, last, rfl, rfl, hfirst, hlast, -⟩
  · exact h .endOfInput (by decide)
  · exact derives_stmts_snoc.2 ⟨v, u, rfl, hfirst, hlast⟩

/-- What the productions allow, in terms of what the descent parser allows. -/
theorem derivesWhole_iff {list : List Stmt} :
    DerivesWhole .free w list ↔ Derives .free w (.stmts .endOfInput list) ∧
      (isClosed w = true ∨ list.getLast?.any Stmt.isPlain = true) := by
  constructor
  · intro h
    refine ⟨h.derives, ?_⟩
    rcases h with h | ⟨v, u, first, last, rfl, rfl, -, -, hplain⟩
    · exact .inl (isClosed_of_derives (h .curlyEnd nofun) nofun)
    · exact .inr (by simpa using hplain)
  · rintro ⟨h, hclosed | hplain⟩
    · -- A text that is closed gets no terminator.
      have hterminable := terminable_of_derives h rfl ⟨.semi, ";", .nowhere⟩ rfl
      rw [withTerminator_of_isClosed hclosed] at hterminable
      exact .inl hterminable
    · rw [Option.any_eq_true] at hplain
      obtain ⟨last, hlast, hplain⟩ := hplain
      obtain ⟨first, rfl⟩ := List.getLast?_eq_some_iff.1 hlast
      obtain ⟨v, u, rfl, hfirst, hlast⟩ := derives_stmts_snoc.1 h
      exact .inr ⟨v, u, first, last, rfl, rfl, hfirst, hlast, hplain⟩

end

/-! ## The table-driven parser -/

namespace Grammar

section

variable {length : Nat} {tokens : Lexer.Tokens} {p : Program}

/-- No production has the end of the text. -/
theorem not_occurs_end {eof : Token} (heof : eof.type = .endOfInput) :
    ¬ numbered.Occurs (terminalOf eof) := by
  rw [terminalOf, heof]
  have hnone : ∀ p ∈ numbered.productions, (Symbol.terminal .endOfInput).number ∉ p.right := by
    decide +kernel
  rintro ⟨p, hp, hmem⟩
  exact hnone p hp hmem

/-- The end of a text is behind its tokens. -/
theorem ending_of_append {w u : List Token} {eof : Token} (hreg : ∀ t ∈ tokens.tokens, t.Regular)
    (heof : eof.type = .endOfInput)
    (h : tokens.tokens ++ (match tokens.ending with | .ok t => [t] | .error _ => []) = w ++ eof :: u) :
    w = tokens.tokens ∧ tokens.ending = .ok eof := by
  have hnot : eof ∉ tokens.tokens := fun hmem => (hreg eof hmem).ne_end heof
  rcases List.append_eq_append_iff.1 h with ⟨v, rfl, hlast⟩ | ⟨v, hlist, hlast⟩
  · cases hending : tokens.ending with
    | error e => simp [hending] at hlast
    | ok t =>
      rw [hending] at hlast
      cases v with
      | nil =>
        cases hlast
        exact ⟨List.append_nil _, rfl⟩
      | cons _ _ => simp at hlast
  · cases v with
    | nil =>
      rw [List.append_nil] at hlist
      cases hending : tokens.ending with
      | error e => simp [hending] at hlast
      | ok t =>
        rw [hending] at hlast
        cases hlast
        exact ⟨hlist.symm, rfl⟩
    | cons _ v =>
      cases hlast
      exact absurd (hlist ▸ by simp) hnot

/-- The program that the table-driven parser gives derives from all tokens, up to the end of the text. -/
theorem derivesWhole_of_parseTokens {place : Placing} (hcov : place.Covers)
    (hreg : ∀ t ∈ tokens.tokens, t.Regular) (h : parseTokens length tokens = .ok p) :
    ∃ eof, tokens.ending = .ok eof ∧ eof.type = .endOfInput ∧
      DerivesWhole place tokens.tokens p.body := by
  unfold parseTokens at h
  dsimp only at h
  split at h
  · rename_i a hrun
    obtain ⟨w, eof, u, hinput, htype, hbuilds⟩ := builds_of_run hrun
    obtain ⟨rfl, hending⟩ := ending_of_append hreg htype hinput
    refine ⟨eof, hending, htype, ?_⟩
    unfold finish at h
    split at h
    · cases h
    · cases hpart : a.part with
      | error e =>
        rw [hpart] at h
        cases h
      | ok part =>
        obtain ⟨body, rfl, hwhole⟩ := derivesWhole_of_builds hcov hbuilds hreg hpart
        rw [hpart] at h
        cases h
        exact hwhole
  · cases h
  · cases h
  · cases h

/-- Tokens from which a whole program derives are parsed, unless they nest too deeply. -/
theorem parseTokens_of_derivesWhole {eof : Token} {list : List Stmt}
    (hreg : ∀ t ∈ tokens.tokens, t.Regular) (heof : tokens.ending = .ok eof)
    (htype : eof.type = .endOfInput) (h : DerivesWhole .free tokens.tokens list) :
    (∃ span, parseTokens length tokens = .error (.tooDeep span)) ∨
      ∃ q, parseTokens length tokens = .ok q ∧ DerivesWhole .free tokens.tokens q.body := by
  obtain ⟨body, hmade⟩ := made_of_derivesWhole h
  obtain ⟨a, hbuilds, hpart⟩ := hmade.single
  obtain ⟨_, heq, hwhole⟩ := derivesWhole_of_builds Placing.free_covers hbuilds hreg hpart
  cases heq
  have hparse : parseTokens length tokens = finish length a := by
    unfold parseTokens
    rw [heof]
    dsimp only
    rw [run_of_builds hbuilds htype]
  rw [hparse]
  unfold finish
  split
  · exact .inl ⟨_, rfl⟩
  · rw [hpart]
    exact .inr ⟨_, rfl, hwhole⟩

/-- Few tokens never nest too deeply. -/
theorem parseTokens_ne_tooDeep (hreg : ∀ t ∈ tokens.tokens, t.Regular)
    (hlen : 2 * tokens.tokens.length < nestingLimit) (span : Span)
    (htype : ∀ eof, tokens.ending = .ok eof → eof.type = .endOfInput) :
    parseTokens length tokens ≠ .error (.tooDeep span) := by
  intro h
  unfold parseTokens at h
  dsimp only at h
  split at h
  · rename_i a hrun
    obtain ⟨w, eof, u, hinput, hend, hbuilds⟩ := builds_of_run hrun
    obtain ⟨rfl, -⟩ := ending_of_append hreg hend hinput
    have hheight := height_start_le hbuilds
    unfold finish at h
    split at h
    · omega
    · split at h
      · cases h
      · cases h
      · rename_i e hpart
        cases h
        rcases hbuilds.part_error a List.mem_cons_self _ hpart with ⟨_, _, ⟨⟩⟩ | ⟨_, ⟨⟩⟩
  · cases h
  · cases h
  · rename_i t hrun hending
    rw [hending] at hrun
    exact Lr.run_ne_unfinished (not_occurs_end (htype t hending)) _ _ hrun

end

end Grammar

/-! ## Texts -/

section

variable {table : KeywordTable} (hp : table.Proper) {source : String} {p : Program} {eof : Token}
include hp

theorem Grammar.parse_eq (source : String) :
    Grammar.parse table source =
      Grammar.parseTokens source.length (Lexer.scan (Lexer.rules table) source) := by
  rw [Grammar.parse, Lexer.fault?_eq_none hp, Lexer.scan_lexerRules hp]

theorem Grammar.derivesWhole_of_parse (h : Grammar.parse table source = .ok p) :
    ∃ eof, (Lexer.scan (Lexer.rules table) source).ending = .ok eof ∧ eof.type = .endOfInput ∧
      DerivesWhole .free (Lexer.scan (Lexer.rules table) source).tokens p.body := by
  rw [Grammar.parse_eq hp] at h
  exact derivesWhole_of_parseTokens Placing.free_covers (Lexer.regular_scan table source) h

theorem Grammar.parse_of_derivesWhole {list : List Stmt}
    (hdepth : ∀ span, Grammar.parse table source ≠ .error (.tooDeep span))
    (heof : (Lexer.scan (Lexer.rules table) source).ending = .ok eof) (htype : eof.type = .endOfInput)
    (h : DerivesWhole .free (Lexer.scan (Lexer.rules table) source).tokens list) :
    ∃ q, Grammar.parse table source = .ok q ∧
      DerivesWhole .free (Lexer.scan (Lexer.rules table) source).tokens q.body := by
  rw [Grammar.parse_eq hp] at hdepth ⊢
  rcases parseTokens_of_derivesWhole (Lexer.regular_scan table source) heof htype h with
    ⟨span, hdeep⟩ | hok
  · exact absurd hdeep (hdepth span)
  · exact hok

/-- A text of few tokens never nests too deeply. -/
theorem Grammar.parse_ne_tooDeep
    (hlen : 2 * (Lexer.scan (Lexer.rules table) source).tokens.length < nestingLimit) (span : Span) :
    Grammar.parse table source ≠ .error (.tooDeep span) := by
  rw [Grammar.parse_eq hp]
  apply parseTokens_ne_tooDeep (Lexer.regular_scan table source) hlen
  intro eof heof
  obtain ⟨c, -, ⟨-, hend⟩ | ⟨e, hend⟩ | ⟨type, hm, -⟩⟩ :=
    Lexer.scans_collect (Lexer.rules_progress table) (c := .ofSource source) (Nat.lt_succ_self _)
  · cases heof.symm.trans hend
    rfl
  · cases heof.symm.trans hend
  · exact absurd (Lexer.shape_of_firstMatch hm) (Lexer.not_shape_nil hp.ne_empty type)

/-- What the table-driven parser accepts, the descent parser accepts. -/
theorem parse_of_table_parse (hdepth : ∀ span, parse table source ≠ .error (.tooDeep span))
    (h : Grammar.parse table source = .ok p) : ∃ q, parse table source = .ok q ∧ q.erase = p.erase := by
  obtain ⟨eof, heof, htype, hwhole⟩ := Grammar.derivesWhole_of_parse hp h
  rcases Parser.parseTokens_of_derives heof htype (derivesWhole_iff.1 hwhole).1.program with
    ⟨span, hdeep⟩ | hok
  · exact absurd hdeep (hdepth span)
  · exact hok

theorem table_parse_of_derivesWhole
    (hdepth : ∀ span, Grammar.parse table source ≠ .error (.tooDeep span))
    (heof : (Lexer.scan (Lexer.rules table) source).ending = .ok eof) (htype : eof.type = .endOfInput)
    (h : DerivesWhole .free (Lexer.scan (Lexer.rules table) source).tokens p.erase.body) :
    ∃ q, Grammar.parse table source = .ok q ∧ q.erase = p.erase := by
  obtain ⟨q, hq, hwhole⟩ := Grammar.parse_of_derivesWhole hp hdepth heof htype h
  exact ⟨q, hq, Parser.derivesProgram_unique (derivesWhole_iff.1 hwhole).1.program
    (derivesWhole_iff.1 h).1⟩

end

/-- The tokens of a text with a line feed and a terminator behind it. -/
theorem Lexer.scan_terminator {table : KeywordTable} (hp : table.Proper) {source : String} {eof : Token}
    (heof : (scan (rules table) source).ending = .ok eof) (htype : eof.type = .endOfInput)
    (hf : Followed (scan (rules table) source).tokens) :
    ∃ t eof' : Token, t.type = .semi ∧ eof'.type = .endOfInput ∧
      (scan (rules table) (source ++ "\n;")).tokens = (scan (rules table) source).tokens ++ [t] ∧
      (scan (rules table) (source ++ "\n;")).ending = .ok eof' := by
  have hsemi : Scans (rules table) ⟨some '\n', source.length + 1, [';']⟩ [_] _ :=
    .token Nat.one_pos rfl (.stop _)
  have hscan : scan (rules table) (source ++ "\n" ++ ";") = _ :=
    scan_before_line hp heof htype hf hsemi rfl
  rw [String.append_assoc] at hscan
  exact ⟨_, _, rfl, rfl, congrArg Tokens.tokens hscan, congrArg Tokens.ending hscan⟩

/-- Both parsers give the same program apart from places, each with a store of its own that has no
parsers yet: what the table-driven parser accepts, the descent parser accepts; and what the descent parser
accepts, the table-driven parser accepts as it is or with a line feed and a terminator behind it. -/
theorem parsers_agree (table : KeywordTable) (hp : table.Proper) (source : String)
    (hdescent : ∀ span, parse table source ≠ .error (.tooDeep span))
    (htable : ∀ span, (Grammar.Cache.parse {} table source).1 ≠ .error (.tooDeep span))
    (hclosed : ∀ span, (Grammar.Cache.parse {} table (source ++ "\n;")).1 ≠ .error (.tooDeep span)) :
    (∀ p, (Grammar.Cache.parse {} table source).1 = .ok p →
      ∃ q, parse table source = .ok q ∧ q.erase = p.erase) ∧
    ∀ p, parse table source = .ok p →
      (∃ q, (Grammar.Cache.parse {} table source).1 = .ok q ∧ q.erase = p.erase) ∨
        ∃ q, (Grammar.Cache.parse {} table (source ++ "\n;")).1 = .ok q ∧ q.erase = p.erase := by
  constructor
  · intro p h
    exact parse_of_table_parse hp hdescent h
  · intro p h
    obtain ⟨eof, heof, htype⟩ := exists_end_of_parse hp.ne_empty h
    have hderives : DerivesProgram _ p := (derives_of_parse heof htype h).program
    obtain ⟨t, eof', ht, htype', htokens, heof'⟩ := Lexer.scan_terminator hp heof htype
      hderives.followed
    by_cases hclose : isClosed (Lexer.scan (Lexer.rules table) source).tokens = true
    · left
      exact table_parse_of_derivesWhole hp htable heof htype (derivesWhole_iff.2 ⟨hderives, .inl hclose⟩)
    · right
      apply table_parse_of_derivesWhole hp hclosed heof' htype'
      -- With the terminator the statements could stand in front of any token but `else`.
      have hterminable := terminable_of_derives hderives rfl t ht
      rw [withTerminator, if_neg hclose] at hterminable
      rw [htokens]
      exact .inl hterminable

/-- A nested conditional without its last terminator. -/
theorem parsers_agree_open_conditional :
    ∃ p, parse .default "agr (a) if (b) x = (y) = 1; else f(z)" = .ok p ∧
      ((∃ q, (Grammar.Cache.parse {} .default "agr (a) if (b) x = (y) = 1; else f(z)").1 = .ok q ∧
          q.erase = p.erase) ∨
        ∃ q, (Grammar.Cache.parse {} .default ("agr (a) if (b) x = (y) = 1; else f(z)" ++ "\n;")).1 =
            .ok q ∧ q.erase = p.erase) := by
  obtain ⟨p, h⟩ := exists_of_isOk (by decide +kernel :
    (parse .default "agr (a) if (b) x = (y) = 1; else f(z)").isOk = true)
  have hagree := parsers_agree .default KeywordTable.default_proper _ (fun span => by rw [h]; rintro ⟨⟩)
    (Grammar.parse_ne_tooDeep KeywordTable.default_proper (by decide +kernel))
    (Grammar.parse_ne_tooDeep KeywordTable.default_proper (by decide +kernel))
  exact ⟨p, h, hagree.2 p h⟩

/-- The table-driven parser accepts what the descent parser accepts, if the last token is a terminator or
a closing brace or if the last statement is a plain one. -/
theorem table_parse_isOk_iff (table : KeywordTable) (hp : table.Proper) (source : String)
    (hdescent : ∀ span, parse table source ≠ .error (.tooDeep span))
    (htable : ∀ span, (Grammar.Cache.parse {} table source).1 ≠ .error (.tooDeep span)) :
    (∃ p, (Grammar.Cache.parse {} table source).1 = .ok p) ↔
      ∃ p, parse table source = .ok p ∧
        (isClosed (Lexer.scan (Lexer.rules table) source).tokens = true ∨ p.endsPlain = true) := by
  constructor
  · rintro ⟨p, h⟩
    obtain ⟨q, hq, heq⟩ := parse_of_table_parse hp hdescent h
    obtain ⟨-, -, -, hwhole⟩ := Grammar.derivesWhole_of_parse hp h
    refine ⟨q, hq, (derivesWhole_iff.1 hwhole).2.imp_right fun hplain => ?_⟩
    rw [← q.endsPlain_erase, heq, p.endsPlain_erase]
    exact hplain
  · rintro ⟨p, h, hends⟩
    obtain ⟨eof, heof, htype⟩ := exists_end_of_parse hp.ne_empty h
    rw [← p.endsPlain_erase] at hends
    obtain ⟨q, hq, -⟩ := table_parse_of_derivesWhole hp htable heof htype
      (derivesWhole_iff.2 ⟨(derives_of_parse heof htype h).program, hends⟩)
    exact ⟨q, hq⟩

/-- A conditional that ends without a terminator is accepted by the descent parser only. -/
theorem table_parse_rejects_open_conditional :
    (∃ p, parse .default "if (a) b" = .ok p) ∧
      ¬ ∃ p, (Grammar.Cache.parse {} .default "if (a) b").1 = .ok p := by
  obtain ⟨p, h, hplain⟩ := exists_ok_of_map (by decide +kernel :
    (parse .default "if (a) b").map (·.endsPlain) = .ok false)
  refine ⟨⟨p, h⟩, ?_⟩
  rw [table_parse_isOk_iff .default KeywordTable.default_proper _ (fun span => by rw [h]; rintro ⟨⟩)
    (Grammar.parse_ne_tooDeep KeywordTable.default_proper (by decide +kernel))]
  rintro ⟨q, hq, hclosed | hends⟩
  · revert hclosed
    decide +kernel
  · cases h.symm.trans hq
    rw [hplain] at hends
    cases hends

end Scriptlet
