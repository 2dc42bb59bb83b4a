import Scriptlet.Proofs.Constituents
import Scriptlet.Proofs.Excerpts

/-!
A statement's span is the statement. The text between the two places of a statement in an accepted text is
accepted by itself, and what it says is this one statement.

The statement derives from the tokens of its span. Counted from the first of them on, these are the tokens of
the text of the span, and the statement is moved along with them.
-/

namespace Scriptlet

/-! ## Where phrases stand -/

theorem Ordered.part {x u y : List Token} {low high : Nat} (h : Ordered low (x ++ (u ++ y)) high)
    (hu : u ≠ []) : Ordered (startOf u) u (endOf 0 u) := by
  have hpart := (Ordered.append.1 (Ordered.append.1 h).2).1
  rw [Parser.endOf_of_ne_nil hu _ 0] at hpart
  cases u with
  | nil => exact absurd rfl hu
  | cons t u => exact ⟨Nat.le_refl _, hpart.2⟩

theorem Derives.stmt_span {w : List Token} {next : TokenType} {s : Stmt}
    (h : Derives .tight w (.stmt next s)) : s.span = ⟨startOf w, endOf 0 w⟩ := by
  cases h with
  | exprStmt h _ hs =>
    rw [Parser.startOf_append h.expr_opens.ne_nil]
    exact hs
  | variableStmt h _ hs =>
    rw [Parser.startOf_append (h.opens _ rfl).ne_nil]
    exact hs
  | blockStmt h =>
    cases h with
    | block _ _ _ hs => exact hs
  | emptyStmt _ hs | ifThen _ _ _ _ hs | ifElse _ _ _ _ _ hs | whileLoop _ _ _ hs
  | doLoop _ _ _ _ _ hs | forLoop _ _ _ _ _ _ _ _ _ hs | function _ _ _ _ _ _ hs | ret _ _ _ hs => exact hs

section
variable {room low high : Nat} {u : List Token}

variable {s : Stmt} {shift : Nat}

/-- Tokens that are all behind a place are lowered without loss. -/
theorem Ordered.raise_lower (h : Ordered low u high) (hshift : shift ≤ low) :
    (u.map (Token.relocate (· - shift))).map (Token.relocate (· + shift)) = u := by
  induction u generalizing low with
  | nil => rfl
  | cons t u ih =>
    obtain ⟨hlow, hle, hrest⟩ := h
    have hstart : shift ≤ t.span.start := Nat.le_trans hshift hlow
    have hstop : shift ≤ t.span.stop := Nat.le_trans hstart hle
    rw [List.map_cons, List.map_cons, ih hrest hstop]
    simp only [Token.relocate, Span.relocate, Nat.sub_add_cancel hstart, Nat.sub_add_cancel hstop]

/-- A statement by itself is a program of one statement. -/
theorem StmtFits.program (h : StmtFits room u s) :
    Fits .tight room u (.stmts .endOfInput [s]) :=
  (@Fits.moreStmts _ _ _ [] .endOfInput _ _ h .noStmts).of_eq (List.append_nil u).symm

theorem StmtFits.relocate (h : StmtFits room u s) (shift : Nat → Nat) :
    StmtFits room (u.map (Token.relocate shift)) (s.relocate shift) :=
  Fits.relocate (Moving.tight shift) h

theorem StmtFits.ne_nil (h : StmtFits room u s) : u ≠ [] :=
  ((Fits.derives h).opens _ rfl).ne_nil

/-- A statement is lowered without loss where its tokens are. -/
theorem StmtFits.raise_lower (h : StmtFits room u s) (hu : Ordered low u high) (hshift : shift ≤ low) :
    (s.relocate (· - shift)).relocate (· + shift) = s := by
  have hback := ((h.relocate (· - shift)).relocate (· + shift)).program.derives
  rw [hu.raise_lower hshift] at hback
  exact List.head_eq_of_cons_eq (Parser.body_unique hback h.program.derives)

end

/-! ## Parts of accepted texts -/

section
variable {table : KeywordTable} {source : String} {p : Program} {u : List Token}

theorem length_excerpt {span : Span} (h : span.stop ≤ source.length) :
    (excerpt source span).length = span.stop - span.start := by
  rw [← String.length_toList, toList_excerpt, Lexer.slice, List.length_drop, List.length_take,
    String.length_toList, Nat.min_eq_left h]

/-- The tokens of an accepted text, up to its end, and no name among them that is spelled like a
keyword. -/
theorem scans_of_parse (hp : table.Proper) (h : parse table source = .ok p) :
    ∃ eof c, (Lexer.scan (Lexer.rules table) source).ending = .ok eof ∧ eof.type = .endOfInput ∧
      Lexer.Scans (Lexer.rules table) (.ofSource source) (Lexer.scan (Lexer.rules table) source).tokens c ∧
      c.offset = source.length ∧
      ∀ t ∈ (Lexer.scan (Lexer.rules table) source).tokens, t.type = .identifier →
        ∀ k, t.text ∉ table.spellings k := by
  obtain ⟨eof, heof, htype⟩ := exists_end_of_parse hp.ne_empty h
  obtain ⟨c, hscans, hrest⟩ := Lexer.scans_of_scan heof htype
  exact ⟨eof, c, heof, htype, hscans, hscans.offset_of_end hrest,
    fun t ht => not_keyword_of_derives hp hscans rfl (derives_of_parse heof htype h) ht⟩

/-- The text of tokens that are a statement by themselves is this statement. -/
theorem parse_excerpt (hp : table.Proper) (h : parse table source = .ok p)
    (hw : u <:+: (Lexer.scan (Lexer.rules table) source).tokens) {s : Stmt}
    (hs : StmtFits nestingLimit u s) :
    parse table (excerpt source ⟨startOf u, endOf 0 u⟩) =
        .ok ⟨[s.relocate (· - startOf u)], ⟨0, endOf 0 u - startOf u⟩⟩ ∧
      (s.relocate (· - startOf u)).relocate (· + startOf u) = s := by
  obtain ⟨x, y, hw⟩ := hw
  rw [List.append_assoc] at hw
  obtain ⟨eof, c, -, -, hscans, hoffset, hname⟩ := scans_of_parse hp h
  rw [← hw] at hscans hname
  have hu := hs.ne_nil
  obtain ⟨c', hscan⟩ := Lexer.scan_excerpt hp hscans hu fun t ht => hname t (by simp [ht])
  have hord := hscans.ordered
  have hle : endOf 0 u ≤ source.length := by
    have := (Ordered.append.1 (Ordered.append.1 hord).2).2.le
    rw [Parser.endOf_of_ne_nil hu _ 0] at this
    omega
  refine ⟨?_, hs.raise_lower (hord.part hu) (Nat.le_refl _)⟩
  rw [parse, hscan, length_excerpt hle]
  exact Parser.parseTokens_of_fits rfl rfl (hs.relocate _).program

end

/-- The text of a statement of an accepted text is accepted by itself. It is this one statement, with every
offset lowered by that of its start, and none of them was less. -/
theorem parse_excerpt_of_mem_stmts (table : KeywordTable) (hp : table.Proper) (source : String)
    (p : Program) (h : parse table source = .ok p) (s : Stmt) (hs : s ∈ p.stmts) :
    parse table (excerpt source s.span) =
        .ok ⟨[s.relocate (· - s.span.start)], ⟨0, s.span.stop - s.span.start⟩⟩ ∧
      (s.relocate (· - s.span.start)).relocate (· + s.span.start) = s := by
  obtain ⟨eof, heof, htype⟩ := exists_end_of_parse hp.ne_empty h
  have hfits := Parser.fits_of_parseTokens heof htype (Lexer.regular_scan table source) h
  obtain ⟨u, hu, hs⟩ := hfits.statements (Nat.le_refl _) s hs
  simp only [hs.derives.stmt_span]
  exact parse_excerpt hp h hu hs

/-- The declarations of a loop inside a function, which have no terminator of their own. -/
theorem parse_excerpt_of_mem_stmts_loop :
    ∃ p s, parse .default "def f() { for (let i = n; i;) g(i); }" = .ok p ∧ s ∈ p.stmts ∧
      s.span = ⟨15, 24⟩ ∧ excerpt "def f() { for (let i = n; i;) g(i); }" s.span = "let i = n" ∧
      parse .default "let i = n" = .ok ⟨[s.relocate (· - 15)], ⟨0, 9⟩⟩ ∧
      (s.relocate (· - 15)).relocate (· + 15) = s := by
  obtain ⟨p, hp, hs⟩ := exists_ok_of_map (by decide +kernel :
    (parse .default "def f() { for (let i = n; i;) g(i); }").map (decide <|
      Stmt.variables [⟨⟨"i", ⟨19, 20⟩⟩, some (.ident ⟨"n", ⟨23, 24⟩⟩), ⟨19, 24⟩⟩] ⟨15, 24⟩ ∈ ·.stmts) =
        .ok true)
  have hs := of_decide_eq_true hs
  have htext : excerpt "def f() { for (let i = n; i;) g(i); }" ⟨15, 24⟩ = "let i = n" := by decide
  obtain ⟨hparse, hraise⟩ := parse_excerpt_of_mem_stmts .default KeywordTable.default_proper _ p hp _ hs
  exact ⟨p, _, hp, hs, rfl, htext, htext ▸ hparse, hraise⟩

end Scriptlet
