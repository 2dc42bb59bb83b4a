import Scriptlet.Proofs.Parentheses
import Scriptlet.Proofs.StatementSpans

/-!
An expression's span is the expression, unless the expression starts with an operand in parentheses. The
text of the span of an expression is accepted by itself exactly if its parentheses are balanced, and then it
says this one expression.

An expression derives from tokens that stand together, on some layer of operators, and so it is one on the
weakest layer and a statement that the end of the input ends. But a node starts where its first operand
starts, behind the parentheses that open in front of it, and it ends where its last token ends; so a
parenthesis around the first operand is cut in half.
-/

namespace Scriptlet

section
variable {limit room : Nat} {u : List Token} {e : Expr}

/-! ## Expressions by themselves -/

/-- An expression of any layer is one of the weakest layer. -/
theorem Fits.assignment {place : Placing} {layer : Layer} (h : Fits place room u (.expr layer e)) :
    ∃ r, r + 1 = room + layer.height ∧ Fits place r u (.expr .assignment e) := by
  have hunary : ∀ {room}, Fits place room u (.expr .unary e) →
      Fits place (room + 7) u (.expr .assignment e) := fun h =>
    .ofOr (.ofOperand (.ofOperand (.ofOperand (.ofOperand (.ofOperand (.ofOperand h))))))
  cases layer with
  | assignment => exact ⟨room, rfl, h⟩
  | binary level =>
    cases level with
    | or => exact ⟨_, rfl, .ofOr h⟩
    | and => exact ⟨_, rfl, .ofOr (.ofOperand h)⟩
    | equality => exact ⟨_, rfl, .ofOr (.ofOperand (.ofOperand h))⟩
    | relational => exact ⟨_, rfl, .ofOr (.ofOperand (.ofOperand (.ofOperand h)))⟩
    | additive => exact ⟨_, rfl, .ofOr (.ofOperand (.ofOperand (.ofOperand (.ofOperand h))))⟩
    | multiplicative =>
      exact ⟨_, rfl, .ofOr (.ofOperand (.ofOperand (.ofOperand (.ofOperand (.ofOperand h)))))⟩
  | unary => exact ⟨_, rfl, hunary h⟩
  | call => exact ⟨_, rfl, hunary (.ofCall h)⟩
  | primary => exact ⟨_, rfl, hunary (.ofCall (.atom h))⟩

/-- The tokens of an expression are a statement by themselves. -/
theorem ExprFits.stmt (h : ExprFits limit u e) : StmtFits limit u (.expr e ⟨startOf u, endOf 0 u⟩) := by
  obtain ⟨layer, room, hfits, hroom⟩ := h.fits
  obtain ⟨r, hr, hweakest⟩ := hfits.assignment
  have hstmt : Fits .tight (r + 1) (u ++ []) (.stmt .endOfInput (.expr e ⟨startOf u, endOf 0 u⟩)) :=
    .exprStmt hweakest .atEnd (by rw [List.append_nil]; rfl)
  rw [List.append_nil] at hstmt
  exact hstmt.mono (hr ▸ hroom)

theorem ExprFits.derives (h : ExprFits limit u e) : ∃ layer, Derives .tight u (.expr layer e) := by
  obtain ⟨layer, room, hfits, -⟩ := h.fits
  exact ⟨layer, hfits.derives⟩

/-- The tokens of the span of an expression are those it derives from, without the parentheses that open in
front of it. If they are balanced there is no such parenthesis. -/
theorem ExprFits.exists_split (h : ExprFits limit u e) :
    ∃ v u', u = v ++ u' ∧ u' ≠ [] ∧ e.span = ⟨startOf u', endOf 0 u'⟩ ∧ (Balanced u' → v = []) := by
  obtain ⟨layer, hu⟩ := h.derives
  have hsplit := List.takeWhile_append_dropWhile (p := Token.isOpening) (l := u)
  have hdrop := hu.balanced.dropWhile_ne_nil hu.expr_opens.ne_nil
  have hstop := h.stop
  rw [← hsplit, Parser.endOf_append, Parser.endOf_of_ne_nil hdrop _ 0] at hstop
  refine ⟨_, _, hsplit.symm, hdrop, ?_, hu.balanced.takeWhile_eq_nil⟩
  rw [← hu.lead_start _ rfl, ← hstop]

theorem balanced_relocate {place : Nat → Nat} : Balanced (u.map (Token.relocate place)) ↔ Balanced u := by
  rw [Balanced, Balanced, tally, tally, List.countP_map, List.countP_map]
  rfl

end

/-- The text of an expression of an accepted text is accepted by itself if its parentheses are balanced, and
otherwise it is not. It is then this one expression, with every offset lowered by that of its start. -/
theorem parse_excerpt_of_mem_exprs (table : KeywordTable) (hp : table.Proper) (source : String)
    (p : Program) (h : parse table source = .ok p) (e : Expr) (he : e ∈ p.exprs) :
    if Balanced (Lexer.scan (Lexer.rules table) (excerpt source e.span)).tokens then
      parse table (excerpt source e.span) =
          .ok ⟨[.expr (e.relocate (· - e.span.start)) ⟨0, e.span.stop - e.span.start⟩],
            ⟨0, e.span.stop - e.span.start⟩⟩ ∧
        (e.relocate (· - e.span.start)).relocate (· + e.span.start) = e
    else ∀ q, parse table (excerpt source e.span) ≠ .ok q := by
  split
  · rename_i hbalanced
    obtain ⟨eof, c, heof, htype, hscans, -, hname⟩ := scans_of_parse hp h
    have hfits := Parser.fits_of_parseTokens heof htype (Lexer.regular_scan table source) h
    have hlimit : 11 ≤ nestingLimit := by decide
    obtain ⟨u, hinfix, hu⟩ := hfits.expressions hlimit (Nat.le_refl _) e he
    obtain ⟨v, u', rfl, hne, hspan, hnil⟩ := hu.exists_split
    obtain ⟨x, y, hw⟩ := id hinfix
    have hw' : (x ++ v) ++ (u' ++ y) = (Lexer.scan (Lexer.rules table) source).tokens := by
      simpa using hw
    rw [← hw'] at hscans hname
    obtain ⟨c', hscan⟩ := Lexer.scan_excerpt hp hscans hne fun t ht => hname t (by simp [ht])
    rw [hspan, hscan] at hbalanced
    obtain rfl : v = [] := hnil (balanced_relocate.1 hbalanced)
    obtain ⟨hparse, hraise⟩ := parse_excerpt hp h hinfix hu.stmt
    simp only [List.nil_append, Stmt.relocate, Span.relocate, Nat.sub_self, Stmt.expr.injEq] at hparse hraise
    rw [hspan]
    exact ⟨hparse, hraise.1⟩
  · rename_i hbalanced
    intro q hq
    obtain ⟨eof, heof, htype⟩ := exists_end_of_parse hp.ne_empty hq
    exact hbalanced (derives_of_parse heof htype hq).balanced

/-- A product whose first factor has parentheses inside. -/
theorem parse_excerpt_of_mem_exprs_product :
    ∃ p e, parse .default "f(-(a) * b);" = .ok p ∧ e ∈ p.exprs ∧ e.span = ⟨2, 10⟩ ∧
      excerpt "f(-(a) * b);" e.span = "-(a) * b" ∧
      parse .default "-(a) * b" = .ok ⟨[.expr (e.relocate (· - 2)) ⟨0, 8⟩], ⟨0, 8⟩⟩ ∧
      (e.relocate (· - 2)).relocate (· + 2) = e := by
  obtain ⟨p, hp, he⟩ := exists_ok_of_map (by decide +kernel : (parse .default "f(-(a) * b);").map (decide <|
    Expr.binary .mul (.unary .minus (.ident ⟨"a", ⟨4, 5⟩⟩) ⟨2, 6⟩) (.ident ⟨"b", ⟨9, 10⟩⟩) ⟨2, 10⟩ ∈
      ·.exprs) = .ok true)
  have he := of_decide_eq_true he
  have htext : excerpt "f(-(a) * b);" ⟨2, 10⟩ = "-(a) * b" := by decide
  have hcase := parse_excerpt_of_mem_exprs .default KeywordTable.default_proper _ p hp _ he
  simp only [Expr.span, htext] at hcase
  rw [if_pos (by decide +kernel)] at hcase
  exact ⟨p, _, hp, he, rfl, htext, hcase⟩

/-- A sum whose first operand is in parentheses starts behind the first parenthesis and ends behind the
second operand. The text between is no program. -/
theorem parse_excerpt_of_grouped_operand :
    ∃ p e, parse .default "(a) + b;" = .ok p ∧ e ∈ p.exprs ∧ e.span = ⟨1, 7⟩ ∧
      excerpt "(a) + b;" e.span = "a) + b" ∧ ∀ q, parse .default "a) + b" ≠ .ok q := by
  obtain ⟨p, hp, he⟩ := exists_ok_of_map (by decide +kernel : (parse .default "(a) + b;").map (decide <|
    Expr.binary .add (.ident ⟨"a", ⟨1, 2⟩⟩) (.ident ⟨"b", ⟨6, 7⟩⟩) ⟨1, 7⟩ ∈ ·.exprs) = .ok true)
  have hnone : (parse .default "a) + b").isOk = false := by decide +kernel
  refine ⟨p, _, hp, of_decide_eq_true he, rfl, by decide, fun q hq => ?_⟩
  rw [hq] at hnone
  cases hnone

end Scriptlet
