import Scriptlet.Proofs.ParserSound
import Scriptlet.Proofs.TableTrees

/-!
What the productions make of tokens derives from the tokens. The productions repeat to the left, with
the first item apart, and derivations repeat to the right; `Linked` stands between the two.

A statement that the productions read has its terminator, so it derives in front of any token but an
`else` that it would have to take. Only the last statement of a text may lack the terminator, and only
if it is an expression, a declaration or a return: `DerivesWhole`.

Nodes that a production makes cover all tokens it was read from; operands that are joined reach from the
start of the left one to the end of the right one. So the derivations have any placing that allows for
both (`Placing.Covers`).
-/

namespace Scriptlet

open Scriptlet.Parser (Level)

/-! ## Places of nodes -/

/-- Nodes may cover their tokens, and joined operands may reach from one to the other. -/
structure Placing.Covers (place : Placing) : Prop where
  whole {start : Nat} {w : List Token} : place start w (covered w)
  joined {level : Level} {layer layer' : Layer} {w v : List Token} {t : Token} {left right : Expr}
    (hl : Derives place w (.expr layer left)) (ht : t.type = level.type)
    (hr : Derives place v (.expr layer' right)) :
    place left.span.start (w ++ t :: v) ⟨left.span.start, right.span.stop⟩

theorem Placing.free_covers : Placing.free.Covers where
  whole := trivial
  joined _ _ _ := trivial

variable {place : Placing}

/-! ## Items behind tokens -/

/-- Items that stand one behind the other, each led by a token. -/
inductive Linked {α : Type} (link : Token → List Token → α → Prop) : List Token → List α → Prop
  | nil : Linked link [] []
  | cons {t : Token} {v w : List Token} {a : α} {list : List α} (h : link t v a)
      (hl : Linked link w list) : Linked link (t :: (v ++ w)) (a :: list)

section

variable {α : Type} {link : Token → List Token → α → Prop} {w : List Token} {list : List α}

theorem Linked.one {t : Token} {v : List Token} {a : α} (ha : link t v a) : Linked link (t :: v) [a] := by
  simpa using Linked.cons ha .nil

theorem Linked.snoc {t : Token} {v : List Token} {a : α} (h : Linked link w list)
    (ha : link t v a) : Linked link (w ++ t :: v) (list ++ [a]) := by
  induction h with
  | nil => exact .one ha
  | cons h _ ih => simpa using Linked.cons h ih

/-- An item behind a comma. -/
def behindComma (item : List Token → α → Prop) (t : Token) (v : List Token) (a : α) : Prop :=
  t.type = .comma ∧ item v a

/-- A first item and items behind commas are a list of items with commas between them. -/
theorem Linked.commas {item : List Token → α → Prop} {phrase : List α → Phrase}
    (one : ∀ {w a}, item w a → Derives place w (phrase [a]))
    (more : ∀ {w v t a list}, item w a → t.type = .comma → Derives place v (phrase list) →
      Derives place (w ++ t :: v) (phrase (a :: list)))
    (h : Linked (behindComma item) w list) :
    ∀ {v a}, item v a → Derives place (v ++ w) (phrase (a :: list)) := by
  induction h with
  | nil =>
    intro v a ha
    simpa using one ha
  | cons h _ ih =>
    intro v a ha
    exact more ha h.1 (ih h.2)

end

/-- An operator of a layer and its right operand. -/
def operatorAt (place : Placing) (level : Level) (t : Token) (v : List Token) (a : Token × Expr) : Prop :=
  t.Regular ∧ t.type = level.type ∧ a.1 = t ∧ Derives place v (.expr (.operand level) a.2)

theorem Linked.operands (hcov : place.Covers) {level : Level} {w : List Token}
    {list : List (Token × Expr)} (h : Linked (operatorAt place level) w list) :
    ∀ {v e}, Derives place v (.expr (.binary level) e) →
      Derives place (v ++ w) (.expr (.binary level) (Grammar.joinOperands level e list)) := by
  induction h with
  | nil =>
    intro v e he
    simpa [Grammar.joinOperands] using he
  | @cons t v w a list h _ ih =>
    intro u e he
    obtain ⟨t', right⟩ := a
    obtain ⟨hreg, ht, rfl, hr⟩ := h
    have hnode : Derives place (u ++ t' :: v) (.expr (.binary level)
        (level.build t'.text e right ⟨e.span.start, right.span.stop⟩)) := by
      rcases Parser.build_regular hreg ht with ⟨op, rfl, hsym, hbuild⟩ | ⟨op, rfl, hsym, hbuild⟩
      · rw [hbuild]
        exact .binary he ht hsym hr (hcov.joined he ht hr)
      · rw [hbuild]
        exact .logical he ht hsym hr (hcov.joined he ht hr)
    simpa [Grammar.joinOperands] using ih hnode

/-! ## Statements with their terminators -/

/-- The statement derives in front of any token, except that it may have to be no `else`. -/
def DerivesEnded (place : Placing) (next : TokenType) (w : List Token) (s : Stmt) : Prop :=
  ∀ next', (next' = .keyword .kwElse → next = .keyword .kwElse) → Derives place w (.stmt next' s)

/-- A statement that ends in a terminator of its own. -/
def Stmt.isPlain : Stmt → Bool
  | .expr .. | .variables .. | .ret .. => true
  | _ => false

/-- The tokens derive the statements, and only a plain one at the end may lack its terminator. -/
def DerivesWhole (place : Placing) (w : List Token) (list : List Stmt) : Prop :=
  (∀ next, next ≠ .keyword .kwElse → Derives place w (.stmts next list)) ∨
  ∃ v u first last, w = v ++ u ∧ list = first ++ [last] ∧
    Derives place v (.stmts (headType u .endOfInput) first) ∧
    Derives place u (.stmt .endOfInput last) ∧ last.isPlain = true

namespace Grammar

/-! ## What symbols stand for -/

/-- In front of a token of type `next`, the tokens derive what the part of a symbol is. -/
def Sense (place : Placing) (next : TokenType) (w : List Token) : Symbol → Part → Prop
  | .terminal type, p => ∃ t : Token, t.Regular ∧ t.type = type ∧ w = [t] ∧ p = .token t
  | .nonterminal x, p =>
    match x with
    | .root | .start => next = .endOfInput → ∃ list, p = .stmts list ∧ DerivesWhole place w list
    | .statements => ∃ list, p = .stmts list ∧ ∀ v next' tail,
      (headType v next' = .keyword .kwElse → next = .keyword .kwElse) →
      Derives place v (.stmts next' tail) → Derives place (w ++ v) (.stmts next' (list ++ tail))
    | .finalStatement => ∃ s, p = .stmt s ∧ s.isPlain = true ∧
      (next = .endOfInput → Derives place w (.stmt .endOfInput s))
    | .block => ∃ body span, p = .stmt (.block body span) ∧ Derives place w (.block body span)
    | .statement | .emptyStatement | .ifStatement | .whileStatement | .doWhileStatement
    | .forStatement | .functionDeclaration => ∃ s, p = .stmt s ∧ DerivesEnded place next w s
    | .variableDeclarations => ∃ list span, p = .variables list span ∧
      Derives place w (.variables list span)
    | .variableDeclaration => ∃ d, p = .declaration d ∧ Derives place w (.declaration d)
    | .moreDeclarations => ∃ list, p = .declarations list ∧
      Linked (behindComma fun v d => Derives place v (.declaration d)) w list
    | .forInit => ∃ i, p = .init i ∧ Derives place w (.forInit (some i))
    | .parameters => ∃ list, p = .idents list ∧ Derives place w (.idents list)
    | .moreParameters => ∃ list, p = .idents list ∧
      Linked (behindComma fun v id => Derives place v (.ident id)) w list
    | .expression | .assignment => ∃ e, p = .expr e ∧ Derives place w (.expr .assignment e)
    | .layer level => ∃ e, p = .expr e ∧ Derives place w (.expr (.binary level) e)
    | .moreOperands level => ∃ list, p = .operands list ∧ Linked (operatorAt place level) w list
    | .unary => ∃ e, p = .expr e ∧ Derives place w (.expr .unary e)
    | .call => ∃ e, p = .expr e ∧ Derives place w (.expr .call e)
    | .primary => ∃ e, p = .expr e ∧ Derives place w (.expr .primary e)
    | .arguments => ∃ list, p = .exprs list ∧ Derives place w (.exprs list)
    | .moreArguments => ∃ list, p = .exprs list ∧
      Linked (behindComma fun v e => Derives place v (.expr .assignment e)) w list

theorem sense_operand {next : TokenType} {w : List Token} {level : Level} {p : Part}
    (h : Sense place next w (.nonterminal (operandOf level)) p) :
    ∃ e, p = .expr e ∧ Derives place w (.expr (.operand level) e) := by
  cases level <;> exact h

/-- Tokens and parts for symbols that stand one behind the other. -/
def Senses (place : Placing) (next : TokenType) : List Symbol → List Token → List Part → Prop
  | [], w, parts => w = [] ∧ parts = []
  | s :: symbols, w, parts => ∃ v u p rest, w = v ++ u ∧ parts = p :: rest ∧
    Sense place (headType u next) v s p ∧ Senses place next symbols u rest

variable {next : TokenType} {symbols : List Symbol} {w : List Token} {parts : List Part}

/-! ### Taking the first part off -/

theorem Senses.token {type : TokenType} (h : Senses place next (.terminal type :: symbols) w parts) :
    ∃ t u rest, t.Regular ∧ t.type = type ∧ w = t :: u ∧ parts = .token t :: rest ∧
      Senses place next symbols u rest := by
  obtain ⟨_, u, _, rest, rfl, rfl, ⟨t, hreg, ht, rfl, rfl⟩, h⟩ := h
  exact ⟨t, u, rest, hreg, ht, rfl, rfl, h⟩

/-- A part that is an expression. -/
theorem Senses.expr (h : Senses place next (.nonterminal .expression :: symbols) w parts) :
    ∃ v u e rest, w = v ++ u ∧ parts = .expr e :: rest ∧ Derives place v (.expr .assignment e) ∧
      Senses place next symbols u rest := by
  obtain ⟨v, u, _, rest, rfl, rfl, ⟨e, rfl, he⟩, h⟩ := h
  exact ⟨v, u, e, rest, rfl, rfl, he, h⟩

theorem Senses.stmt (h : Senses place next (.nonterminal .statement :: symbols) w parts) :
    ∃ v u s rest, w = v ++ u ∧ parts = .stmt s :: rest ∧ DerivesEnded place (headType u next) v s ∧
      Senses place next symbols u rest := by
  obtain ⟨v, u, _, rest, rfl, rfl, ⟨s, rfl, hs⟩, h⟩ := h
  exact ⟨v, u, s, rest, rfl, rfl, hs, h⟩

/-- A clause of a `for` loop, or nothing. -/
theorem Senses.clause {present : Bool}
    (h : Senses place next ((if present then [.nonterminal .expression] else []) ++ symbols) w parts) :
    ∃ v u e rest, w = v ++ u ∧ Option.isSome e = present ∧ parts = (e.map Part.expr).toList ++ rest ∧
      Derives place v (.optional e) ∧ Senses place next symbols u rest := by
  cases present with
  | false => exact ⟨[], w, none, parts, rfl, rfl, rfl, .absent, h⟩
  | true =>
    obtain ⟨v, u, e, rest, rfl, rfl, he, h₁⟩ := Senses.expr h
    exact ⟨v, u, some e, rest, rfl, rfl, rfl, .present he, h₁⟩

theorem Senses.initClause {present : Bool}
    (h : Senses place next ((if present then [.nonterminal .forInit] else []) ++ symbols) w parts) :
    ∃ v u i rest, w = v ++ u ∧ Option.isSome i = present ∧ parts = (i.map Part.init).toList ++ rest ∧
      Derives place v (.forInit i) ∧ Senses place next symbols u rest := by
  cases present with
  | false => exact ⟨[], w, none, parts, rfl, rfl, rfl, .noInit, h⟩
  | true =>
    obtain ⟨v, u, _, rest, rfl, rfl, ⟨i, rfl, hi⟩, h₁⟩ := h
    exact ⟨v, u, some i, rest, rfl, rfl, rfl, hi, h₁⟩

/-! ## One production -/

/-- The part that a production makes has the sense of its left side. -/
def Justified (place : Placing) (r : Rule) : Prop :=
  ∀ ⦃next : TokenType⦄ ⦃w : List Token⦄ ⦃inside : List Part⦄ ⦃p : Part⦄,
    (r.form = .ifThen → next ≠ .keyword .kwElse) → Senses place next r.right w inside →
    (assemble r.form (covered w) inside).getD (.ok (.stmts [])) = .ok p →
    Sense place next w (.nonterminal r.left) p

/-- All tokens and parts that symbols can stand for reach a goal. -/
def Each (place : Placing) (next : TokenType) : List Symbol → (List Token → List Part → Prop) → Prop
  | [], goal => goal [] []
  | [.nonterminal x], goal => ∀ w p, Sense place next w (.nonterminal x) p → goal w [p]
  | .terminal type :: symbols, goal => ∀ t : Token, t.Regular → t.type = type →
    Each place next symbols fun w parts => goal (t :: w) (.token t :: parts)
  | .nonterminal x :: symbols, goal => ∀ v p, Each place next symbols fun w parts =>
    Sense place (headType w next) v (.nonterminal x) p → goal (v ++ w) (p :: parts)

theorem Each.goal {goal : List Token → List Part → Prop} (h : Each place next symbols goal)
    (hw : Senses place next symbols w parts) : goal w parts := by
  fun_induction Each place next symbols goal generalizing w parts with
  | case1 =>
    obtain ⟨rfl, rfl⟩ := hw
    exact h
  | case2 =>
    obtain ⟨v, _, p, _, rfl, rfl, hv, rfl, rfl⟩ := hw
    rw [List.append_nil]
    exact h v p hv
  | case3 _ _ _ ih =>
    obtain ⟨t, u, rest, hreg, ht, rfl, rfl, hu⟩ := hw.token
    exact ih t (h t hreg ht) hu
  | case4 _ _ _ _ ih =>
    obtain ⟨v, u, p, rest, rfl, rfl, hv, hu⟩ := hw
    exact ih v p (h v p) hu hv

theorem Justified.of_each {r : Rule} (h : ∀ next, (r.form = .ifThen → next ≠ .keyword .kwElse) →
    Each place next r.right fun w inside => ∀ p,
      (assemble r.form (covered w) inside).getD (.ok (.stmts [])) = .ok p →
      Sense place next w (.nonterminal r.left) p) : Justified place r :=
  fun next _ _ p hd hw => (h next hd).goal hw p

theorem assemble_number (t : Token) (span : Span) :
    (assemble .number span [.token t]).getD (.ok (.stmts [])) =
      match Number.read t.text with
      | .ok n => .ok (.expr (.literal (.number n) span))
      | .error e => .error (.badNumber e) :=
  rfl

/-- What a `for` loop is made of, with or without each of its clauses. -/
theorem assemble_for (i : Option ForInit) (e e' : Option Expr) (s : Stmt) (t a b c d : Token)
    (span : Span) :
    (assemble (.forLoop i.isSome e.isSome e'.isSome) span (.token t :: .token a ::
      ((i.map Part.init).toList ++ .token b :: ((e.map Part.expr).toList ++ .token c ::
        ((e'.map Part.expr).toList ++ [.token d, .stmt s]))))).getD (.ok (.stmts [])) =
      .ok (.stmt (.forLoop i e e' s span)) := by
  cases i <;> cases e <;> cases e' <;> rfl

theorem forRule_right (init test update : Bool) :
    (forRule init test update).right = .terminal (.keyword .kwFor) :: .terminal .parenStart ::
      ((if init then [.nonterminal .forInit] else []) ++ .terminal .semi ::
        ((if test then [.nonterminal .expression] else []) ++ .terminal .semi ::
          ((if update then [.nonterminal .expression] else []) ++
            [.terminal .parenEnd, .nonterminal .statement]))) := by
  simp [forRule]

theorem programRules_justified {r : Rule} (hr : r ∈ programRules) : Justified place r := by
  apply Justified.of_each
  simp only [programRules, List.mem_cons, List.not_mem_nil, or_false] at hr
  rcases hr with rfl | rfl | rfl | rfl | rfl | rfl | rfl
  · rintro next - w q hq _ ⟨⟩
    exact hq
  · rintro next - v _ u _ ⟨s, rfl, hplain, hs⟩ ⟨list, rfl, hlist⟩ _ ⟨⟩ rfl
    refine ⟨_, rfl, .inr ⟨v, u, list, s, rfl, rfl, ?_, hs rfl, hplain⟩⟩
    simpa using hlist [] (headType u .endOfInput) [] id .noStmts
  · rintro next - w _ ⟨list, rfl, hlist⟩ _ ⟨⟩ rfl
    refine ⟨_, rfl, .inl fun next hnext => ?_⟩
    simpa using hlist [] next [] (fun h => absurd h hnext) .noStmts
  · rintro next - w _ ⟨s, rfl, hplain, hs⟩ _ ⟨⟩ rfl
    exact ⟨_, rfl, .inr ⟨[], w, [], s, rfl, rfl, .noStmts, hs rfl, hplain⟩⟩
  · rintro next - _ ⟨⟩ -
    exact ⟨_, rfl, .inl fun next _ => .noStmts⟩
  · rintro next - w _ ⟨s, rfl, hs⟩ _ ⟨⟩
    exact ⟨_, rfl, fun v next' tail hnext htail => .moreStmts (hs _ hnext) htail⟩
  · rintro next - v _ u _ ⟨s, rfl, hs⟩ ⟨list, rfl, hlist⟩ _ ⟨⟩
    refine ⟨_, rfl, fun x next' tail hnext htail => ?_⟩
    have hne := (hs (.curlyEnd) nofun).stmt_ne_nil
    have hstep := hlist (u ++ x) next' (s :: tail) ?_ (.moreStmts (hs _ hnext) htail)
    · simpa using hstep
    · cases u with
      | nil => exact absurd rfl hne
      | cons t u => exact id

section

variable (hcov : place.Covers)
include hcov

variable {r : Rule}

theorem statementRules_justified (hr : r ∈ statementRules) : Justified place r := by
  apply Justified.of_each
  simp only [statementRules, List.mem_cons, List.not_mem_nil, or_false] at hr
  rcases hr with rfl | rfl | rfl | rfl | rfl | rfl | rfl | rfl | rfl | rfl | rfl | rfl | rfl | rfl |
    rfl | rfl | rfl | rfl
  · rintro next - v _ t - ht ⟨e, rfl, he⟩ _ ⟨⟩
    exact ⟨_, rfl, fun next' _ => .exprStmt he (.semi ht) hcov.whole⟩
  · rintro next - v _ t - ht ⟨list, inner, rfl, hlist⟩ _ ⟨⟩
    exact ⟨_, rfl, fun next' _ => .variableStmt hlist (.semi ht) hcov.whole⟩
  · rintro next - a - ha v _ t - ht ⟨e, rfl, he⟩ _ ⟨⟩
    exact ⟨_, rfl, fun next' _ => .ret ha (.present he) (.semi ht) hcov.whole⟩
  · rintro next - a - ha t - ht _ ⟨⟩
    exact ⟨_, rfl, fun next' _ => .ret ha .absent (.semi ht) hcov.whole⟩
  · rintro next - w _ ⟨body, inner, rfl, hb⟩ _ ⟨⟩
    exact ⟨_, rfl, fun next' _ => .blockStmt hb⟩
  -- The other kinds of statements are taken over as they are.
  iterate 6
    rintro next - w _ ⟨s, rfl, hs⟩ _ ⟨⟩
    exact ⟨_, rfl, hs⟩
  · rintro next - w _ ⟨e, rfl, he⟩ _ ⟨⟩
    refine ⟨_, rfl, rfl, ?_⟩
    rintro rfl
    rw [← List.append_nil w]
    exact .exprStmt he .atEnd hcov.whole
  · rintro next - w _ ⟨list, inner, rfl, hlist⟩ _ ⟨⟩
    refine ⟨_, rfl, rfl, ?_⟩
    rintro rfl
    rw [← List.append_nil w]
    exact .variableStmt hlist .atEnd hcov.whole
  · rintro next - a - ha w _ ⟨e, rfl, he⟩ _ ⟨⟩
    refine ⟨_, rfl, rfl, ?_⟩
    rintro rfl
    rw [← List.append_nil w]
    exact .ret ha (.present he) .atEnd hcov.whole
  · rintro next - a - ha _ ⟨⟩
    refine ⟨_, rfl, rfl, ?_⟩
    rintro rfl
    exact .ret ha .absent .atEnd hcov.whole
  · rintro next - a - ha v _ b - hb ⟨list, rfl, hlist⟩ _ ⟨⟩
    have hbody := hlist [] .curlyEnd [] nofun .noStmts
    rw [List.append_nil, List.append_nil] at hbody
    exact ⟨_, _, rfl, .block ha hbody hb hcov.whole⟩
  · rintro next - a - ha b - hb _ ⟨⟩
    exact ⟨_, _, rfl, .block ha .noStmts hb hcov.whole⟩
  · rintro next - a - ha _ ⟨⟩
    exact ⟨_, rfl, fun next' _ => .emptyStmt ha hcov.whole⟩

theorem declarationRules_justified (hr : r ∈ declarationRules) : Justified place r := by
  apply Justified.of_each
  simp only [declarationRules, List.mem_cons, List.not_mem_nil, or_false] at hr
  rcases hr with rfl | rfl | rfl | rfl | rfl | rfl
  · rintro next - a - ha v _ u _ ⟨list, rfl, hlist⟩ ⟨d, rfl, hd⟩ _ ⟨⟩
    exact ⟨_, _, rfl, .declared ha (hlist.commas .oneDeclaration .moreDeclarations hd) hcov.whole⟩
  · rintro next - a - ha w _ ⟨d, rfl, hd⟩ _ ⟨⟩
    exact ⟨_, _, rfl, .declared ha (.oneDeclaration hd) hcov.whole⟩
  · rintro next - a - ha w _ ⟨d, rfl, hd⟩ _ ⟨⟩
    exact ⟨_, rfl, .one ⟨ha, hd⟩⟩
  · rintro next - v _ a - ha u _ ⟨d, rfl, hd⟩ ⟨list, rfl, hlist⟩ _ ⟨⟩
    exact ⟨_, rfl, hlist.snoc ⟨ha, hd⟩⟩
  · rintro next - a - ha b - hb w _ ⟨e, rfl, he⟩ _ ⟨⟩
    exact ⟨_, rfl, .initialized (.ident ha hcov.whole) hb he hcov.whole⟩
  · rintro next - a - ha _ ⟨⟩
    exact ⟨_, rfl, .bare (.ident ha hcov.whole) hcov.whole⟩

theorem forRule_justified (init test update : Bool) : Justified place (forRule init test update) := by
  intro next w inside p _ h hp
  rw [forRule_right] at h
  obtain ⟨t, w₁, _, -, ht, rfl, rfl, h₁⟩ := h.token
  obtain ⟨a, w₂, _, -, ha, rfl, rfl, h₂⟩ := h₁.token
  obtain ⟨v, w₃, i, _, rfl, rfl, rfl, hi, h₃⟩ := h₂.initClause
  obtain ⟨b, w₄, _, -, hb, rfl, rfl, h₄⟩ := h₃.token
  obtain ⟨v', w₅, e, _, rfl, rfl, rfl, he, h₅⟩ := h₄.clause
  obtain ⟨c, w₆, _, -, hc, rfl, rfl, h₆⟩ := h₅.token
  obtain ⟨x, w₇, e', _, rfl, rfl, rfl, he', h₇⟩ := h₆.clause
  obtain ⟨d, w₈, _, -, hd, rfl, rfl, h₈⟩ := h₇.token
  obtain ⟨y, _, s, _, rfl, rfl, hs, rfl, rfl⟩ := h₈.stmt
  cases (assemble_for i e e' s t a b c d _).symm.trans hp
  rw [List.append_nil]
  exact ⟨_, rfl, fun next' hnext => .forLoop ht ha hi hb he hc he' hd (hs next' hnext) hcov.whole⟩

omit hcov in
theorem condition_append (a b : Token) (v w : List Token) : a :: (v ++ b :: w) = a :: (v ++ [b]) ++ w := by
  simp

theorem compoundRules_justified (hr : r ∈ compoundRules) : Justified place r := by
  simp only [compoundRules, List.mem_cons, List.not_mem_nil, or_false] at hr
  rcases hr with rfl | rfl | rfl | rfl | rfl | rfl | rfl | rfl | rfl | rfl | rfl | rfl | rfl | rfl |
    rfl | rfl | rfl | rfl | rfl | rfl
  · apply Justified.of_each
    rintro next - t - ht a - ha v _ b - hb u _ c - hc x _ ⟨s', rfl, hs'⟩ ⟨s, rfl, hs⟩ ⟨e, rfl, he⟩ _ ⟨⟩
    rw [condition_append a b]
    exact ⟨_, rfl, fun next' hnext => .ifElse ht (.condition ha he hb) (hs _ fun _ => hc) hc
      (hs' next' hnext) hcov.whole⟩
  · apply Justified.of_each
    rintro next hd t - ht a - ha v _ b - hb u _ ⟨s, rfl, hs⟩ ⟨e, rfl, he⟩ _ ⟨⟩
    rw [condition_append a b]
    exact ⟨_, rfl, fun next' hnext => .ifThen ht (.condition ha he hb) (hs next' hnext)
      (fun h => hd rfl (hnext h)) hcov.whole⟩
  · apply Justified.of_each
    rintro next - t - ht a - ha v _ b - hb u _ ⟨s, rfl, hs⟩ ⟨e, rfl, he⟩ _ ⟨⟩
    rw [condition_append a b]
    exact ⟨_, rfl, fun next' hnext => .whileLoop ht (.condition ha he hb) (hs next' hnext) hcov.whole⟩
  · apply Justified.of_each
    rintro next - t - ht u _ c - hc a - ha v _ b - hb d - hd ⟨e, rfl, he⟩ ⟨s, rfl, hs⟩ _ ⟨⟩
    rw [condition_append a b]
    exact ⟨_, rfl, fun next' _ => .doLoop ht (hs _ nofun) hc (.condition ha he hb) (.semi hd) hcov.whole⟩
  iterate 8 exact forRule_justified hcov ..
  all_goals apply Justified.of_each
  · rintro next - w _ ⟨list, inner, rfl, hlist⟩ _ ⟨⟩
    exact ⟨_, rfl, .initVariables hlist⟩
  · rintro next - w _ ⟨e, rfl, he⟩ _ ⟨⟩
    exact ⟨_, rfl, .initExpr he⟩
  · rintro next - t - ht a - ha b - hb v _ c - hc u _ ⟨body, inner, rfl, hbody⟩ ⟨list, rfl, hlist⟩ _ ⟨⟩
    exact ⟨_, rfl, fun next' _ =>
      .function ht (.ident ha hcov.whole) hb (.parameters hlist) hc hbody hcov.whole⟩
  · rintro next - t - ht a - ha b - hb c - hc u _ ⟨body, inner, rfl, hbody⟩ _ ⟨⟩
    exact ⟨_, rfl, fun next' _ =>
      .function ht (.ident ha hcov.whole) hb .noParameters hc hbody hcov.whole⟩
  · rintro next - a - ha w _ ⟨list, rfl, hlist⟩ _ ⟨⟩
    exact ⟨_, rfl, hlist.commas .oneIdent .moreIdents (.ident ha hcov.whole)⟩
  · rintro next - a - ha _ ⟨⟩
    exact ⟨_, rfl, .oneIdent (.ident ha hcov.whole)⟩
  · rintro next - a - ha b - hb _ ⟨⟩
    exact ⟨_, rfl, .one ⟨ha, .ident hb hcov.whole⟩⟩
  · rintro next - v _ a - ha b - hb ⟨list, rfl, hlist⟩ _ ⟨⟩
    exact ⟨_, rfl, hlist.snoc ⟨ha, .ident hb hcov.whole⟩⟩

theorem layerRules_justified {level : Level} (hr : r ∈ layerRules level) :
    Justified place r := by
  apply Justified.of_each
  simp only [layerRules, List.mem_cons, List.not_mem_nil, or_false] at hr
  rcases hr with rfl | rfl | rfl | rfl
  · rintro next - v _ u _ ⟨list, rfl, hlist⟩ hfirst
    obtain ⟨e, rfl, he⟩ := sense_operand hfirst
    rintro _ ⟨⟩
    exact ⟨_, rfl, hlist.operands hcov (.ofOperand he)⟩
  · rintro next - w _ hfirst
    obtain ⟨e, rfl, he⟩ := sense_operand hfirst
    rintro _ ⟨⟩
    exact ⟨_, rfl, .ofOperand he⟩
  · rintro next - t hreg ht w _ hright
    obtain ⟨e, rfl, he⟩ := sense_operand hright
    rintro _ ⟨⟩
    exact ⟨_, rfl, .one ⟨hreg, ht, rfl, he⟩⟩
  · rintro next - u _ t hreg ht v _ hright ⟨list, rfl, hlist⟩
    obtain ⟨e, rfl, he⟩ := sense_operand hright
    rintro _ ⟨⟩
    exact ⟨_, rfl, hlist.snoc ⟨hreg, ht, rfl, he⟩⟩

/-- An assignment is made only of a name. -/
theorem assign_justified {type : TokenType}
    (htype : type ∈ [TokenType.simpleAssignment, .complexAssignment]) :
    Justified place ⟨.assignment, [n (.layer .or), t type, n .assignment], .assign⟩ := by
  apply Justified.of_each
  rintro next - v _ t hreg ht u _ ⟨value, rfl, hvalue⟩ ⟨target, rfl, htarget⟩ p hp
  cases target with
  | ident id =>
    cases hp
    obtain ⟨hop, hsym⟩ := Parser.assignOp_regular hreg (ht ▸ htype)
    exact ⟨_, rfl, .assign htarget hop hsym hvalue hcov.whole⟩
  | literal | unary | binary | logical | assign | call => cases hp

theorem unary_justified {type : TokenType}
    (htype : type ∈ [TokenType.additive, .logicalNot]) :
    Justified place ⟨.unary, [t type, n .unary], .unary⟩ := by
  apply Justified.of_each
  rintro next - t hreg ht v _ ⟨e, rfl, he⟩ _ ⟨⟩
  obtain ⟨hop, hsym⟩ := Parser.unaryOp_regular hreg (ht ▸ htype)
  exact ⟨_, rfl, .unary hop hsym he hcov.whole⟩

theorem expressionRules_justified (hr : r ∈ expressionRules) : Justified place r := by
  simp only [expressionRules, List.mem_append, List.mem_cons, List.not_mem_nil, or_false,
    List.mem_flatMap] at hr
  rcases hr with ((rfl | rfl | rfl | rfl) | ⟨level, -, hr⟩) | rfl | rfl | rfl | rfl | rfl | rfl |
    rfl | rfl | rfl | rfl | rfl | rfl | rfl | rfl | rfl | rfl | rfl
  · apply Justified.of_each
    rintro next - w _ hq _ ⟨⟩
    exact hq
  · apply Justified.of_each
    rintro next - w _ ⟨e, rfl, he⟩ _ ⟨⟩
    exact ⟨_, rfl, .ofOr he⟩
  · exact assign_justified hcov (by decide)
  · exact assign_justified hcov (by decide)
  · exact layerRules_justified hcov hr
  · exact unary_justified hcov (by decide)
  · exact unary_justified hcov (by decide)
  all_goals apply Justified.of_each
  · rintro next - w _ ⟨e, rfl, he⟩ _ ⟨⟩
    exact ⟨_, rfl, .ofCall he⟩
  · rintro next - w _ ⟨e, rfl, he⟩ _ ⟨⟩
    exact ⟨_, rfl, .atom he⟩
  · rintro next - v _ a - ha u _ b - hb ⟨list, rfl, hlist⟩ ⟨e, rfl, he⟩ _ ⟨⟩
    exact ⟨_, rfl, .call he ha (.arguments hlist) hb hcov.whole⟩
  · rintro next - v _ a - ha b - hb ⟨e, rfl, he⟩ _ ⟨⟩
    exact ⟨_, rfl, .call he ha .noArguments hb hcov.whole⟩
  · rintro next - v _ u _ ⟨list, rfl, hlist⟩ ⟨e, rfl, he⟩ _ ⟨⟩
    exact ⟨_, rfl, hlist.commas .oneExpr .moreExprs he⟩
  · rintro next - w _ ⟨e, rfl, he⟩ _ ⟨⟩
    exact ⟨_, rfl, .oneExpr he⟩
  · rintro next - a - ha w _ ⟨e, rfl, he⟩ _ ⟨⟩
    exact ⟨_, rfl, .one ⟨ha, he⟩⟩
  · rintro next - v _ a - ha u _ ⟨e, rfl, he⟩ ⟨list, rfl, hlist⟩ _ ⟨⟩
    exact ⟨_, rfl, hlist.snoc ⟨ha, he⟩⟩
  · rintro next - a - ha p hp
    rw [assemble_number] at hp
    cases hn : Number.read a.text with
    | error e =>
      rw [hn] at hp
      cases hp
    | ok n =>
      rw [hn] at hp
      cases hp
      exact ⟨_, rfl, .number ha hn hcov.whole⟩
  · rintro next - a - ha _ ⟨⟩
    exact ⟨_, rfl, .string ha hcov.whole⟩
  -- The three words that are literals.
  iterate 3
    rintro next - a - ha _ ⟨⟩
    exact ⟨_, rfl, .word ha rfl hcov.whole⟩
  · rintro next - a - ha _ ⟨⟩
    exact ⟨_, rfl, .name (.ident ha hcov.whole)⟩
  · rintro next - a - ha v _ b - hb ⟨e, rfl, he⟩ _ ⟨⟩
    exact ⟨_, rfl, .paren (.condition ha he hb)⟩

theorem rules_justified (hr : r ∈ rules) : Justified place r := by
  simp only [rules, List.mem_append] at hr
  rcases hr with (((hr | hr) | hr) | hr) | hr
  · exact programRules_justified hr
  · exact statementRules_justified hcov hr
  · exact declarationRules_justified hcov hr
  · exact compoundRules_justified hcov hr
  · exact expressionRules_justified hcov hr

end

/-! ## Whole texts -/

variable {a : Attribute} {attributes : List Attribute} {p : Part}

theorem mapM_part_cons {inside : List Part} :
    (a :: attributes).mapM (·.part) = Except.ok inside ↔
      ∃ p rest, a.part = .ok p ∧ attributes.mapM (·.part) = Except.ok rest ∧ inside = p :: rest := by
  rw [List.mapM_cons]
  cases a.part with
  | error e => exact ⟨nofun, nofun⟩
  | ok p =>
    cases attributes.mapM (·.part) with
    | error e => exact ⟨nofun, nofun⟩
    | ok rest =>
      constructor
      · rintro ⟨⟩
        exact ⟨p, rest, rfl, rfl, rfl⟩
      · rintro ⟨_, _, ⟨⟩, ⟨⟩, rfl⟩
        rfl

theorem Form.apply_part {form : Form} {inner : List Attribute} :
    (Form.apply form inner).part = .ok p ↔ ∃ made, inner.mapM (·.part) = Except.ok made ∧
      (assemble form (coveredSpan inner) made).getD (.ok (.stmts [])) = .ok p := by
  rw [Form.apply]
  cases inner.mapM (·.part) with
  | error e => exact ⟨nofun, nofun⟩
  | ok made =>
    constructor
    · exact fun h => ⟨made, rfl, h⟩
    · rintro ⟨_, ⟨⟩, h⟩
      exact h

theorem senses_of_builds (hcov : place.Covers) (h : Builds next symbols w attributes)
    (hreg : ∀ t ∈ w, t.Regular) :
    ∀ inside, attributes.mapM (·.part) = Except.ok inside → Senses place next symbols w inside := by
  induction h with
  | nil =>
    rintro _ ⟨⟩
    exact ⟨rfl, rfl⟩
  | @token next t symbols w attributes _ ih =>
    intro inside hm
    obtain ⟨p, rest, ⟨⟩, hrest, rfl⟩ := mapM_part_cons.1 hm
    exact ⟨[t], w, _, rest, rfl, rfl, ⟨t, hreg t List.mem_cons_self, rfl, rfl, rfl⟩,
      ih (fun u hu => hreg u (List.mem_cons_of_mem _ hu)) rest hrest⟩
  | @rule next r symbols v w inner attributes hr hi hd _ ihi ih =>
    intro inside hm
    obtain ⟨p, rest, hp, hrest, rfl⟩ := mapM_part_cons.1 hm
    obtain ⟨made, hinner, hp⟩ := Form.apply_part.1 hp
    rw [hi.coveredSpan_eq (rules_whole r hr)] at hp
    have hmade := ihi (fun u hu => hreg u (List.mem_append_left _ hu)) made hinner
    exact ⟨v, w, p, rest, rfl, rfl, rules_justified hcov hr hd hmade hp,
      ih (fun u hu => hreg u (List.mem_append_right _ hu)) rest hrest⟩

/-- What the productions make of a whole text derives from it. -/
theorem derivesWhole_of_builds (hcov : place.Covers) (h : Builds .endOfInput [.nonterminal .start] w [a])
    (hreg : ∀ t ∈ w, t.Regular) (hp : a.part = .ok p) :
    ∃ list, p = .stmts list ∧ DerivesWhole place w list := by
  have hm : [a].mapM (·.part) = Except.ok [p] := mapM_part_cons.2 ⟨p, [], hp, rfl, rfl⟩
  obtain ⟨v, _, _, _, rfl, hparts, hsense, rfl, rfl⟩ := senses_of_builds hcov h hreg [p] hm
  cases hparts
  rw [List.append_nil]
  exact hsense rfl

end Grammar

end Scriptlet
