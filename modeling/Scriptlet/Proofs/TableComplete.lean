import Scriptlet.Proofs.TableSound

/-!
What derives from tokens is read by the productions. Which syntax they make of it is left open, except
that a part is made at all, and that a name stays a name where it is assigned to: that the productions
make the same syntax follows from their soundness, since tokens derive one program only.

Derivations repeat to the right and productions to the left, so repetitions are taken apart into
`Linked` items and put together again from the left.
-/

namespace Scriptlet

open Scriptlet.Parser (Level)

/-- What holds of one item and stays when an item comes behind holds of all items. -/
theorem Linked.left {α : Type} {link : Token → List Token → α → Prop} {w : List Token}
    {list : List α} {P : List Token → Prop} (h : Linked link w list)
    (one : ∀ {t v a}, link t v a → P (t :: v))
    (more : ∀ {w t v a}, P w → link t v a → P (w ++ t :: v)) : w = [] ∨ P w := by
  have extend : ∀ {w list}, Linked link w list → ∀ v, P v → P (v ++ w) := by
    intro w list h
    induction h with
    | nil =>
      intro v hv
      simpa using hv
    | cons h _ ih =>
      intro v hv
      simpa using ih _ (more hv h)
  cases h with
  | nil => exact .inl rfl
  | cons h hl => exact .inr (extend hl _ (one h))

namespace Grammar

/-! ## Reading symbols -/

/-- In front of a token of type `next`, the productions read the tokens as the symbols and make these
parts of them. -/
def Made (next : TokenType) (symbols : List Symbol) (w : List Token) (parts : List Part) : Prop :=
  ∃ attributes, Builds next symbols w attributes ∧ attributes.mapM (·.part) = Except.ok parts

section

variable {next : TokenType} {symbols : List Symbol} {v w : List Token} {parts : List Part} {p : Part}

theorem Made.nil : Made next [] [] [] :=
  ⟨[], .nil, rfl⟩

theorem Made.token {t : Token} {type : TokenType} (ht : t.type = type)
    (h : Made next symbols w parts) :
    Made next (.terminal type :: symbols) (t :: w) (.token t :: parts) := by
  obtain ⟨attributes, hb, hm⟩ := h
  subst ht
  exact ⟨_, .token hb, mapM_part_cons.2 ⟨_, _, rfl, hm, rfl⟩⟩

/-- A token with nothing behind it, whatever comes next. -/
theorem Made.last (next : TokenType) {t : Token} {type : TokenType} (ht : t.type = type) :
    Made next [.terminal type] [t] [.token t] :=
  .token ht .nil

theorem Made.single {x : Nonterminal} (h : Made next [.nonterminal x] w [p]) :
    ∃ a, Builds next [.nonterminal x] w [a] ∧ a.part = .ok p := by
  obtain ⟨_, hb, hm⟩ := h
  cases hb with
  | rule hr hi hd hnil =>
    cases hnil
    obtain ⟨_, _, hp, -, ⟨⟩⟩ := mapM_part_cons.1 hm
    exact ⟨_, .rule hr hi hd .nil, hp⟩

/-- Symbols with one more in front. -/
theorem Made.before {x : Symbol} (h : Made next symbols w parts) (hv : Made (headType w next) [x] v [p]) :
    Made next (x :: symbols) (v ++ w) (p :: parts) := by
  obtain ⟨_, hv, hp⟩ := hv
  obtain ⟨attributes, hb, hm⟩ := h
  cases hv with
  | token hnil =>
    cases hnil
    obtain ⟨_, _, hp, -, ⟨⟩⟩ := mapM_part_cons.1 hp
    exact ⟨_, .token hb, mapM_part_cons.2 ⟨_, _, hp, hm, rfl⟩⟩
  | rule hr hi hd hnil =>
    cases hnil
    obtain ⟨_, _, hp, -, ⟨⟩⟩ := mapM_part_cons.1 hp
    rw [List.append_nil]
    exact ⟨_, .rule hr hi hd hb, mapM_part_cons.2 ⟨_, _, hp, hm, rfl⟩⟩

/-- What a production makes of the parts of its right side, unless it gives way to a token of type `next`. -/
def produce (next : TokenType) (r : Rule) (parts : List Part) (span : Span) :
    Option (Except SyntaxError Part) :=
  if r ∈ rules ∧ (r.form = .ifThen → next ≠ .keyword .kwElse) then
    some ((assemble r.form span parts).getD (.ok (.stmts [])))
  else none

theorem produce_eq {r : Rule} {span : Span} : produce next r parts span = some (.ok p) ↔
    (r ∈ rules ∧ (r.form = .ifThen → next ≠ .keyword .kwElse)) ∧
      (assemble r.form span parts).getD (.ok (.stmts [])) = .ok p := by
  rw [produce, Option.ite_none_right_eq_some, Option.some.injEq]

/-- Rules but that of an `if` without `else` are for any token behind them. -/
theorem produce_of_mem {r : Rule} {span : Span} (hr : r ∈ rules) (hform : r.form ≠ .ifThen)
    (h : (assemble r.form span parts).getD (.ok (.stmts [])) = .ok p) :
    produce next r parts span = some (.ok p) :=
  produce_eq.2 ⟨⟨hr, fun heq => absurd heq hform⟩, h⟩

/-- A production reads what its right side reads. -/
theorem Made.rule (x : Nonterminal) (form : Form) {part : Span → Part} (h : Made next symbols w parts)
    (hp : ∀ span, produce next ⟨x, symbols, form⟩ parts span = some (.ok (part span))) :
    ∃ span, Made next [.nonterminal x] w [part span] := by
  obtain ⟨attributes, hb, hm⟩ := h
  obtain ⟨⟨hr, hd⟩, hmade⟩ := produce_eq.1 (hp (coveredSpan attributes))
  have hbuild := Builds.rule (w := []) hr hb hd .nil
  rw [List.append_nil] at hbuild
  exact ⟨_, _, hbuild, mapM_part_cons.2 ⟨_, [], Form.apply_part.2 ⟨parts, hm, hmade⟩, rfl, rfl⟩⟩

/-- What it makes is a part of a kind. -/
theorem Made.makes {α : Type} {kind : α → Part} {f : Span → α} (x : Nonterminal) (form : Form)
    (h : Made next symbols w parts)
    (hp : ∀ span, produce next ⟨x, symbols, form⟩ parts span = some (.ok (kind (f span)))) :
    ∃ a, Made next [.nonterminal x] w [kind a] := by
  obtain ⟨span, h⟩ := h.rule x form hp
  exact ⟨f span, h⟩

end

/-! ## What phrases need -/

/-- The tokens are read as an expression, and as a name if the expression is one. -/
def ReadsExpr (x : Nonterminal) (w : List Token) (e : Expr) : Prop :=
  ∀ next, ∃ e', Made next [.nonterminal x] w [.expr e'] ∧
    ∀ id, e = .ident id → ∃ id', e' = .ident id'

def ReadsName (w : List Token) (_ : Ident) : Prop :=
  ∃ t : Token, t.type = .identifier ∧ w = [t]

def ReadsDeclaration (w : List Token) (_ : Declaration) : Prop :=
  ∀ next, ∃ d, Made next [.nonterminal .variableDeclaration] w [.declaration d]

def ReadsStatement (next : TokenType) (w : List Token) : Prop :=
  ∃ s, Made next [.nonterminal .statement] w [.stmt s]

def ReadsStatements (next : TokenType) (w : List Token) : Prop :=
  ∃ list, Made next [.nonterminal .statements] w [.stmts list]

/-- One item, and items behind commas. -/
def ReadsCommas {α : Type} (item : List Token → α → Prop) (w : List Token) : Prop :=
  ∃ v u a rest, w = v ++ u ∧ item v a ∧ Linked (behindComma item) u rest

/-- One operand, and operands behind operators; a name has no operators. -/
def ReadsOperands (level : Level) (w : List Token) (e : Expr) : Prop :=
  ∃ v u first rest, w = v ++ u ∧ ReadsExpr (operandOf level) v first ∧
    Linked (fun t v e => t.type = level.type ∧ ReadsExpr (operandOf level) v e) u rest ∧
    ∀ id, e = .ident id → u = [] ∧ first = e

/-- The tokens of a phrase are read by the productions. A statement is read if it has its
terminator. -/
def Readable (w : List Token) : Phrase → Prop
  | .ident id => ReadsName w id
  | .idents _ => ReadsCommas ReadsName w
  | .parameters _ => w = [] ∨ ReadsCommas ReadsName w
  | .expr .assignment e => ReadsExpr .assignment w e
  | .expr (.binary level) e => ReadsOperands level w e
  | .expr .unary e => ReadsExpr .unary w e
  | .expr .call e => ReadsExpr .call w e
  | .expr .primary e => ReadsExpr .primary w e
  | .exprs _ => ReadsCommas (ReadsExpr .assignment) w
  | .arguments _ => w = [] ∨ ReadsCommas (ReadsExpr .assignment) w
  | .condition e => ∃ (a b : Token) (v : List Token), a.type = .parenStart ∧ b.type = .parenEnd ∧
    w = a :: (v ++ [b]) ∧ ReadsExpr .expression v e
  | .optional none => w = []
  | .optional (some e) => ReadsExpr .expression w e
  | .declaration d => ReadsDeclaration w d
  | .declarations _ => ReadsCommas ReadsDeclaration w
  | .variables .. => ∀ next, ∃ list span,
    Made next [.nonterminal .variableDeclarations] w [.variables list span]
  | .forInit none => w = []
  | .forInit (some _) => ∀ next, ∃ i, Made next [.nonterminal .forInit] w [.init i]
  | .terminator next => next ≠ .endOfInput → ∃ t : Token, t.type = .semi ∧ w = [t]
  | .block .. => ∀ next, ∃ body span, Made next [.nonterminal .block] w [.stmt (.block body span)]
  | .stmt next _ => next ≠ .endOfInput → ∀ next',
    (next' = .keyword .kwElse → next = .keyword .kwElse) → ReadsStatement next' w
  | .stmts next _ => next ≠ .endOfInput → ∀ next', next' ≠ .keyword .kwElse →
    (w = [] ∨ ReadsStatements next' w) ∧
    ∀ v, ReadsStatements (headType w next') v → ReadsStatements next' (v ++ w)

/-! ## Expressions -/

section

variable {v w : List Token} {e : Expr} {level : Level}

theorem mem_rules_of_layer (level : Level) {r : Rule} (hr : r ∈ layerRules level) : r ∈ rules := by
  have hlevel : level ∈ Level.all := by cases level <;> decide
  simp only [rules, expressionRules, List.mem_append, List.mem_flatMap]
  exact .inr (.inl (.inr ⟨level, hlevel, hr⟩))

/-- An expression of a tighter layer is one of the next layer. -/
theorem ReadsExpr.same {x y : Nonterminal} (h : ReadsExpr x w e)
    (hr : (⟨y, [.nonterminal x], .same⟩ : Rule) ∈ rules) : ReadsExpr y w e := by
  intro next
  obtain ⟨e', hmade, hid⟩ := h next
  obtain ⟨-, h⟩ := hmade.rule y .same fun _ => produce_of_mem hr (by rintro ⟨⟩) rfl
  exact ⟨e', h, hid⟩

theorem ReadsExpr.made {x : Nonterminal} (h : ReadsExpr x w e) (next : TokenType) :
    ∃ e', Made next [.nonterminal x] w [.expr e'] := by
  obtain ⟨e', h, -⟩ := h next
  exact ⟨e', h⟩

theorem ReadsExpr.of_made {x : Nonterminal} (h : ∀ next, ∃ e', Made next [.nonterminal x] w [.expr e'])
    (he : ∀ id, e ≠ .ident id) : ReadsExpr x w e := by
  intro next
  obtain ⟨e', h⟩ := h next
  exact ⟨e', h, fun id heq => absurd heq (he id)⟩

/-- The productions of a nonterminal repeat a symbol behind tokens of a type, and make parts of a kind of the
parts that it stands for. -/
structure Repeats {α β : Type} (type : TokenType) (s : Symbol) (one : α → Part) (many : β → Part)
    (x : Nonterminal) (form : Form) : Prop where
  first (next : TokenType) (t : Token) (a : α) (span : Span) : ∃ b,
    produce next ⟨x, [.terminal type, s], form⟩ [.token t, one a] span = some (.ok (many b))
  more (next : TokenType) (b : β) (t : Token) (a : α) (span : Span) : ∃ b',
    produce next ⟨x, [.nonterminal x, .terminal type, s], form⟩ [many b, .token t, one a] span =
      some (.ok (many b'))

section

variable {α β γ : Type} {item : List Token → γ → Prop} {type : TokenType} {s : Symbol} {one : α → Part}
  {many : β → Part} {x : Nonterminal} {form : Form}

/-- A repetition is read from the left. -/
theorem Repeats.made (hrep : Repeats type s one many x form) {list : List γ}
    (hitem : ∀ {v c}, item v c → ∀ next, ∃ a, Made next [s] v [one a])
    (h : Linked (fun t v c => t.type = type ∧ item v c) w list) :
    w = [] ∨ ∀ next, ∃ b, Made next [.nonterminal x] w [many b] := by
  refine h.left (P := fun w => ∀ next, ∃ b, Made next [.nonterminal x] w [many b]) ?_ ?_
  · intro t v c h next
    obtain ⟨a, ha⟩ := hitem h.2 next
    choose f hf using hrep.first next t a
    exact (Made.token h.1 ha).makes x form hf
  · intro w t v c hw h next
    obtain ⟨b, hb⟩ := hw t.type
    obtain ⟨a, ha⟩ := hitem h.2 next
    choose f hf using hrep.more next b t a
    exact ((Made.token h.1 ha).before hb).makes x form hf

/-- Items with commas between them are one item, or one with more of them behind it. -/
theorem ReadsCommas.made (h : ReadsCommas item w) (hrep : Repeats .comma s one many x form)
    (hitem : ∀ {v c}, item v c → ∀ next, ∃ a, Made next [s] v [one a]) (next : TokenType) :
    (∃ a, Made next [s] w [one a]) ∨ ∃ a b, Made next [s, .nonterminal x] w [one a, many b] := by
  obtain ⟨v, u, c, rest, rfl, hc, hlinked⟩ := h
  rcases hrep.made hitem hlinked with rfl | hu
  · rw [List.append_nil]
    exact .inl (hitem hc next)
  · obtain ⟨b, hb⟩ := hu next
    obtain ⟨a, ha⟩ := hitem hc (headType u next)
    exact .inr ⟨a, b, hb.before ha⟩

end

theorem operands_repeat (level : Level) : Repeats level.type (.nonterminal (operandOf level)) .expr
    .operands (.moreOperands level) .operands := by
  cases level <;> exact ⟨fun _ _ _ _ => ⟨_, rfl⟩, fun _ _ _ _ _ => ⟨_, rfl⟩⟩

theorem ReadsOperands.expr (h : ReadsOperands level w e) : ReadsExpr (.layer level) w e := by
  obtain ⟨v, u, first, rest, rfl, hfirst, hlinked, hid⟩ := h
  intro next
  by_cases hu : u = []
  · obtain ⟨e', he, hid'⟩ := hfirst next
    obtain ⟨-, h⟩ := he.rule (.layer level) .same
      fun _ => produce_of_mem (mem_rules_of_layer level (by simp [layerRules])) (by rintro ⟨⟩) rfl
    rw [hu, List.append_nil]
    exact ⟨e', h, fun id h => hid' id ((hid id h).2.trans h)⟩
  · obtain ⟨list, hlist⟩ := ((operands_repeat level).made ReadsExpr.made hlinked).resolve_left hu next
    obtain ⟨e', he⟩ := hfirst.made (headType u next)
    obtain ⟨-, h⟩ := (hlist.before he).rule (.layer level) (.chain level)
      fun _ => produce_of_mem (mem_rules_of_layer level (by simp [layerRules])) (by rintro ⟨⟩) rfl
    exact ⟨_, h, fun id h => absurd (hid id h).1 hu⟩

theorem readable_operand (h : Readable w (.expr (.operand level) e)) :
    ReadsExpr (operandOf level) w e := by
  cases level with
  | multiplicative => exact h
  | or | and | equality | relational | additive => exact ReadsOperands.expr h

/-- A left operand takes one more operator. -/
theorem ReadsOperands.snoc {t : Token} {right node : Expr} (h : ReadsOperands level w e)
    (ht : t.type = level.type) (hr : ReadsExpr (operandOf level) v right)
    (hnode : ∀ id, node ≠ .ident id) : ReadsOperands level (w ++ t :: v) node := by
  obtain ⟨x, u, first, rest, rfl, hfirst, hlinked, -⟩ := h
  exact ⟨x, u ++ t :: v, first, _, by simp, hfirst, hlinked.snoc ⟨ht, hr⟩,
    fun id h => absurd h (hnode id)⟩

theorem ReadsCommas.one {α : Type} {item : List Token → α → Prop} {a : α} (ha : item w a) :
    ReadsCommas item w :=
  ⟨w, [], a, [], (List.append_nil w).symm, ha, .nil⟩

theorem ReadsCommas.cons {α : Type} {item : List Token → α → Prop} {t : Token} {a : α}
    (h : ReadsCommas item v) (ha : item w a) (ht : t.type = .comma) :
    ReadsCommas item (w ++ t :: v) := by
  obtain ⟨x, u, b, rest, rfl, hb, hlinked⟩ := h
  exact ⟨w, t :: (x ++ u), a, _, rfl, ha, .cons ⟨ht, hb⟩ hlinked⟩

theorem reads_arguments (h : ReadsCommas (ReadsExpr .assignment) w) (next : TokenType) :
    ∃ list, Made next [.nonterminal .arguments] w [.exprs list] := by
  have hrep : Repeats .comma (.nonterminal .assignment) .expr .exprs .moreArguments .arguments :=
    ⟨fun _ _ _ _ => ⟨_, rfl⟩, fun _ _ _ _ _ => ⟨_, rfl⟩⟩
  rcases h.made hrep ReadsExpr.made next with ⟨e, h⟩ | ⟨e, list, h⟩ <;>
    exact h.makes .arguments .arguments fun _ => rfl

theorem reads_parameters (h : ReadsCommas ReadsName w) (next : TokenType) :
    ∃ list, Made next [.nonterminal .parameters] w [.idents list] := by
  have hrep : Repeats .comma (.terminal .identifier) .token .idents .moreParameters .parameters :=
    ⟨fun _ _ _ _ => ⟨_, rfl⟩, fun _ _ _ _ _ => ⟨_, rfl⟩⟩
  have hname : ∀ {v id}, ReadsName v id → ∀ next, ∃ t, Made next [.terminal .identifier] v [.token t] := by
    rintro _ _ ⟨t, ht, rfl⟩ next
    exact ⟨t, .last next ht⟩
  rcases h.made hrep hname next with ⟨t, h⟩ | ⟨t, list, h⟩ <;>
    exact h.makes .parameters .parameters fun _ => rfl

theorem reads_variables {t : Token} (ht : t.type = .keyword .kwLet)
    (h : ReadsCommas ReadsDeclaration w) (next : TokenType) :
    ∃ list span, Made next [.nonterminal .variableDeclarations] (t :: w) [.variables list span] := by
  have hrep : Repeats .comma (.nonterminal .variableDeclaration) .declaration .declarations
      .moreDeclarations .declarations :=
    ⟨fun _ _ _ _ => ⟨_, rfl⟩, fun _ _ _ _ _ => ⟨_, rfl⟩⟩
  rcases h.made hrep id next with ⟨d, h⟩ | ⟨d, list, h⟩ <;>
  · obtain ⟨span, h⟩ := (Made.token ht h).rule .variableDeclarations .variables fun _ => rfl
    exact ⟨_, span, h⟩

theorem ReadsExpr.expression (h : ReadsExpr .assignment w e) : ReadsExpr .expression w e :=
  h.same (by decide)

theorem reads_word {t : Token} {k : Keyword} {value : Literal} {span : Span}
    (ht : t.type = .keyword k) (hk : k.literal? = some value) :
    ReadsExpr .primary [t] (.literal value span) := by
  refine .of_made (fun next => ?_) nofun
  cases k <;> cases hk
  · exact (Made.last next ht).makes .primary (.bool true) fun _ => rfl
  · exact (Made.last next ht).makes .primary (.bool false) fun _ => rfl
  · exact (Made.last next ht).makes .primary .null fun _ => rfl

theorem reads_paren (h : Readable w (.condition e)) : ReadsExpr .primary w e := by
  obtain ⟨a, b, v, ha, hb, rfl, he⟩ := h
  intro next
  obtain ⟨e', he, hid⟩ := he b.type
  obtain ⟨-, h⟩ := (Made.token ha ((Made.token hb .nil).before he)).rule .primary .paren fun _ => rfl
  exact ⟨e', h, hid⟩

theorem reads_call {t u : Token} {args : List Expr} {span : Span} (h : ReadsExpr .call w e)
    (ht : t.type = .parenStart) (ha : Readable v (.arguments args)) (hu : u.type = .parenEnd) :
    ReadsExpr .call (w ++ t :: (v ++ [u])) (.call e args span) := by
  refine .of_made (fun next => ?_) nofun
  obtain ⟨e', he⟩ := h.made t.type
  rcases ha with rfl | ha
  · exact ((Made.token ht (Made.last next hu)).before he).makes .call .call fun _ => rfl
  · obtain ⟨list, hlist⟩ := reads_arguments ha u.type
    exact ((Made.token ht ((Made.last next hu).before hlist)).before he).makes .call .call fun _ => rfl

theorem reads_unary {t : Token} {op : UnaryOp} {span : Span} (ht : t.type = op.tokenType)
    (h : ReadsExpr .unary w e) : ReadsExpr .unary (t :: w) (.unary op e span) := by
  refine .of_made (fun next => ?_) nofun
  obtain ⟨e', he⟩ := h.made next
  exact (Made.token ht he).makes .unary .unary
    fun _ => produce_of_mem (by cases op <;> decide) (by rintro ⟨⟩) rfl

theorem reads_assign {t : Token} {op : AssignOp} {target : Ident} {span : Span}
    (hl : ReadsOperands .or w (.ident target)) (ht : t.type = op.tokenType)
    (hr : ReadsExpr .assignment v e) :
    ReadsExpr .assignment (w ++ t :: v) (.assign op target e span) := by
  refine .of_made (fun next => ?_) nofun
  obtain ⟨_, hl, hid⟩ := hl.expr t.type
  obtain ⟨id, rfl⟩ := hid target rfl
  obtain ⟨e', he⟩ := hr.made next
  exact ((Made.token ht he).before hl).makes .assignment .assign
    fun _ => produce_of_mem (by cases op <;> decide) (by rintro ⟨⟩) rfl

/-! ## Statements -/

/-- A compound statement is a statement. -/
theorem reads_compound {x : Nonterminal} {next : TokenType}
    (h : ∃ s, Made next [.nonterminal x] w [.stmt s])
    (hr : (⟨.statement, [.nonterminal x], .same⟩ : Rule) ∈ rules) : ReadsStatement next w := by
  obtain ⟨s, h⟩ := h
  exact h.makes .statement .same fun _ => produce_of_mem hr (by rintro ⟨⟩) rfl

section

variable {next : TokenType} {symbols : List Symbol} {parts : List Part}

theorem Made.condition (h : Made next symbols v parts) (hc : Readable w (.condition e)) :
    ∃ a b e', Made next (.terminal .parenStart :: .nonterminal .expression :: .terminal .parenEnd ::
      symbols) (w ++ v) (.token a :: .expr e' :: .token b :: parts) := by
  obtain ⟨a, b, u, ha, hb, rfl, he⟩ := hc
  obtain ⟨e', he, -⟩ := he b.type
  refine ⟨a, b, e', ?_⟩
  simpa using Made.token ha ((Made.token hb h).before he)

theorem Made.clause {value : Option Expr} (h : Made next symbols v parts)
    (hw : Readable w (.optional value)) :
    ∃ e, Made next ((if Option.isSome e then [.nonterminal .expression] else []) ++ symbols) (w ++ v)
      ((e.map Part.expr).toList ++ parts) := by
  cases value with
  | none =>
    obtain rfl : w = [] := hw
    exact ⟨none, h⟩
  | some e =>
    obtain ⟨e', he, -⟩ := hw (headType v next)
    exact ⟨some e', h.before he⟩

theorem Made.initClause {init : Option ForInit} (h : Made next symbols v parts)
    (hw : Readable w (.forInit init)) :
    ∃ i, Made next ((if Option.isSome i then [.nonterminal .forInit] else []) ++ symbols) (w ++ v)
      ((i.map Part.init).toList ++ parts) := by
  cases init with
  | none =>
    obtain rfl : w = [] := hw
    exact ⟨none, h⟩
  | some init =>
    obtain ⟨i, hi⟩ := hw (headType v next)
    exact ⟨some i, h.before hi⟩

end

theorem forRule_mem (init test update : Bool) : forRule init test update ∈ rules := by
  simp only [rules, List.mem_append]
  cases init <;> cases test <;> cases update <;> simp [compoundRules]

section

variable {next : TokenType} {t u : Token} {x : List Token}

theorem reads_forLoop {a b c d : Token} {y : List Token} {init : Option ForInit}
    {test update : Option Expr} (ht : t.type = .keyword .kwFor) (ha : a.type = .parenStart)
    (hi : Readable w (.forInit init)) (hb : b.type = .semi) (htest : Readable v (.optional test))
    (hc : c.type = .semi) (hu : Readable x (.optional update)) (hd : d.type = .parenEnd)
    (hbody : ReadsStatement next y) :
    ReadsStatement next (t :: a :: (w ++ b :: (v ++ c :: (x ++ d :: y)))) := by
  obtain ⟨s, hs⟩ := hbody
  obtain ⟨e', h₁⟩ := (Made.token hd hs).clause hu
  obtain ⟨e, h₂⟩ := (Made.token hc h₁).clause htest
  obtain ⟨i, h₃⟩ := (Made.token hb h₂).initClause hi
  have hall := Made.token ht (Made.token ha h₃)
  rw [← forRule_right] at hall
  exact reads_compound (hall.makes .forStatement _ fun _ => produce_of_mem (forRule_mem _ _ _)
    (by rintro ⟨⟩) (assemble_for i e e' s t a b c d _)) (by decide)

theorem reads_function {a b : Token} {params : List Ident} {name : Ident}
    (ht : t.type = .keyword .kwDef) (hname : Readable w (.ident name)) (ha : a.type = .parenStart)
    (hp : Readable v (.parameters params)) (hb : b.type = .parenEnd) {body : List Stmt} {inner : Span}
    (hbody : Readable x (.block body inner)) :
    ReadsStatement next (t :: (w ++ a :: (v ++ b :: x))) := by
  obtain ⟨c, hc, rfl⟩ := hname
  obtain ⟨body', inner', h₁⟩ := hbody next
  rcases hp with rfl | hp
  · exact reads_compound ((Made.token ht (Made.token hc (Made.token ha (Made.token hb h₁)))).makes
      .functionDeclaration .function fun _ => rfl) (by decide)
  · obtain ⟨list, h₂⟩ := reads_parameters hp b.type
    exact reads_compound ((Made.token ht (Made.token hc (Made.token ha
      ((Made.token hb h₁).before h₂)))).makes .functionDeclaration .function fun _ => rfl) (by decide)

theorem reads_ret {value : Option Expr} (ht : t.type = .keyword .kwReturn)
    (hv : Readable w (.optional value)) (hu : u.type = .semi) :
    ReadsStatement next (t :: (w ++ [u])) := by
  obtain ⟨e, h⟩ := (Made.last next hu).clause hv
  cases e <;> exact (Made.token ht h).makes .statement .returnStatement fun _ => rfl

theorem reads_block {body : List Stmt} (ht : t.type = .curlyStart)
    (h : Readable w (.stmts .curlyEnd body)) (hu : u.type = .curlyEnd) :
    ∃ body span, Made next [.nonterminal .block] (t :: (w ++ [u])) [.stmt (.block body span)] := by
  rcases (h nofun u.type (by rw [hu]; nofun)).1 with rfl | ⟨list, hlist⟩
  · obtain ⟨span, h⟩ := (Made.token ht (Made.last next hu)).rule .block .block fun _ => rfl
    exact ⟨_, span, h⟩
  · obtain ⟨span, h⟩ := (Made.token ht ((Made.last next hu).before hlist)).rule .block .block fun _ => rfl
    exact ⟨_, span, h⟩

theorem ReadsStatement.statements (h : ReadsStatement next w) : ReadsStatements next w := by
  obtain ⟨s, hs⟩ := h
  exact hs.makes .statements .statements fun _ => rfl

theorem ReadsStatements.snoc (h : ReadsStatements (headType w next) v) (hs : ReadsStatement next w) :
    ReadsStatements next (v ++ w) := by
  obtain ⟨list, hlist⟩ := h
  obtain ⟨s, hs⟩ := hs
  exact (hs.before hlist).makes .statements .statements fun _ => rfl

end

/-! ## All phrases -/

/-- A statement starts neither with `else` nor at the end of the text. -/
theorem headType_stmt (h : Opens (exprStarters ++ stmtStarters) w) (next : TokenType) :
    headType w next ≠ .endOfInput ∧ headType w next ≠ .keyword .kwElse := by
  have hmem : headType w next ∉ [.endOfInput, .keyword .kwElse] :=
    h.headType_notMem (by decide) next
  simpa using hmem

theorem headType_ne_end {place : Placing} {next : TokenType} {list : List Stmt}
    (h : Derives place w (.stmts next list)) (hn : next ≠ .endOfInput) :
    headType w next ≠ .endOfInput := by
  cases h with
  | noStmts => exact hn
  | moreStmts h hl => exact (headType_stmt ((h.opens _ rfl).append _) next).1

theorem readable_of_derives {place : Placing} {phrase : Phrase} (h : Derives place w phrase) :
    Readable w phrase := by
  induction h with
  | ident ht => exact ⟨_, ht, rfl⟩
  | @oneIdent _ a _ ih | @oneExpr _ a _ ih | @oneDeclaration _ a _ ih =>
    exact ReadsCommas.one (a := a) ih
  | @moreIdents _ _ _ a _ _ ht _ ih ihl | @moreExprs _ _ _ a _ _ ht _ ih ihl
  | @moreDeclarations _ _ _ a _ _ ht _ ih ihl =>
    exact ReadsCommas.cons (a := a) ihl ih ht
  | noParameters | noArguments => exact .inl rfl
  | parameters _ ih | arguments _ ih => exact .inr ih
  | name _ ih =>
    obtain ⟨t, ht, rfl⟩ := ih
    intro next
    obtain ⟨-, h⟩ := (Made.token ht .nil).rule .primary .name fun _ => rfl
    exact ⟨_, h, fun _ _ => ⟨_, rfl⟩⟩
  | @number t n span ht hn =>
    refine ReadsExpr.of_made (fun next => ?_) nofun
    exact (Made.last next ht).makes .primary .number
      fun _ => produce_of_mem (by decide) (by rintro ⟨⟩) (by rw [assemble_number, hn])
  | string ht =>
    exact .of_made (fun next => (Made.last next ht).makes .primary .string fun _ => rfl) nofun
  | word ht hk => exact reads_word ht hk
  | paren _ ih => exact reads_paren ih
  | atom _ ih => exact ReadsExpr.same ih (by decide)
  | call _ ht _ hu _ ih iha => exact reads_call ih ht iha hu
  | ofCall _ ih => exact ReadsExpr.same ih (by decide)
  | unary ht _ _ _ ih => exact reads_unary ht ih
  | ofOperand _ ih =>
    exact ⟨_, [], _, [], (List.append_nil _).symm, readable_operand ih, .nil, fun _ _ => ⟨rfl, rfl⟩⟩
  | binary _ ht _ _ _ ihl ihr | logical _ ht _ _ _ ihl ihr =>
    exact ReadsOperands.snoc ihl ht (readable_operand ihr) nofun
  | ofOr _ ih => exact (ReadsOperands.expr ih).same (by decide)
  | assign _ ht _ _ _ ihl ihr => exact reads_assign ihl ht ihr
  | condition ht _ hu ih => exact ⟨_, _, _, ht, hu, rfl, ReadsExpr.expression ih⟩
  | absent | noInit => rfl
  | present _ ih => exact ReadsExpr.expression ih
  | bare _ _ ih =>
    obtain ⟨t, ht, rfl⟩ := ih
    intro next
    exact (Made.token ht .nil).makes .variableDeclaration .declaration fun _ => rfl
  | initialized _ ht _ _ ih ihe =>
    obtain ⟨a, ha, rfl⟩ := ih
    intro next
    obtain ⟨e, he, -⟩ := ihe next
    exact (Made.token ha (Made.token ht he)).makes .variableDeclaration .declaration fun _ => rfl
  | declared ht _ _ ih => exact reads_variables ht ih
  | initVariables _ ih =>
    intro next
    obtain ⟨list, span, hv⟩ := ih next
    exact hv.makes .forInit .initVariables fun _ => rfl
  | initExpr _ ih =>
    intro next
    obtain ⟨e, he, -⟩ := ReadsExpr.expression ih next
    exact he.makes .forInit .initExpr fun _ => rfl
  | semi ht => exact fun _ => ⟨_, ht, rfl⟩
  | atEnd => exact fun h => absurd rfl h
  | exprStmt _ _ _ ih ihe =>
    intro hn next' _
    obtain ⟨t, ht, rfl⟩ := ihe hn
    obtain ⟨e, he⟩ := (ReadsExpr.expression ih).made t.type
    exact ((Made.last next' ht).before he).makes .statement .exprStatement fun _ => rfl
  | variableStmt _ _ _ ih ihe =>
    intro hn next' _
    obtain ⟨t, ht, rfl⟩ := ihe hn
    obtain ⟨list, span, hv⟩ := ih t.type
    exact ((Made.last next' ht).before hv).makes .statement .variableStatement fun _ => rfl
  | blockStmt _ ih =>
    intro _ next' _
    obtain ⟨body, span, h⟩ := ih next'
    exact reads_compound ⟨_, h⟩ (by decide)
  | emptyStmt ht =>
    intro _ next' _
    exact reads_compound ((Made.last next' ht).makes .emptyStatement .emptyStatement fun _ => rfl) (by decide)
  | ifThen ht _ _ hn' _ ih ihb =>
    intro hn next' hnext
    obtain ⟨s, hs⟩ := ihb hn next' hnext
    obtain ⟨a, b, e, h⟩ := hs.condition ih
    exact reads_compound ((Made.token ht h).makes .ifStatement .ifThen
      fun _ => produce_eq.2 ⟨⟨by decide, fun _ h => hn' (hnext h)⟩, rfl⟩) (by decide)
  | ifElse ht _ _ hu _ _ ih ihb iho =>
    intro hn next' hnext
    obtain ⟨s, hs⟩ := ihb nofun _ (fun _ => rfl)
    obtain ⟨s', hs'⟩ := iho hn next' hnext
    obtain ⟨a, b, e, h⟩ := ((Made.token hu hs').before hs).condition ih
    exact reads_compound ((Made.token ht h).makes .ifStatement .ifElse fun _ => rfl) (by decide)
  | whileLoop ht _ _ _ ih ihb =>
    intro hn next' hnext
    obtain ⟨s, hs⟩ := ihb hn next' hnext
    obtain ⟨a, b, e, h⟩ := hs.condition ih
    exact reads_compound ((Made.token ht h).makes .whileStatement .whileLoop fun _ => rfl) (by decide)
  | doLoop ht _ hu _ _ _ ihb ih ihe =>
    intro hn next' _
    obtain ⟨c, hc, rfl⟩ := ihe hn
    obtain ⟨s, hs⟩ := ihb nofun (.keyword .kwWhile) nofun
    rw [← hu] at hs
    obtain ⟨a, b, e, h⟩ := (Made.last next' hc).condition ih
    exact reads_compound ((Made.token ht ((Made.token hu h).before hs)).makes .doWhileStatement .doLoop
      fun _ => rfl)
      (by decide)
  | forLoop ht ha _ hb _ hc _ hd _ _ ihi ih ihu ihx =>
    intro hn next' hnext
    exact reads_forLoop ht ha ihi hb ih hc ihu hd (ihx hn next' hnext)
  | function ht _ ha _ hb _ _ ih ihp ihx =>
    intro _ next' _
    exact reads_function ht ih ha ihp hb ihx
  | ret ht _ _ _ ih ihe =>
    intro hn next' _
    obtain ⟨u, hu, rfl⟩ := ihe hn
    exact reads_ret ht ih hu
  | block ht _ hu _ ih =>
    intro next
    exact reads_block ht ih hu
  | noStmts =>
    intro _ next' _
    exact ⟨.inl rfl, fun v hv => by simpa [headType] using hv⟩
  | @moreStmts w v next s list _ hl ih ihl =>
    intro hn next' hnext
    obtain ⟨-, hmore⟩ := ihl hn next' hnext
    -- The statement is read in front of what it is derived in front of, the end of the text apart.
    have hs : ReadsStatement (headType v next') w := by
      refine ih (headType_ne_end hl hn) _ fun h => ?_
      cases v with
      | nil => exact absurd h hnext
      | cons t v => exact h
    exact ⟨.inr (hmore w hs.statements), fun u hu => by
      rw [← List.append_assoc]
      exact hmore _ (ReadsStatements.snoc (by simpa [Parser.headType_append] using hu) hs)⟩

/-! ## Whole texts -/

/-- A plain statement at the end of the text is read with or without its terminator. -/
theorem reads_final {place : Placing} {s : Stmt} (h : Derives place w (.stmt .endOfInput s))
    (hs : s.isPlain = true) :
    ReadsStatement .endOfInput w ∨
      ∃ s', Made .endOfInput [.nonterminal .finalStatement] w [.stmt s'] := by
  cases h with
  | exprStmt h he =>
    cases he with
    | semi ht =>
      obtain ⟨e, he⟩ := (ReadsExpr.expression (readable_of_derives h)).made _
      exact .inl (((Made.last _ ht).before he).makes .statement .exprStatement fun _ => rfl)
    | atEnd =>
      obtain ⟨e, he⟩ := (ReadsExpr.expression (readable_of_derives h)).made .endOfInput
      rw [List.append_nil]
      exact .inr (he.makes .finalStatement .exprStatement fun _ => rfl)
  | variableStmt h he =>
    cases he with
    | semi ht =>
      obtain ⟨list, span, hv⟩ := readable_of_derives h _
      exact .inl (((Made.last _ ht).before hv).makes .statement .variableStatement fun _ => rfl)
    | atEnd =>
      obtain ⟨list, span, hv⟩ := readable_of_derives h .endOfInput
      rw [List.append_nil]
      exact .inr (hv.makes .finalStatement .variableStatement fun _ => rfl)
  | @ret w v t next value span ht h he =>
    cases he with
    | semi hu => exact .inl (reads_ret ht (readable_of_derives h) hu)
    | atEnd =>
      obtain ⟨e, h⟩ := Made.nil.clause (readable_of_derives h)
      cases e <;> exact .inr ((Made.token ht h).makes .finalStatement .returnStatement
        fun _ => rfl)
  | blockStmt | emptyStmt | ifThen | ifElse | whileLoop | doLoop | forLoop | function => cases hs

theorem ReadsStatements.program (h : ReadsStatements .endOfInput w) :
    ∃ list, Made .endOfInput [.nonterminal .start] w [.stmts list] := by
  obtain ⟨list, hlist⟩ := h
  exact hlist.makes .start .program fun _ => rfl

/-- The productions read the tokens of a whole program. -/
theorem made_of_derivesWhole {list : List Stmt} (h : DerivesWhole .free w list) :
    ∃ list, Made .endOfInput [.nonterminal .start] w [.stmts list] := by
  rcases h with h | ⟨v, u, first, last, rfl, rfl, hfirst, hlast, hplain⟩
  · obtain ⟨rfl | h, -⟩ := readable_of_derives (h .curlyEnd nofun) nofun .endOfInput nofun
    · exact Made.nil.makes .start .program fun _ => rfl
    · exact h.program
  · obtain ⟨hend, helse⟩ := headType_stmt (hlast.opens _ rfl) .endOfInput
    obtain ⟨hv, -⟩ := readable_of_derives hfirst hend _ helse
    rcases reads_final hlast hplain with hs | ⟨s, hs⟩
    · rcases hv with rfl | hv
      · exact hs.statements.program
      · exact (hv.snoc hs).program
    · rcases hv with rfl | ⟨list, hlist⟩
      · exact hs.makes .start .program fun _ => rfl
      · exact (hs.before hlist).makes .start .program fun _ => rfl

end

end Grammar

end Scriptlet
