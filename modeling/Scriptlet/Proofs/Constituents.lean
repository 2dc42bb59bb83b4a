import Scriptlet.Proofs.ParserComplete
import Scriptlet.Proofs.Terminators

/-!
The statements and expressions of a program, and the tokens that they derive from. Each of them derives by
itself from some tokens that stand together, and does so in no more room than a statement has that stands
alone (`Fits.statements`, `Fits.expressions`).

An expression that stands in parentheses derives from the tokens between them, so it ends with the last of
its tokens.
-/

namespace Scriptlet

/-! ## The nodes of a program -/

mutual

/-- An expression and all expressions inside it. -/
def Expr.exprs : Expr → List Expr
  | .literal value span => [.literal value span]
  | .ident id => [.ident id]
  | .unary op operand span => .unary op operand span :: operand.exprs
  | .binary op left right span => .binary op left right span :: (left.exprs ++ right.exprs)
  | .logical op left right span => .logical op left right span :: (left.exprs ++ right.exprs)
  | .assign op target value span => .assign op target value span :: .ident target :: value.exprs
  | .call callee args span => .call callee args span :: (callee.exprs ++ Expr.exprsAll args)

def Expr.exprsAll : List Expr → List Expr
  | [] => []
  | e :: rest => e.exprs ++ Expr.exprsAll rest

end

def Declaration.exprs (d : Declaration) : List Expr :=
  .ident d.id :: d.init.toList.flatMap Expr.exprs

def ForInit.exprs : ForInit → List Expr
  | .variables list _ => list.flatMap Declaration.exprs
  | .expr e => e.exprs

/-- The declarations in front of a loop are a statement. -/
def ForInit.stmts : ForInit → List Stmt
  | .variables list span => [.variables list span]
  | .expr _ => []

mutual

/-- All expressions inside a statement. -/
def Stmt.exprs : Stmt → List Expr
  | .expr e _ => e.exprs
  | .variables list _ => list.flatMap Declaration.exprs
  | .block body _ => Stmt.exprsAll body
  | .empty _ => []
  | .ifThen test body _ => test.exprs ++ body.exprs
  | .ifElse test body other _ => test.exprs ++ (body.exprs ++ other.exprs)
  | .whileLoop test body _ => test.exprs ++ body.exprs
  | .doLoop body test _ => body.exprs ++ test.exprs
  | .forLoop init test update body _ =>
    init.toList.flatMap ForInit.exprs ++ (test.toList.flatMap Expr.exprs ++
      (update.toList.flatMap Expr.exprs ++ body.exprs))
  | .function name params body _ _ =>
    .ident name :: (params.map .ident ++ Stmt.exprsAll body)
  | .ret value _ => value.toList.flatMap Expr.exprs

def Stmt.exprsAll : List Stmt → List Expr
  | [] => []
  | s :: rest => s.exprs ++ Stmt.exprsAll rest

end

mutual

/-- A statement and all statements inside it. The body of a function is a block. -/
def Stmt.stmts : Stmt → List Stmt
  | .expr e span => [.expr e span]
  | .variables list span => [.variables list span]
  | .block body span => .block body span :: Stmt.stmtsAll body
  | .empty span => [.empty span]
  | .ifThen test body span => .ifThen test body span :: body.stmts
  | .ifElse test body other span => .ifElse test body other span :: (body.stmts ++ other.stmts)
  | .whileLoop test body span => .whileLoop test body span :: body.stmts
  | .doLoop body test span => .doLoop body test span :: body.stmts
  | .forLoop init test update body span =>
    .forLoop init test update body span :: (init.toList.flatMap ForInit.stmts ++ body.stmts)
  | .function name params body bodySpan span =>
    .function name params body bodySpan span :: .block body bodySpan :: Stmt.stmtsAll body
  | .ret value span => [.ret value span]

def Stmt.stmtsAll : List Stmt → List Stmt
  | [] => []
  | s :: rest => s.stmts ++ Stmt.stmtsAll rest

end

def Program.stmts (p : Program) : List Stmt :=
  Stmt.stmtsAll p.body

def Program.exprs (p : Program) : List Expr :=
  Stmt.exprsAll p.body

/-! ## Parts of phrases -/

section
variable {α : Type} {good good' : List Token → α → Prop} {w v : List Token} {t : Token}
  {a : α} {list list' : List α}

/-- Each of the list is what some tokens are good for that stand together. -/
def Throughout (good : List Token → α → Prop) (w : List Token) (list : List α) : Prop :=
  ∀ a ∈ list, ∃ u, u <:+: w ∧ good u a

theorem Throughout.nil : Throughout good w [] :=
  fun _ ha => absurd ha List.not_mem_nil

theorem Throughout.self (h : good w a) : Throughout good w [a] := by
  intro a ha
  rw [List.mem_singleton.1 ha]
  exact ⟨w, List.infix_rfl, h⟩

theorem Throughout.append (h : Throughout good w list) (h' : Throughout good w list') :
    Throughout good w (list ++ list') :=
  List.forall_mem_append.2 ⟨h, h'⟩

/-- All tokens are good for something, and some of them for the rest. -/
theorem Throughout.cons (h : good w a) (hlist : Throughout good w list) : Throughout good w (a :: list) :=
  (Throughout.self h).append hlist

theorem Throughout.within (h : Throughout good v list) (hv : v <:+: w) : Throughout good w list := by
  intro a ha
  obtain ⟨u, hu, hgood⟩ := h a ha
  exact ⟨u, hu.trans hv, hgood⟩

theorem Throughout.left (h : Throughout good w list) : Throughout good (w ++ v) list :=
  h.within (List.prefix_append w v).isInfix

theorem Throughout.right (h : Throughout good v list) : Throughout good (w ++ v) list :=
  h.within (List.suffix_append w v).isInfix

theorem Throughout.tail (h : Throughout good w list) : Throughout good (t :: w) list :=
  h.right (w := [t])

theorem Throughout.behind (h : Throughout good v list) : Throughout good (w ++ t :: v) list :=
  h.tail.right

end

/-- How much more room a statement needs than a part of it, to be made of the part alone. -/
@[simp] def Layer.height : Layer → Nat
  | .assignment => 1
  | .binary .or => 2
  | .binary .and => 3
  | .binary .equality => 4
  | .binary .relational => 5
  | .binary .additive => 6
  | .binary .multiplicative => 7
  | .unary => 8
  | .call | .primary => 10

@[simp] def Phrase.height : Phrase → Nat
  | .expr layer _ => layer.height
  | .stmt _ _ | .stmts _ _ => 0
  | _ => 1

theorem Layer.height_operand (level : Parser.Level) :
    (Layer.operand level).height = (Layer.binary level).height + 1 := by
  cases level <;> rfl

section
variable {room limit : Nat} {w v : List Token} {t : Token} {phrase : Phrase}

/-! ## Statements -/

/-- The statements of a phrase. -/
def Phrase.innerStmts : Phrase → List Stmt
  | .variables list span => [.variables list span]
  | .forInit init => init.toList.flatMap ForInit.stmts
  | .block body span => .block body span :: Stmt.stmtsAll body
  | .stmt _ s => s.stmts
  | .stmts _ list => Stmt.stmtsAll list
  | _ => []

/-- The tokens are a statement by themselves, within the limit. -/
def StmtFits (limit : Nat) (u : List Token) (s : Stmt) : Prop :=
  Fits .tight limit u (.stmt .endOfInput s)

theorem StmtFits.intro {next : TokenType} {s : Stmt} (h : Fits .tight room w (.stmt next s))
    (hroom : room ≤ limit) : StmtFits limit w s :=
  (h.before (by decide) (.inr rfl)).mono hroom

/-- The declarations in front of a loop are a statement that the end of the input ends. -/
theorem Fits.variables_stmt {list : List Declaration} {span : Span}
    (h : Fits .tight room w (.variables list span)) :
    Fits .tight (room + 1) w (.stmt .endOfInput (.variables list span)) := by
  have hspan : span = ⟨startOf w, endOf 0 w⟩ := by
    cases h.derives with
    | declared _ _ hs => exact hs
  exact (Fits.variableStmt h .atEnd (by rwa [List.append_nil])).of_eq (by simp)

theorem Fits.statements (h : Fits .tight room w phrase) :
    room + phrase.height ≤ limit → Throughout (StmtFits limit) w phrase.innerStmts := by
  have hself := h
  induction h with
  | declared => exact fun hroom => .self (hself.variables_stmt.mono hroom)
  | initVariables h ih => exact fun hroom => (ih h hroom).append .nil
  | exprStmt | variableStmt | emptyStmt | ret => exact fun hroom => .self (.intro hself hroom)
  | blockStmt h ih => exact ih h
  | ifThen _ _ hb _ _ _ ihb | whileLoop _ _ hb _ _ ihb =>
    intro hroom
    exact .cons (.intro hself hroom) (ihb hb (Nat.le_of_succ_le hroom)).right.tail
  | ifElse _ _ hb _ ho _ _ ihb iho =>
    intro hroom
    have hbody := ihb hb (Nat.le_of_succ_le hroom)
    have hother := iho ho (Nat.le_of_succ_le hroom)
    exact .cons (.intro hself hroom) (hbody.left.append hother.behind).right.tail
  | doLoop _ hb _ _ _ _ ihb =>
    intro hroom
    exact .cons (.intro hself hroom) (ihb hb (Nat.le_of_succ_le hroom)).left.tail
  | forLoop _ _ hi _ _ _ _ _ hx _ ihi _ _ ihx =>
    intro hroom
    have hbody := ihx hx (Nat.le_of_succ_le hroom)
    exact .cons (.intro hself hroom) ((ihi hi hroom).left.append hbody.behind.behind.behind).tail.tail
  | function _ _ _ _ _ hx _ _ _ ihx =>
    intro hroom
    exact .cons (.intro hself hroom) (ihx hx hroom).behind.behind.tail
  | block _ h _ _ ih =>
    intro hroom
    have hbody := ih h (Nat.le_of_succ_le (Nat.le_of_succ_le hroom))
    exact .cons (.intro (@Fits.blockStmt _ _ _ .endOfInput _ _ hself) hroom) hbody.left.tail
  | moreStmts h hl ih ihl => exact fun hroom => (ih h hroom).left.append (ihl hl hroom).right
  | _ => exact fun _ => .nil

/-! ## Expressions -/

/-- The expressions of a phrase. -/
def Phrase.innerExprs : Phrase → List Expr
  | .ident id => [.ident id]
  | .idents list | .parameters list => list.map .ident
  | .expr _ e | .condition e => e.exprs
  | .exprs list | .arguments list => Expr.exprsAll list
  | .optional value => value.toList.flatMap Expr.exprs
  | .declaration d => d.exprs
  | .declarations list | .variables list _ => list.flatMap Declaration.exprs
  | .forInit init => init.toList.flatMap ForInit.exprs
  | .terminator _ => []
  | .block body _ => Stmt.exprsAll body
  | .stmt _ s => s.exprs
  | .stmts _ list => Stmt.exprsAll list

/-- The tokens are an expression that ends with them, and can be made a statement within the limit. -/
structure ExprFits (limit : Nat) (u : List Token) (e : Expr) : Prop where
  fits : ∃ layer room, Fits .tight room u (.expr layer e) ∧ room + layer.height ≤ limit
  stop : e.span.stop = endOf 0 u

theorem ExprFits.intro {layer : Layer} {e : Expr} (h : Fits .tight room w (.expr layer e))
    (hroom : room + layer.height ≤ limit) (hstop : e.span.stop = endOf 0 w) : ExprFits limit w e :=
  ⟨⟨layer, room, h, hroom⟩, hstop⟩

theorem Fits.expressions (hlimit : 11 ≤ limit) (h : Fits .tight room w phrase) :
    room + phrase.height ≤ limit → Throughout (ExprFits limit) w phrase.innerExprs := by
  have hself := h
  induction h with
  | ident ht hs =>
    -- A name needs no more room than there is, wherever it stands.
    cases hs
    exact fun _ => .self (.intro (@Fits.name _ 0 _ _ (.ident ht rfl)) hlimit rfl)
  | name h ih | paren h ih => exact fun hroom => ih h (Nat.le_trans (by simp) hroom)
  | number _ _ hs | string _ hs | word _ _ hs =>
    cases hs
    exact fun hroom => .self (.intro hself hroom rfl)
  | call h _ ha _ hs ih iha =>
    intro hroom
    have hargs := iha ha (Nat.le_trans (by simp) hroom)
    cases hs
    exact .cons (.intro hself hroom rfl) ((ih h hroom).left.append hargs.left.behind)
  | unary _ _ h hs ih =>
    intro hroom
    have hpart := ih h (Nat.le_trans (by simp) hroom)
    cases hs
    exact .cons (.intro hself hroom rfl) hpart.tail
  | ofOperand h ih =>
    intro hroom
    refine ih h (Nat.le_trans (Nat.le_of_eq ?_) hroom)
    simp only [Phrase.height, Layer.height_operand, Nat.add_assoc, Nat.add_comm]
  | binary h _ _ h' hs ih ih' | logical h _ _ h' hs ih ih' =>
    intro hroom
    have hright := ih' h' (Nat.le_trans (by simp only [Phrase.height, Layer.height_operand]; omega) hroom)
    cases hs
    exact .cons (.intro hself hroom rfl) ((ih h hroom).left.append hright.behind)
  | assign h _ _ h' hs ih ih' =>
    intro hroom
    have hright := ih' h' (Nat.le_trans (by simp) hroom)
    cases hs
    exact .cons (.intro hself hroom rfl) ((ih h hroom).left.append hright.behind)
  | oneExpr h ih | present h ih | oneDeclaration h ih | initVariables h ih | initExpr h ih
  | bare h _ ih => exact fun hroom => (ih h hroom).append .nil
  | moreIdents h _ hl ih ihl | moreExprs h _ hl ih ihl | moreDeclarations h _ hl ih ihl =>
    exact fun hroom => (ih h hroom).left.append (ihl hl hroom).behind
  | parameters h ih | oneIdent h ih | atom h ih | ofCall h ih | ofOr h ih | arguments h ih => exact ih h
  | condition _ h _ ih => exact fun hroom => (ih h hroom).left.tail
  | initialized h _ he _ ih ihe =>
    intro hroom
    exact (ih h hroom).left.append ((ihe he hroom).append .nil).behind
  | declared _ h _ ih => exact fun hroom => (ih h hroom).tail
  | exprStmt h _ _ ih | variableStmt h _ _ ih => exact fun hroom => (ih h hroom).left
  | blockStmt h ih => exact ih h
  | ifThen _ h hb _ _ ih ihb | whileLoop _ h hb _ ih ihb =>
    intro hroom
    have hbody := ihb hb (Nat.le_of_succ_le hroom)
    exact ((ih h hroom).left.append hbody.right).tail
  | ifElse _ h hb _ ho _ ih ihb iho =>
    intro hroom
    have hbody := ihb hb (Nat.le_of_succ_le hroom)
    have hother := iho ho (Nat.le_of_succ_le hroom)
    exact ((ih h hroom).left.append (hbody.left.append hother.behind).right).tail
  | doLoop _ hb _ h _ _ ihb ih =>
    intro hroom
    have hbody := ihb hb (Nat.le_of_succ_le hroom)
    exact (hbody.left.append (ih h hroom).left.behind).tail
  | forLoop _ _ hi _ h _ hu _ hx _ ihi ih ihu ihx =>
    intro hroom
    have hbody := ihx hx (Nat.le_of_succ_le hroom)
    refine Throughout.tail (Throughout.tail ((ihi hi hroom).left.append (Throughout.behind ?_)))
    exact (ih h hroom).left.append ((ihu hu hroom).left.append hbody.behind).behind
  | function _ h _ hp _ hx _ ih ihp ihx =>
    intro hroom
    exact ((ih h hroom).left.append ((ihp hp hroom).left.append (ihx hx hroom).behind).behind).tail
  | ret _ h _ _ ih => exact fun hroom => (ih h hroom).left.tail
  | block _ h _ _ ih =>
    intro hroom
    exact (ih h (Nat.le_of_succ_le (Nat.le_of_succ_le hroom))).left.tail
  | moreStmts h hl ih ihl => exact fun hroom => (ih h hroom).left.append (ihl hl hroom).right
  | noParameters | noArguments | absent | noInit | semi | atEnd | emptyStmt | noStmts => exact fun _ => .nil

end

end Scriptlet
