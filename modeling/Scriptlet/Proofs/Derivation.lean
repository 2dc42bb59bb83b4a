import Scriptlet.Parser

/-!
The grammar of the language as a relation between tokens and syntax, without a parser in mind.
`Derives place w phrase` says that the tokens `w` can be read as `phrase`. Binary operators stand in
layers and associate to the left, assignment associates to the right and has a name on its left.

Two rules depend on the token behind a statement, so a statement is derived for a type `next` of
that token: a terminator is left out only in front of the end of the input, and an `if` without
`else` is never followed by `else`, which binds an `else` to the nearest `if`.

The relation leaves open where nodes are placed: `place` says which spans a node may have.
-/

namespace Scriptlet

open Scriptlet.Parser (Level)

/-! ## Operators -/

def UnaryOp.tokenType : UnaryOp → TokenType
  | .plus | .minus => .additive
  | .not => .logicalNot

/-- The layer that an operator belongs to. -/
def BinaryOp.level : BinaryOp → Level
  | .add | .sub => .additive
  | .mul | .div => .multiplicative
  | .less | .greater | .lessEqual | .greaterEqual => .relational
  | .equal | .notEqual => .equality

def LogicalOp.level : LogicalOp → Level
  | .and => .and
  | .or => .or

def AssignOp.tokenType : AssignOp → TokenType
  | .set => .simpleAssignment
  | .add | .sub | .mul | .div => .complexAssignment

/-- The literal that a keyword is. -/
def Keyword.literal? : Keyword → Option Literal
  | .kwTrue => some (.bool true)
  | .kwFalse => some (.bool false)
  | .kwNull => some .null
  | _ => none

/-! ## Phrases -/

/-- Layers of expressions, from the one that binds weakest to the one that binds tightest. -/
inductive Layer where
  | assignment
  | binary (level : Level)
  | unary
  | call
  | primary
deriving DecidableEq, Repr

/-- The layer of the operands of a binary operator. -/
def Layer.operand : Level → Layer
  | .or => .binary .and
  | .and => .binary .equality
  | .equality => .binary .relational
  | .relational => .binary .additive
  | .additive => .binary .multiplicative
  | .multiplicative => .unary

/-- The layers that bind tighter than a given one, the weakest first. -/
def tighter : Level → List Level
  | .or => [.and, .equality, .relational, .additive, .multiplicative]
  | .and => [.equality, .relational, .additive, .multiplicative]
  | .equality => [.relational, .additive, .multiplicative]
  | .relational => [.additive, .multiplicative]
  | .additive => [.multiplicative]
  | .multiplicative => []

/-- What tokens can be read as. -/
inductive Phrase where
  | ident (id : Ident)
  /-- One or more names with commas between them. -/
  | idents (list : List Ident)
  | parameters (list : List Ident)
  | expr (layer : Layer) (e : Expr)
  /-- One or more expressions with commas between them. -/
  | exprs (list : List Expr)
  | arguments (list : List Expr)
  /-- An expression in parentheses. -/
  | condition (e : Expr)
  | optional (e : Option Expr)
  | declaration (d : Declaration)
  /-- One or more declarations with commas between them. -/
  | declarations (list : List Declaration)
  /-- Declarations behind the word that opens them. -/
  | variables (list : List Declaration) (span : Span)
  | forInit (init : Option ForInit)
  | terminator (next : TokenType)
  | block (body : List Stmt) (span : Span)
  | stmt (next : TokenType) (s : Stmt)
  | stmts (next : TokenType) (list : List Stmt)

/-- Which spans a node may have, given where its first part starts and the tokens that it is made
of. -/
abbrev Placing := Nat → List Token → Span → Prop

/-- Anywhere. -/
def Placing.free : Placing := fun _ _ _ => True

/-- The end of the last token, or a given place if there are none. -/
def endOf : Nat → List Token → Nat
  | last, [] => last
  | _, t :: w => endOf t.stop w

/-- From the start of the first part to the end of the last token. -/
def Placing.tight : Placing := fun start w span => span = ⟨start, endOf 0 w⟩

/-- Where the first token starts. -/
def startOf : List Token → Nat
  | [] => 0
  | t :: _ => t.start

/-- From the start of the first token to the end of the last. -/
def covered (w : List Token) : Span :=
  ⟨startOf w, endOf 0 w⟩

/-- The type of the first token, or the given type if there is none. -/
def headType : List Token → TokenType → TokenType
  | [], next => next
  | t :: _, _ => t.type

/-- The tokens can be read as the phrase. -/
inductive Derives (place : Placing) : List Token → Phrase → Prop
  | ident {t span} (ht : t.type = .identifier) (hs : place t.start [t] span) :
      Derives place [t] (.ident ⟨t.text, span⟩)
  | oneIdent {w id} (h : Derives place w (.ident id)) : Derives place w (.idents [id])
  | moreIdents {w v t id list} (h : Derives place w (.ident id)) (ht : t.type = .comma)
      (hl : Derives place v (.idents list)) : Derives place (w ++ t :: v) (.idents (id :: list))
  | noParameters : Derives place [] (.parameters [])
  | parameters {w list} (h : Derives place w (.idents list)) : Derives place w (.parameters list)
  -- Expressions, the tightest layer first.
  | name {w id} (h : Derives place w (.ident id)) : Derives place w (.expr .primary (.ident id))
  | number {t n span} (ht : t.type = .number) (hn : Number.read t.text = .ok n)
      (hs : place t.start [t] span) : Derives place [t] (.expr .primary (.literal (.number n) span))
  | string {t span} (ht : t.type = .string) (hs : place t.start [t] span) :
      Derives place [t] (.expr .primary (.literal (.text (Parser.unquote t.text)) span))
  | word {t k value span} (ht : t.type = .keyword k) (hk : k.literal? = some value)
      (hs : place t.start [t] span) : Derives place [t] (.expr .primary (.literal value span))
  | paren {w e} (h : Derives place w (.condition e)) : Derives place w (.expr .primary e)
  | atom {w e} (h : Derives place w (.expr .primary e)) : Derives place w (.expr .call e)
  | call {w v t u callee args span} (h : Derives place w (.expr .call callee)) (ht : t.type = .parenStart)
      (ha : Derives place v (.arguments args)) (hu : u.type = .parenEnd)
      (hs : place callee.span.start (w ++ t :: (v ++ [u])) span) :
      Derives place (w ++ t :: (v ++ [u])) (.expr .call (.call callee args span))
  | ofCall {w e} (h : Derives place w (.expr .call e)) : Derives place w (.expr .unary e)
  | unary {w t op e span} (ht : t.type = op.tokenType) (hx : t.text = op.symbol)
      (h : Derives place w (.expr .unary e)) (hs : place t.start (t :: w) span) :
      Derives place (t :: w) (.expr .unary (.unary op e span))
  | ofOperand {w level e} (h : Derives place w (.expr (.operand level) e)) :
      Derives place w (.expr (.binary level) e)
  | binary {w v t op left right span} (hl : Derives place w (.expr (.binary op.level) left))
      (ht : t.type = op.level.type) (hx : t.text = op.symbol)
      (hr : Derives place v (.expr (.operand op.level) right))
      (hs : place left.span.start (w ++ t :: v) span) :
      Derives place (w ++ t :: v) (.expr (.binary op.level) (.binary op left right span))
  | logical {w v t op left right span} (hl : Derives place w (.expr (.binary op.level) left))
      (ht : t.type = op.level.type) (hx : t.text = op.symbol)
      (hr : Derives place v (.expr (.operand op.level) right))
      (hs : place left.span.start (w ++ t :: v) span) :
      Derives place (w ++ t :: v) (.expr (.binary op.level) (.logical op left right span))
  | ofOr {w e} (h : Derives place w (.expr (.binary .or) e)) : Derives place w (.expr .assignment e)
  | assign {w v t op target value span} (hl : Derives place w (.expr (.binary .or) (.ident target)))
      (ht : t.type = op.tokenType) (hx : t.text = op.symbol)
      (hr : Derives place v (.expr .assignment value)) (hs : place target.span.start (w ++ t :: v) span) :
      Derives place (w ++ t :: v) (.expr .assignment (.assign op target value span))
  | oneExpr {w e} (h : Derives place w (.expr .assignment e)) : Derives place w (.exprs [e])
  | moreExprs {w v t e list} (h : Derives place w (.expr .assignment e)) (ht : t.type = .comma)
      (hl : Derives place v (.exprs list)) : Derives place (w ++ t :: v) (.exprs (e :: list))
  | noArguments : Derives place [] (.arguments [])
  | arguments {w list} (h : Derives place w (.exprs list)) : Derives place w (.arguments list)
  | condition {w t u e} (ht : t.type = .parenStart) (h : Derives place w (.expr .assignment e))
      (hu : u.type = .parenEnd) : Derives place (t :: (w ++ [u])) (.condition e)
  | absent : Derives place [] (.optional none)
  | present {w e} (h : Derives place w (.expr .assignment e)) : Derives place w (.optional (some e))
  -- Declarations.
  | bare {w id span} (h : Derives place w (.ident id)) (hs : place id.span.start w span) :
      Derives place w (.declaration ⟨id, none, span⟩)
  | initialized {w v t id e span} (h : Derives place w (.ident id)) (ht : t.type = .simpleAssignment)
      (he : Derives place v (.expr .assignment e)) (hs : place id.span.start (w ++ t :: v) span) :
      Derives place (w ++ t :: v) (.declaration ⟨id, some e, span⟩)
  | oneDeclaration {w d} (h : Derives place w (.declaration d)) : Derives place w (.declarations [d])
  | moreDeclarations {w v t d list} (h : Derives place w (.declaration d)) (ht : t.type = .comma)
      (hl : Derives place v (.declarations list)) : Derives place (w ++ t :: v) (.declarations (d :: list))
  | declared {w t list span} (ht : t.type = .keyword .kwLet) (h : Derives place w (.declarations list))
      (hs : place t.start (t :: w) span) : Derives place (t :: w) (.variables list span)
  | noInit : Derives place [] (.forInit none)
  | initVariables {w list span} (h : Derives place w (.variables list span)) :
      Derives place w (.forInit (some (.variables list span)))
  | initExpr {w e} (h : Derives place w (.expr .assignment e)) : Derives place w (.forInit (some (.expr e)))
  -- Statements.
  | semi {t next} (ht : t.type = .semi) : Derives place [t] (.terminator next)
  | atEnd : Derives place [] (.terminator .endOfInput)
  | exprStmt {w v next e span} (h : Derives place w (.expr .assignment e))
      (he : Derives place v (.terminator next)) (hs : place (startOf w) (w ++ v) span) :
      Derives place (w ++ v) (.stmt next (.expr e span))
  | variableStmt {w v next list inner span} (h : Derives place w (.variables list inner))
      (he : Derives place v (.terminator next)) (hs : place (startOf w) (w ++ v) span) :
      Derives place (w ++ v) (.stmt next (.variables list span))
  | blockStmt {w next body span} (h : Derives place w (.block body span)) :
      Derives place w (.stmt next (.block body span))
  | emptyStmt {t next span} (ht : t.type = .semi) (hs : place t.start [t] span) :
      Derives place [t] (.stmt next (.empty span))
  | ifThen {w v t next test body span} (ht : t.type = .keyword .kwIf)
      (h : Derives place w (.condition test)) (hb : Derives place v (.stmt next body))
      (hn : next ≠ .keyword .kwElse) (hs : place t.start (t :: (w ++ v)) span) :
      Derives place (t :: (w ++ v)) (.stmt next (.ifThen test body span))
  | ifElse {w v v' t u next test body other span} (ht : t.type = .keyword .kwIf)
      (h : Derives place w (.condition test)) (hb : Derives place v (.stmt (.keyword .kwElse) body))
      (hu : u.type = .keyword .kwElse) (ho : Derives place v' (.stmt next other))
      (hs : place t.start (t :: (w ++ (v ++ u :: v'))) span) :
      Derives place (t :: (w ++ (v ++ u :: v'))) (.stmt next (.ifElse test body other span))
  | whileLoop {w v t next test body span} (ht : t.type = .keyword .kwWhile)
      (h : Derives place w (.condition test)) (hb : Derives place v (.stmt next body))
      (hs : place t.start (t :: (w ++ v)) span) :
      Derives place (t :: (w ++ v)) (.stmt next (.whileLoop test body span))
  | doLoop {w v v' t u next test body span} (ht : t.type = .keyword .kwDo)
      (hb : Derives place w (.stmt (.keyword .kwWhile) body)) (hu : u.type = .keyword .kwWhile)
      (h : Derives place v (.condition test)) (he : Derives place v' (.terminator next))
      (hs : place t.start (t :: (w ++ u :: (v ++ v'))) span) :
      Derives place (t :: (w ++ u :: (v ++ v'))) (.stmt next (.doLoop body test span))
  | forLoop {w v v' x t a b c d next init test update body span} (ht : t.type = .keyword .kwFor)
      (ha : a.type = .parenStart) (hi : Derives place w (.forInit init)) (hb : b.type = .semi)
      (h : Derives place v (.optional test)) (hc : c.type = .semi)
      (hu : Derives place v' (.optional update)) (hd : d.type = .parenEnd)
      (hx : Derives place x (.stmt next body))
      (hs : place t.start (t :: a :: (w ++ b :: (v ++ c :: (v' ++ d :: x)))) span) :
      Derives place (t :: a :: (w ++ b :: (v ++ c :: (v' ++ d :: x))))
        (.stmt next (.forLoop init test update body span))
  | function {w v x t a b next name params body inner span} (ht : t.type = .keyword .kwDef)
      (h : Derives place w (.ident name)) (ha : a.type = .parenStart)
      (hp : Derives place v (.parameters params)) (hb : b.type = .parenEnd)
      (hx : Derives place x (.block body inner)) (hs : place t.start (t :: (w ++ a :: (v ++ b :: x))) span) :
      Derives place (t :: (w ++ a :: (v ++ b :: x))) (.stmt next (.function name params body inner span))
  | ret {w v t next value span} (ht : t.type = .keyword .kwReturn) (h : Derives place w (.optional value))
      (he : Derives place v (.terminator next)) (hs : place t.start (t :: (w ++ v)) span) :
      Derives place (t :: (w ++ v)) (.stmt next (.ret value span))
  | block {w t u body span} (ht : t.type = .curlyStart) (h : Derives place w (.stmts .curlyEnd body))
      (hu : u.type = .curlyEnd) (hs : place t.start (t :: (w ++ [u])) span) :
      Derives place (t :: (w ++ [u])) (.block body span)
  | noStmts {next} : Derives place [] (.stmts next [])
  | moreStmts {w v next s list} (h : Derives place w (.stmt (headType v next) s))
      (hl : Derives place v (.stmts next list)) : Derives place (w ++ v) (.stmts next (s :: list))

/-! ## First tokens -/

/-- What an expression of the tightest layer can start with. -/
def primaryStarters : List TokenType :=
  [.parenStart, .identifier, .number, .string, .keyword .kwTrue, .keyword .kwFalse,
   .keyword .kwNull]

/-- What an expression can start with. -/
def exprStarters : List TokenType :=
  primaryStarters ++ [.additive, .logicalNot]

/-- What a statement that is no expression can start with. -/
def stmtStarters : List TokenType :=
  [.semi, .curlyStart, .keyword .kwLet, .keyword .kwIf, .keyword .kwWhile, .keyword .kwDo,
   .keyword .kwFor, .keyword .kwDef, .keyword .kwReturn]

/-- What a phrase can start with; `none` if there may be nothing of it. -/
def Phrase.starters : Phrase → Option (List TokenType)
  | .ident _ | .idents _ | .declaration _ | .declarations _ => some [.identifier]
  | .expr .primary _ | .expr .call _ => some primaryStarters
  | .expr .. | .exprs _ => some exprStarters
  | .condition _ => some [.parenStart]
  | .variables .. => some [.keyword .kwLet]
  | .block .. => some [.curlyStart]
  | .stmt .. => some (exprStarters ++ stmtStarters)
  | .parameters _ | .arguments _ | .optional _ | .forInit _ | .terminator _ | .stmts .. => none

/-- There is a first token, of one of the given types. -/
def Opens (types : List TokenType) (w : List Token) : Prop :=
  ∃ t v, w = t :: v ∧ t.type ∈ types

variable {w : List Token}

theorem Opens.append {types : List TokenType} (h : Opens types w) (v : List Token) :
    Opens types (w ++ v) := by
  obtain ⟨t, u, rfl, ht⟩ := h
  exact ⟨t, u ++ v, rfl, ht⟩

theorem Opens.weaken {types types' : List TokenType} (h : Opens types w) (hsub : types ⊆ types') :
    Opens types' w := by
  obtain ⟨t, u, rfl, ht⟩ := h
  exact ⟨t, u, rfl, hsub ht⟩

theorem Opens.ne_nil {types : List TokenType} (h : Opens types w) : w ≠ [] := by
  obtain ⟨t, u, rfl, _⟩ := h
  simp

theorem opens_cons {types : List TokenType} {t : Token} (h : t.type ∈ types) :
    Opens types (t :: w) :=
  ⟨t, w, rfl, h⟩

theorem headType_mem_of_opens {types : List TokenType} (h : Opens types w) (next : TokenType) :
    headType w next ∈ types := by
  obtain ⟨t, u, rfl, ht⟩ := h
  exact ht

theorem Opens.headType_notMem {types types' : List TokenType} (h : Opens types w)
    (hd : ∀ type ∈ types, type ∉ types') (next : TokenType) :
    headType w next ∉ types' :=
  hd _ (headType_mem_of_opens h next)

/-- If the next type is that of a token and not that of the end, there is a next token. -/
theorem opens_of_headType_mem {types : List TokenType} {next : TokenType} (h : headType w next ∈ types)
    (hn : next ∉ types) : Opens types w := by
  cases w with
  | nil => exact absurd h hn
  | cons t v => exact opens_cons h

theorem Derives.opens {place : Placing} {phrase : Phrase} (h : Derives place w phrase) :
    ∀ types, phrase.starters = some types → Opens types w := by
  induction h with
  | ident ht | number ht | string ht =>
    rintro _ ⟨⟩
    exact opens_cons (by simp [ht, primaryStarters])
  | @word t k value span ht hk hs =>
    rintro _ ⟨⟩
    refine opens_cons ?_
    cases k <;> simp_all [primaryStarters, Keyword.literal?]
  | @unary w t op e span ht hx h hs =>
    rintro _ ⟨⟩
    refine opens_cons ?_
    cases op <;> simp [ht, exprStarters, UnaryOp.tokenType]
  | condition ht | declared ht | block ht | emptyStmt ht | ifThen ht | ifElse ht | whileLoop ht
  | doLoop ht | forLoop ht | function ht | ret ht =>
    rintro _ ⟨⟩
    exact opens_cons (by simp [ht, stmtStarters])
  | name _ ih | paren _ ih =>
    rintro _ ⟨⟩
    exact (ih _ rfl).weaken (by simp [primaryStarters])
  | ofCall _ ih =>
    rintro _ ⟨⟩
    exact (ih _ rfl).weaken (List.subset_append_left ..)
  | @ofOperand w level e h ih =>
    cases level <;> exact ih
  | blockStmt _ ih =>
    rintro _ ⟨⟩
    exact (ih _ rfl).weaken (by simp [stmtStarters])
  | exprStmt _ _ _ ih =>
    rintro _ ⟨⟩
    exact ((ih _ rfl).append _).weaken (List.subset_append_left ..)
  | variableStmt _ _ _ ih =>
    rintro _ ⟨⟩
    exact ((ih _ rfl).append _).weaken (by simp [stmtStarters])
  | oneIdent _ ih | atom _ ih | ofOr _ ih | oneExpr _ ih | bare _ _ ih | oneDeclaration _ ih =>
    exact ih
  | moreIdents _ _ _ ih | moreExprs _ _ _ ih | moreDeclarations _ _ _ ih
  | initialized _ _ _ _ ih | call _ _ _ _ _ ih | binary _ _ _ _ _ ih | logical _ _ _ _ _ ih
  | assign _ _ _ _ _ ih =>
    intro types ht
    exact (ih types ht).append _
  | noParameters | parameters | noArguments | arguments | absent | present | noInit
  | initVariables | initExpr | semi | atEnd | noStmts | moreStmts =>
    intro types ht
    cases ht

theorem Derives.expr_opens {place : Placing} {layer : Layer} {e : Expr}
    (h : Derives place w (.expr layer e)) :
    Opens exprStarters w := by
  cases layer with
  | primary | call => exact (h.opens _ rfl).weaken (List.subset_append_left ..)
  | assignment | binary | unary => exact h.opens _ rfl

theorem Derives.stmt_ne_nil {place : Placing} {next : TokenType} {s : Stmt}
    (h : Derives place w (.stmt next s)) : w ≠ [] :=
  (h.opens _ rfl).ne_nil

/-- No statement starts with `else`. -/
theorem Derives.headType_ne_else {place : Placing} {v : List Token} {next : TokenType}
    {list : List Stmt} (h : Derives place v (.stmts next list)) (hn : next ≠ .keyword .kwElse) :
    headType v next ≠ .keyword .kwElse := by
  cases h with
  | noStmts => exact hn
  | moreStmts hs _ =>
    have hopens := (hs.opens _ rfl).append ‹List Token›
    intro heq
    have hmem := headType_mem_of_opens hopens next
    rw [heq] at hmem
    exact absurd hmem (by decide)

end Scriptlet
