import Scriptlet.Number
import Scriptlet.Span

/-!
Syntax of programs: expressions, statements and whole programs, each part with the stretch of source
text that it was read from. Two programs are the same up to places if they agree once all spans are
erased.
-/

namespace Scriptlet

inductive UnaryOp where
  | plus | minus | not
deriving DecidableEq, Repr, Inhabited

inductive BinaryOp where
  | add | sub | mul | div | less | greater | lessEqual | greaterEqual | equal | notEqual
deriving DecidableEq, Repr, Inhabited

inductive LogicalOp where
  | and | or
deriving DecidableEq, Repr, Inhabited

inductive AssignOp where
  | set | add | sub | mul | div
deriving DecidableEq, Repr, Inhabited

def UnaryOp.symbol : UnaryOp → String
  | .plus => "+"
  | .minus => "-"
  | .not => "!"

def BinaryOp.symbol : BinaryOp → String
  | .add => "+"
  | .sub => "-"
  | .mul => "*"
  | .div => "/"
  | .less => "<"
  | .greater => ">"
  | .lessEqual => "<="
  | .greaterEqual => ">="
  | .equal => "=="
  | .notEqual => "!="

def LogicalOp.symbol : LogicalOp → String
  | .and => "&&"
  | .or => "||"

def AssignOp.symbol : AssignOp → String
  | .set => "="
  | .add => "+="
  | .sub => "-="
  | .mul => "*="
  | .div => "/="

/-- A literal as it stands in the source. -/
inductive Literal where
  | number (n : Number)
  | text (s : String)
  | bool (b : Bool)
  | null
deriving Inhabited

/-- A name with its place. -/
structure Ident where
  name : String
  span : Span
deriving DecidableEq, Repr, Inhabited

inductive Expr where
  | literal (value : Literal) (span : Span)
  | ident (id : Ident)
  | unary (op : UnaryOp) (operand : Expr) (span : Span)
  | binary (op : BinaryOp) (left right : Expr) (span : Span)
  | logical (op : LogicalOp) (left right : Expr) (span : Span)
  | assign (op : AssignOp) (target : Ident) (value : Expr) (span : Span)
  | call (callee : Expr) (args : List Expr) (span : Span)
deriving Inhabited

/-- A declared name with its optional initial value. -/
structure Declaration where
  id : Ident
  init : Option Expr
  span : Span
deriving Inhabited

/-- The first clause of a `for` loop. -/
inductive ForInit where
  | variables (declarations : List Declaration) (span : Span)
  | expr (e : Expr)
deriving Inhabited

inductive Stmt where
  | expr (e : Expr) (span : Span)
  | variables (declarations : List Declaration) (span : Span)
  | block (body : List Stmt) (span : Span)
  | empty (span : Span)
  | ifThen (test : Expr) (consequent : Stmt) (span : Span)
  | ifElse (test : Expr) (consequent alternate : Stmt) (span : Span)
  | whileLoop (test : Expr) (body : Stmt) (span : Span)
  | doLoop (body : Stmt) (test : Expr) (span : Span)
  | forLoop (init : Option ForInit) (test update : Option Expr) (body : Stmt) (span : Span)
  | function (name : Ident) (params : List Ident) (body : List Stmt) (bodySpan span : Span)
  | ret (value : Option Expr) (span : Span)
deriving Inhabited

structure Program where
  body : List Stmt
  span : Span
deriving Inhabited

def Expr.span : Expr → Span
  | .literal _ s | .unary _ _ s | .binary _ _ _ s | .logical _ _ _ s | .assign _ _ _ s
  | .call _ _ s => s
  | .ident id => id.span

def Stmt.span : Stmt → Span
  | .expr _ s | .variables _ s | .block _ s | .empty s | .ifThen _ _ s | .ifElse _ _ _ s
  | .whileLoop _ _ s | .doLoop _ _ s | .forLoop _ _ _ _ s | .function _ _ _ _ s | .ret _ s => s

/-- The text between the quotation marks of a literal. -/
def Parser.unquote (raw : String) : String :=
  String.ofList (raw.toList.drop 1).dropLast

end Scriptlet
