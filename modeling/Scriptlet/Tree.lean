import Scriptlet.Json
import Scriptlet.NodeKind
import Scriptlet.Syntax

/-!
Trees: programs as documents. A tree may come from parsing or from a file that some other tool
wrote, so a field may hold anything: a scalar, a list or a node of any kind. What is wrong with a
tree shows only when the part is used. `Program.toTree` writes a parsed program as a tree.
-/

namespace Scriptlet

inductive Tree where
  | scalar (s : Scalar)
  | list (items : List Tree)
  | node (kind : NodeKind) (start stop : Tree) (fields : List Tree)
  /-- A number that is none. It equals itself only, so it is known by its place in the document. -/
  | nan (place : List Nat)
  /-- Data that cannot be part of a document. -/
  | foreign (j : Json)
deriving Inhabited

namespace Tree

@[match_pattern] abbrev null : Tree := .scalar .null
@[match_pattern] abbrev bool (b : Bool) : Tree := .scalar (.bool b)
@[match_pattern] abbrev int (n : Int) : Tree := .scalar (.number (.int n))
@[match_pattern] abbrev text (s : String) : Tree := .scalar (.text s)

def ofNat (n : Nat) : Tree :=
  .int n

/-- The name of the kind of thing that a tree is, as messages give it. -/
def kindName : Tree → String
  | .scalar s => s.kindName
  | .list _ => "list"
  | .node kind .. => kind.name
  | .nan _ => Json.kindName .nan
  | .foreign j => j.kindName

mutual

/-- A tree written out, without places. -/
def quoted : Tree → String
  | .scalar s => s.quoted
  | .list items => "[" ++ ", ".intercalate (quotedAll items) ++ "]"
  | .node kind _ _ fields =>
    kind.name ++ "(" ++ ", ".intercalate (quotedFields kind.fields fields) ++ ")"
  | .nan _ => Json.quoted .nan
  | .foreign j => j.quoted

def quotedAll : List Tree → List String
  | [] => []
  | t :: rest => t.quoted :: quotedAll rest

def quotedFields : List String → List Tree → List String
  | name :: names, t :: rest => (name ++ "=" ++ t.quoted) :: quotedFields names rest
  | _, _ => []

end

/-- A tree as it is shown on its own: text without quotes. -/
def display : Tree → String
  | .scalar s => s.display
  | t => t.quoted

mutual

/-- Equality of trees, which leaves the places of nodes out. -/
def same : Tree → Tree → Bool
  | .scalar a, .scalar b => a.same b
  | .list as, .list bs => sameAll as bs
  | .node kind _ _ as, .node kind' _ _ bs => kind = kind' && sameAll as bs
  | .nan place, .nan place' => place = place'
  | .foreign a, .foreign b => a.same b
  | _, _ => false

def sameAll : List Tree → List Tree → Bool
  | [], [] => true
  | a :: as, b :: bs => a.same b && sameAll as bs
  | _, _ => false

end

mutual

/-- The places of all nodes, each before those inside it. -/
def places : Tree → List Tree
  | .node _ start stop fields => .list [start, stop] :: placesAll fields
  | .list items => placesAll items
  | _ => []

def placesAll : List Tree → List Tree
  | [] => []
  | t :: rest => t.places ++ placesAll rest

end

/-- Whether two trees have the same places throughout. -/
def samePlaces (a b : Tree) : Bool :=
  sameAll a.places b.places

mutual

/-- How deep lists and nodes nest. -/
def height : Tree → Nat
  | .node _ _ _ fields => heightAll fields + 1
  | .list items => heightAll items + 1
  | _ => 0

def heightAll : List Tree → Nat
  | [] => 0
  | t :: rest => max t.height (heightAll rest)

end

/-- Whether a tree counts as something: not null, false, zero or empty. -/
def isPresent : Tree → Bool
  | .scalar s => s.isPresent
  | .list items => !items.isEmpty
  | .node .. | .nan _ | .foreign _ => true

/-- The `name` of a node that has one. -/
def name? : Tree → Option Tree
  | .node .identifier _ _ [name] => some name
  | .node .functionDeclaration _ _ [name, _, _] => some name
  | _ => none

/-- The `body` of a node that has one. -/
def body? : Tree → Option Tree
  | .node .program _ _ [body] => some body
  | .node .blockStatement _ _ [body] => some body
  | .node .whileStatement _ _ [_, body] => some body
  | .node .doWhileStatement _ _ [body, _] => some body
  | .node .forStatement _ _ [_, _, _, body] => some body
  | .node .functionDeclaration _ _ [_, _, body] => some body
  | _ => none

/-- The `init` of a node that has one. -/
def init? : Tree → Option Tree
  | .node .variableDeclaration _ _ [_, init] => some init
  | .node .forStatement _ _ [init, _, _, _] => some init
  | _ => none

/-- The `id` of a declaration. -/
def id? : Tree → Option Tree
  | .node .variableDeclaration _ _ [id, _] => some id
  | _ => none

/-- The parts of something that can be gone through: the items of a list or the characters of a
text. -/
def items? : Tree → Option (List Tree)
  | .list items => some items
  | .text s => some (s.toList.map fun c => .text c.toString)
  | _ => none

/-- What stands between the first and the last part of a text or a list. -/
def inner? : Tree → Option Tree
  | .text s => some (.text (Parser.unquote s))
  | .list items => some (.list (items.drop 1).dropLast)
  | _ => none

/-- The field of a node with a given name. -/
def field? (name : String) : Tree → Option Tree
  | .node kind start stop fields =>
    if name = "start" then some start
    else if name = "end" then some stop
    else (kind.fields.zip fields).lookup name
  | _ => none

end Tree

/-! Parsed programs as trees. -/

/-- A node for a stretch of source text. -/
def Span.node (span : Span) (kind : NodeKind) (fields : List Tree) : Tree :=
  .node kind (.ofNat span.start) (.ofNat span.stop) fields

def Ident.toTree (id : Ident) : Tree :=
  id.span.node .identifier [.text id.name]

def Literal.toTree (span : Span) : Literal → Tree
  | .number n => span.node .numericLiteral [.scalar (.number n)]
  | .text s => span.node .stringLiteral [.text s]
  | .bool b => span.node .booleanLiteral [.bool b]
  | .null => span.node .nullLiteral [.null]

mutual

def Expr.toTree : Expr → Tree
  | .literal value span => value.toTree span
  | .ident id => id.toTree
  | .unary op operand span => span.node .unaryExpression [.text op.symbol, operand.toTree]
  | .binary op left right span =>
    span.node .binaryExpression [.text op.symbol, left.toTree, right.toTree]
  | .logical op left right span =>
    span.node .logicalExpression [.text op.symbol, left.toTree, right.toTree]
  | .assign op target value span =>
    span.node .assignmentExpression [.text op.symbol, target.toTree, value.toTree]
  | .call callee args span => span.node .callExpression [callee.toTree, .list (Expr.toTrees args)]

def Expr.toTrees : List Expr → List Tree
  | [] => []
  | e :: rest => e.toTree :: Expr.toTrees rest

end

/-- An optional part as a tree; a missing part is null. -/
def Tree.ofOption {α : Type} (toTree : α → Tree) : Option α → Tree
  | none => .null
  | some a => toTree a

def Declaration.toTree (d : Declaration) : Tree :=
  d.span.node .variableDeclaration [d.id.toTree, .ofOption Expr.toTree d.init]

def Declaration.listToTree (declarations : List Declaration) (span : Span) : Tree :=
  span.node .variableStatement [.list (declarations.map Declaration.toTree)]

def ForInit.toTree : ForInit → Tree
  | .variables declarations span => Declaration.listToTree declarations span
  | .expr e => e.toTree

mutual

def Stmt.toTree : Stmt → Tree
  | .expr e span => span.node .expressionStatement [e.toTree]
  | .variables declarations span => Declaration.listToTree declarations span
  | .block body span => span.node .blockStatement [.list (Stmt.toTrees body)]
  | .empty span => span.node .emptyStatement []
  | .ifThen test consequent span =>
    span.node .ifStatement [test.toTree, consequent.toTree, .null]
  | .ifElse test consequent alternate span =>
    span.node .ifStatement [test.toTree, consequent.toTree, alternate.toTree]
  | .whileLoop test body span => span.node .whileStatement [test.toTree, body.toTree]
  | .doLoop body test span => span.node .doWhileStatement [body.toTree, test.toTree]
  | .forLoop init test update body span =>
    span.node .forStatement
      [.ofOption ForInit.toTree init, .ofOption Expr.toTree test, .ofOption Expr.toTree update,
       body.toTree]
  | .function name params body bodySpan span =>
    span.node .functionDeclaration
      [name.toTree, .list (params.map Ident.toTree),
       bodySpan.node .blockStatement [.list (Stmt.toTrees body)]]
  | .ret value span => span.node .returnStatement [.ofOption Expr.toTree value]

def Stmt.toTrees : List Stmt → List Tree
  | [] => []
  | s :: rest => s.toTree :: Stmt.toTrees rest

end

def Program.toTree (p : Program) : Tree :=
  p.span.node .program [.list (Stmt.toTrees p.body)]

theorem Expr.toTrees_eq_map (list : List Expr) : Expr.toTrees list = list.map Expr.toTree := by
  induction list with
  | nil => rfl
  | cons e rest ih => rw [Expr.toTrees, ih, List.map_cons]

theorem Stmt.toTrees_eq_map (list : List Stmt) : Stmt.toTrees list = list.map Stmt.toTree := by
  induction list with
  | nil => rfl
  | cons s rest ih => rw [Stmt.toTrees, ih, List.map_cons]

theorem Expr.toTree_ne_null (e : Expr) : e.toTree ≠ .null := by
  cases e with
  | literal value => cases value <;> nofun
  | ident | unary | binary | logical | assign | call => nofun

theorem Stmt.toTree_ne_null (s : Stmt) : s.toTree ≠ .null := by
  cases s <;> nofun

/-- An expression is not taken for declarations. -/
theorem Expr.toTree_ne_variables (e : Expr) (start stop : Tree) (fields : List Tree) :
    e.toTree ≠ .node .variableStatement start stop fields := by
  cases e with
  | literal value => cases value <;> nofun
  | ident | unary | binary | logical | assign | call => nofun

end Scriptlet
