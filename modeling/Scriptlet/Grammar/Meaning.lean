import Scriptlet.Grammar

/-!
What productions mean: the syntax that each makes of its parts. A part keeps the stretch of text
that it covers, parentheses and terminator included, and how deep its constructs nest. Errors in the
meaning of a part, such as an assignment to something that is no name, come to light only after the
whole text is parsed, the innermost and leftmost first.
-/

namespace Scriptlet.Grammar

/-- The syntax of a part. -/
inductive Part where
  | token (t : Token)
  | expr (e : Expr)
  | exprs (list : List Expr)
  | operands (list : List (Token × Expr))
  | declaration (d : Declaration)
  | declarations (list : List Declaration)
  | variables (list : List Declaration) (span : Span)
  | init (i : ForInit)
  | idents (list : List Ident)
  | stmt (s : Stmt)
  | stmts (list : List Stmt)

/-- A part with its place and nesting. -/
structure Attribute where
  span : Span
  height : Nat
  part : Except SyntaxError Part

def identOf (t : Token) : Ident :=
  ⟨t.text, t.span⟩

/-- Joins operands to the left; each node covers what its operands cover. -/
def joinOperands (level : Parser.Level) (first : Expr) (rest : List (Token × Expr)) : Expr :=
  rest.foldl
    (fun left (operator, right) =>
      level.build operator.text left right ⟨left.span.start, right.span.stop⟩)
    first

/-- The clauses of a `for` loop among its parts. -/
def forClauses (init test update : Bool) (parts : List Part) :
    Option (Option ForInit × Option Expr × Option Expr × Stmt) :=
  match init, test, update, parts with
  | true, true, true, [_, _, .init i, _, .expr a, _, .expr b, _, .stmt s] =>
    some (some i, some a, some b, s)
  | true, true, false, [_, _, .init i, _, .expr a, _, _, .stmt s] => some (some i, some a, none, s)
  | true, false, true, [_, _, .init i, _, _, .expr b, _, .stmt s] => some (some i, none, some b, s)
  | true, false, false, [_, _, .init i, _, _, _, .stmt s] => some (some i, none, none, s)
  | false, true, true, [_, _, _, .expr a, _, .expr b, _, .stmt s] => some (none, some a, some b, s)
  | false, true, false, [_, _, _, .expr a, _, _, .stmt s] => some (none, some a, none, s)
  | false, false, true, [_, _, _, _, .expr b, _, .stmt s] => some (none, none, some b, s)
  | false, false, false, [_, _, _, _, _, .stmt s] => some (none, none, none, s)
  | _, _, _, _ => none

/-- The syntax that a form makes of parts; `none` if the parts do not fit the form. -/
def assemble (form : Form) (span : Span) (parts : List Part) : Option (Except SyntaxError Part) :=
  match form, parts with
  | .same, [p] => some (.ok p)
  | .paren, [_, p, _] => some (.ok p)
  | .program, [] => some (.ok (.stmts []))
  | .program, [.stmts list] => some (.ok (.stmts list))
  | .program, [.stmt s] => some (.ok (.stmts [s]))
  | .program, [.stmts list, .stmt s] => some (.ok (.stmts (list ++ [s])))
  | .statements, [.stmt s] => some (.ok (.stmts [s]))
  | .statements, [.stmts list, .stmt s] => some (.ok (.stmts (list ++ [s])))
  | .exprStatement, .expr e :: _ => some (.ok (.stmt (.expr e span)))
  | .variableStatement, .variables list _ :: _ => some (.ok (.stmt (.variables list span)))
  | .returnStatement, _ :: .expr e :: _ => some (.ok (.stmt (.ret (some e) span)))
  | .returnStatement, _ :: _ => some (.ok (.stmt (.ret none span)))
  | .block, [_, .stmts list, _] => some (.ok (.stmt (.block list span)))
  | .block, [_, _] => some (.ok (.stmt (.block [] span)))
  | .emptyStatement, _ => some (.ok (.stmt (.empty span)))
  | .variables, [_, .declaration d] => some (.ok (.variables [d] span))
  | .variables, [_, .declaration d, .declarations list] => some (.ok (.variables (d :: list) span))
  | .declarations, [_, .declaration d] => some (.ok (.declarations [d]))
  | .declarations, [.declarations list, _, .declaration d] =>
    some (.ok (.declarations (list ++ [d])))
  | .declaration, [.token t] => some (.ok (.declaration ⟨identOf t, none, span⟩))
  | .declaration, [.token t, _, .expr e] => some (.ok (.declaration ⟨identOf t, some e, span⟩))
  | .ifThen, [_, _, .expr e, _, .stmt s] => some (.ok (.stmt (.ifThen e s span)))
  | .ifElse, [_, _, .expr e, _, .stmt s, _, .stmt s'] => some (.ok (.stmt (.ifElse e s s' span)))
  | .whileLoop, [_, _, .expr e, _, .stmt s] => some (.ok (.stmt (.whileLoop e s span)))
  | .doLoop, [_, .stmt s, _, _, .expr e, _, _] => some (.ok (.stmt (.doLoop s e span)))
  | .forLoop init test update, parts =>
    (forClauses init test update parts).map fun (i, a, b, s) =>
      .ok (.stmt (.forLoop i a b s span))
  | .initVariables, [.variables list inner] => some (.ok (.init (.variables list inner)))
  | .initExpr, [.expr e] => some (.ok (.init (.expr e)))
  | .function, [_, .token t, _, .idents params, _, .stmt (.block body inner)] =>
    some (.ok (.stmt (.function (identOf t) params body inner span)))
  | .function, [_, .token t, _, _, .stmt (.block body inner)] =>
    some (.ok (.stmt (.function (identOf t) [] body inner span)))
  | .parameters, [.token t] => some (.ok (.idents [identOf t]))
  | .parameters, [.token t, .idents list] => some (.ok (.idents (identOf t :: list)))
  | .parameters, [_, .token t] => some (.ok (.idents [identOf t]))
  | .parameters, [.idents list, _, .token t] => some (.ok (.idents (list ++ [identOf t])))
  | .assign, [.expr (.ident target), .token operator, .expr value] =>
    some (.ok (.expr (.assign (Parser.assignOp operator.text) target value span)))
  | .assign, [.expr other, .token operator, .expr _] =>
    some (.error (.invalidTarget ⟨other.span.start, operator.stop⟩ (Parser.kindOf other)))
  | .chain level, [.expr e, .operands list] => some (.ok (.expr (joinOperands level e list)))
  | .operands, [.token t, .expr e] => some (.ok (.operands [(t, e)]))
  | .operands, [.operands list, .token t, .expr e] => some (.ok (.operands (list ++ [(t, e)])))
  | .unary, [.token t, .expr e] => some (.ok (.expr (.unary (Parser.unaryOp t.text) e span)))
  | .call, [.expr e, _, .exprs args, _] => some (.ok (.expr (.call e args span)))
  | .call, [.expr e, _, _] => some (.ok (.expr (.call e [] span)))
  | .arguments, [.expr e] => some (.ok (.exprs [e]))
  | .arguments, [.expr e, .exprs list] => some (.ok (.exprs (e :: list)))
  | .arguments, [_, .expr e] => some (.ok (.exprs [e]))
  | .arguments, [.exprs list, _, .expr e] => some (.ok (.exprs (list ++ [e])))
  | .number, [.token t] =>
    some (match Number.read t.text with
      | .ok n => .ok (.expr (.literal (.number n) span))
      | .error e => .error (.badNumber e))
  | .string, [.token t] => some (.ok (.expr (.literal (.text (Parser.unquote t.text)) span)))
  | .bool b, _ => some (.ok (.expr (.literal (.bool b) span)))
  | .null, _ => some (.ok (.expr (.literal .null span)))
  | .name, [.token t] => some (.ok (.expr (.ident (identOf t))))
  | _, _ => none

/-- Whether a form makes a construct of its own out of its parts. -/
def Form.nests : Form → Bool
  | .same | .paren | .statements | .declarations | .operands | .parameters | .arguments => false
  | _ => true

/-- The stretch from the first part to the last. -/
def coveredSpan (parts : List Attribute) : Span :=
  match parts.head?, parts.getLast? with
  | some first, some last => ⟨first.span.start, last.span.stop⟩
  | _, _ => ⟨0, 0⟩

def formOf (production : Nat) : Form :=
  (rules[production]?.map (·.form)).getD .same

/-- The meaning of a production. The leftmost error among the parts comes first. -/
def nodeMeaning (production : Nat) (parts : List Attribute) : Attribute :=
  let form := formOf production
  let span := coveredSpan parts
  let inner := parts.foldl (fun h a => max h a.height) 0
  { span
    height := if Form.nests form then inner + 1 else inner
    part := do
      let inside ← parts.mapM (·.part)
      (assemble form span inside).getD (.ok (.stmts [])) }

def meaning : Lr.Meaning Token Attribute where
  leaf t := ⟨t.span, 0, .ok (.token t)⟩
  node := nodeMeaning

end Scriptlet.Grammar
