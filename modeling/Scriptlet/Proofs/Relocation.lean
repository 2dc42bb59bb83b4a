import Scriptlet.Proofs.Derivation
import Scriptlet.Proofs.Erasure

/-!
Syntax at other places. `relocate place` moves every node to where `place` says that its ends are, and
leaves all else as it is. Erasing is moving everything to the beginning.
-/

namespace Scriptlet

variable (place : Nat → Nat)

def Span.relocate (span : Span) : Span :=
  ⟨place span.start, place span.stop⟩

def Token.relocate (t : Token) : Token :=
  ⟨t.type, t.text, t.span.relocate place⟩

def Ident.relocate (id : Ident) : Ident :=
  ⟨id.name, id.span.relocate place⟩

mutual

def Expr.relocate : Expr → Expr
  | .literal value span => .literal value (span.relocate place)
  | .ident id => .ident (id.relocate place)
  | .unary op operand span => .unary op operand.relocate (span.relocate place)
  | .binary op left right span => .binary op left.relocate right.relocate (span.relocate place)
  | .logical op left right span => .logical op left.relocate right.relocate (span.relocate place)
  | .assign op target value span =>
    .assign op (target.relocate place) value.relocate (span.relocate place)
  | .call callee args span => .call callee.relocate (Expr.relocateAll args) (span.relocate place)

def Expr.relocateAll : List Expr → List Expr
  | [] => []
  | e :: rest => e.relocate :: Expr.relocateAll rest

end

def Declaration.relocate (d : Declaration) : Declaration :=
  ⟨d.id.relocate place, d.init.map (Expr.relocate place), d.span.relocate place⟩

def ForInit.relocate : ForInit → ForInit
  | .variables list span => .variables (list.map (Declaration.relocate place)) (span.relocate place)
  | .expr e => .expr (e.relocate place)

mutual

def Stmt.relocate : Stmt → Stmt
  | .expr e span => .expr (e.relocate place) (span.relocate place)
  | .variables list span =>
    .variables (list.map (Declaration.relocate place)) (span.relocate place)
  | .block body span => .block (Stmt.relocateAll body) (span.relocate place)
  | .empty span => .empty (span.relocate place)
  | .ifThen test body span => .ifThen (test.relocate place) body.relocate (span.relocate place)
  | .ifElse test body other span =>
    .ifElse (test.relocate place) body.relocate other.relocate (span.relocate place)
  | .whileLoop test body span => .whileLoop (test.relocate place) body.relocate (span.relocate place)
  | .doLoop body test span => .doLoop body.relocate (test.relocate place) (span.relocate place)
  | .forLoop init test update body span =>
    .forLoop (init.map (ForInit.relocate place)) (test.map (Expr.relocate place))
      (update.map (Expr.relocate place)) body.relocate (span.relocate place)
  | .function name params body bodySpan span =>
    .function (name.relocate place) (params.map (Ident.relocate place)) (Stmt.relocateAll body)
      (bodySpan.relocate place) (span.relocate place)
  | .ret value span => .ret (value.map (Expr.relocate place)) (span.relocate place)

def Stmt.relocateAll : List Stmt → List Stmt
  | [] => []
  | s :: rest => s.relocate :: Stmt.relocateAll rest

end

def Phrase.relocate : Phrase → Phrase
  | .ident id => .ident (id.relocate place)
  | .idents list => .idents (list.map (Ident.relocate place))
  | .parameters list => .parameters (list.map (Ident.relocate place))
  | .expr layer e => .expr layer (e.relocate place)
  | .exprs list => .exprs (Expr.relocateAll place list)
  | .arguments list => .arguments (Expr.relocateAll place list)
  | .condition e => .condition (e.relocate place)
  | .optional value => .optional (value.map (Expr.relocate place))
  | .declaration d => .declaration (d.relocate place)
  | .declarations list => .declarations (list.map (Declaration.relocate place))
  | .variables list span => .variables (list.map (Declaration.relocate place)) (span.relocate place)
  | .forInit init => .forInit (init.map (ForInit.relocate place))
  | .terminator next => .terminator next
  | .block body span => .block (Stmt.relocateAll place body) (span.relocate place)
  | .stmt next s => .stmt next (s.relocate place)
  | .stmts next list => .stmts next (Stmt.relocateAll place list)

variable {place}

theorem Stmt.relocateAll_eq_map (list : List Stmt) :
    Stmt.relocateAll place list = list.map (Stmt.relocate place) := by
  induction list with
  | nil => rfl
  | cons s rest ih => rw [Stmt.relocateAll, ih, List.map_cons]

theorem Expr.span_relocate (e : Expr) : (e.relocate place).span = e.span.relocate place := by
  cases e <;> rfl

/-- Relocated tokens have their last end where it is moved to. -/
theorem endOf_map_relocate (last : Nat) (w : List Token) :
    endOf (place last) (w.map (Token.relocate place)) = place (endOf last w) := by
  induction w generalizing last with
  | nil => rfl
  | cons t w ih => exact ih t.stop

/-! ## Everything at the beginning -/

mutual

theorem Expr.relocate_zero (e : Expr) : e.relocate (fun _ => 0) = e.erase := by
  cases e with
  | literal | ident => rfl
  | unary op operand => rw [Expr.relocate, Expr.erase, Expr.relocate_zero operand]; rfl
  | binary op left right | logical op left right =>
    rw [Expr.relocate, Expr.erase, Expr.relocate_zero left, Expr.relocate_zero right]; rfl
  | assign op target value => rw [Expr.relocate, Expr.erase, Expr.relocate_zero value]; rfl
  | call callee args =>
    rw [Expr.relocate, Expr.erase, Expr.relocate_zero callee, Expr.relocateAll_zero args]; rfl

theorem Expr.relocateAll_zero (list : List Expr) :
    Expr.relocateAll (fun _ => 0) list = Expr.eraseAll list := by
  cases list with
  | nil => rfl
  | cons e rest => rw [Expr.relocateAll, Expr.eraseAll, e.relocate_zero, Expr.relocateAll_zero rest]

end

theorem Declaration.relocate_zero : Declaration.relocate (fun _ => 0) = Declaration.erase := by
  funext d
  rw [Declaration.relocate, Declaration.erase, funext Expr.relocate_zero]
  rfl

theorem ForInit.relocate_zero : ForInit.relocate (fun _ => 0) = ForInit.erase := by
  funext init
  cases init with
  | «variables» => rw [ForInit.relocate, ForInit.erase, Declaration.relocate_zero]; rfl
  | expr e => rw [ForInit.relocate, ForInit.erase, e.relocate_zero]

mutual

theorem Stmt.relocate_zero (s : Stmt) : s.relocate (fun _ => 0) = s.erase := by
  cases s with
  | empty => rfl
  | expr e => rw [Stmt.relocate, Stmt.erase, e.relocate_zero]; rfl
  | «variables» => rw [Stmt.relocate, Stmt.erase, Declaration.relocate_zero]; rfl
  | ret => rw [Stmt.relocate, Stmt.erase, funext Expr.relocate_zero]; rfl
  | block body => rw [Stmt.relocate, Stmt.erase, Stmt.relocateAll_zero body]; rfl
  | ifThen test body | whileLoop test body =>
    rw [Stmt.relocate, Stmt.erase, test.relocate_zero, Stmt.relocate_zero body]; rfl
  | doLoop body test => rw [Stmt.relocate, Stmt.erase, test.relocate_zero, Stmt.relocate_zero body]; rfl
  | ifElse test body other =>
    rw [Stmt.relocate, Stmt.erase, test.relocate_zero, Stmt.relocate_zero body, Stmt.relocate_zero other]
    rfl
  | forLoop init test update body =>
    rw [Stmt.relocate, Stmt.erase, ForInit.relocate_zero, funext Expr.relocate_zero,
      Stmt.relocate_zero body]
    rfl
  | function name params body => rw [Stmt.relocate, Stmt.erase, Stmt.relocateAll_zero body]; rfl

theorem Stmt.relocateAll_zero (list : List Stmt) :
    Stmt.relocateAll (fun _ => 0) list = Stmt.eraseAll list := by
  cases list with
  | nil => rfl
  | cons s rest => rw [Stmt.relocateAll, Stmt.eraseAll, s.relocate_zero, Stmt.relocateAll_zero rest]

end

end Scriptlet
