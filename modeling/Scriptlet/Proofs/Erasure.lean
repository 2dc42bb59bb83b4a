import Scriptlet.Syntax

/-!
Programs without places. `erase` puts every node at one and the same place, so two programs that
differ only in where they stand in their texts are equal once erased. Whether two programs are equal is
decided part by part (`Stmt.same`), so that what is parsed from a text can be compared.
-/

namespace Scriptlet

/-- The place of everything in an erased program. -/
def Span.nowhere : Span := ⟨0, 0⟩

def Ident.erase (id : Ident) : Ident := ⟨id.name, .nowhere⟩

mutual

def Expr.erase : Expr → Expr
  | .literal value _ => .literal value .nowhere
  | .ident id => .ident id.erase
  | .unary op operand _ => .unary op operand.erase .nowhere
  | .binary op left right _ => .binary op left.erase right.erase .nowhere
  | .logical op left right _ => .logical op left.erase right.erase .nowhere
  | .assign op target value _ => .assign op target.erase value.erase .nowhere
  | .call callee args _ => .call callee.erase (Expr.eraseAll args) .nowhere

def Expr.eraseAll : List Expr → List Expr
  | [] => []
  | e :: rest => e.erase :: Expr.eraseAll rest

end

def Declaration.erase (d : Declaration) : Declaration :=
  ⟨d.id.erase, d.init.map Expr.erase, .nowhere⟩

def ForInit.erase : ForInit → ForInit
  | .variables declarations _ => .variables (declarations.map Declaration.erase) .nowhere
  | .expr e => .expr e.erase

mutual

def Stmt.erase : Stmt → Stmt
  | .expr e _ => .expr e.erase .nowhere
  | .variables declarations _ => .variables (declarations.map Declaration.erase) .nowhere
  | .block body _ => .block (Stmt.eraseAll body) .nowhere
  | .empty _ => .empty .nowhere
  | .ifThen test consequent _ => .ifThen test.erase consequent.erase .nowhere
  | .ifElse test consequent alternate _ =>
    .ifElse test.erase consequent.erase alternate.erase .nowhere
  | .whileLoop test body _ => .whileLoop test.erase body.erase .nowhere
  | .doLoop body test _ => .doLoop body.erase test.erase .nowhere
  | .forLoop init test update body _ =>
    .forLoop (init.map ForInit.erase) (test.map Expr.erase) (update.map Expr.erase) body.erase
      .nowhere
  | .function name params body _ _ =>
    .function name.erase (params.map Ident.erase) (Stmt.eraseAll body) .nowhere .nowhere
  | .ret value _ => .ret (value.map Expr.erase) .nowhere

def Stmt.eraseAll : List Stmt → List Stmt
  | [] => []
  | s :: rest => s.erase :: Stmt.eraseAll rest

end

def Program.erase (p : Program) : Program :=
  ⟨Stmt.eraseAll p.body, .nowhere⟩

theorem Program.erase_congr {p q : Program} (h : p.erase.body = q.erase.body) :
    p.erase = q.erase := by
  simpa [Program.erase] using h

theorem Expr.eraseAll_eq_map (list : List Expr) : Expr.eraseAll list = list.map Expr.erase := by
  induction list with
  | nil => rfl
  | cons e rest ih => rw [Expr.eraseAll, ih, List.map_cons]

theorem Stmt.eraseAll_eq_map (list : List Stmt) : Stmt.eraseAll list = list.map Stmt.erase := by
  induction list with
  | nil => rfl
  | cons s rest ih => rw [Stmt.eraseAll, ih, List.map_cons]

/-- Only a name is erased to a name. -/
theorem Expr.erase_eq_ident {e : Expr} {id : Ident} (h : e.erase = .ident id) :
    ∃ id', e = .ident id' ∧ id'.erase = id := by
  cases e with
  | ident id' => exact ⟨id', rfl, by simpa [Expr.erase] using h⟩
  | literal | unary | binary | logical | assign | call => simp [Expr.erase] at h

/-! ## Erasing twice -/

@[simp] theorem Ident.erase_erase (id : Ident) : id.erase.erase = id.erase := rfl

mutual

@[simp] theorem Expr.erase_erase (e : Expr) : e.erase.erase = e.erase := by
  cases e with
  | literal | ident => rfl
  | unary op operand => simp [Expr.erase, Expr.erase_erase operand]
  | binary op left right | logical op left right =>
    simp [Expr.erase, Expr.erase_erase left, Expr.erase_erase right]
  | assign op target value => simp [Expr.erase, Expr.erase_erase value]
  | call callee args => simp [Expr.erase, Expr.erase_erase callee, Expr.eraseAll_eraseAll args]

theorem Expr.eraseAll_eraseAll (list : List Expr) :
    Expr.eraseAll (Expr.eraseAll list) = Expr.eraseAll list := by
  cases list with
  | nil => rfl
  | cons e rest => simp [Expr.eraseAll, Expr.erase_erase e, Expr.eraseAll_eraseAll rest]

end

@[simp] theorem Declaration.erase_erase (d : Declaration) : d.erase.erase = d.erase := by
  simp [Declaration.erase, Function.comp_def]

@[simp] theorem ForInit.erase_erase (init : ForInit) : init.erase.erase = init.erase := by
  cases init <;> simp [ForInit.erase, Function.comp_def]

mutual

@[simp] theorem Stmt.erase_erase (s : Stmt) : s.erase.erase = s.erase := by
  cases s with
  | empty => rfl
  | expr | «variables» | ret => simp [Stmt.erase, Function.comp_def]
  | block body => simp [Stmt.erase, Stmt.eraseAll_eraseAll body]
  | ifThen test body => simp [Stmt.erase, Stmt.erase_erase body]
  | ifElse test body other => simp [Stmt.erase, Stmt.erase_erase body, Stmt.erase_erase other]
  | whileLoop test body => simp [Stmt.erase, Stmt.erase_erase body]
  | doLoop body test => simp [Stmt.erase, Stmt.erase_erase body]
  | forLoop init test update body => simp [Stmt.erase, Stmt.erase_erase body, Function.comp_def]
  | function name params body => simp [Stmt.erase, Stmt.eraseAll_eraseAll body, Function.comp_def]

theorem Stmt.eraseAll_eraseAll (list : List Stmt) :
    Stmt.eraseAll (Stmt.eraseAll list) = Stmt.eraseAll list := by
  cases list with
  | nil => rfl
  | cons s rest => simp [Stmt.eraseAll, Stmt.erase_erase s, Stmt.eraseAll_eraseAll rest]

end

/-! ## Equality -/

deriving instance DecidableEq for Number
deriving instance DecidableEq for Literal

mutual

def Expr.same : Expr → Expr → Bool
  | .literal v s, .literal v' s' => v = v' ∧ s = s'
  | .ident id, .ident id' => id = id'
  | .unary op e s, .unary op' e' s' => op = op' ∧ e.same e' ∧ s = s'
  | .binary op l r s, .binary op' l' r' s' => op = op' ∧ l.same l' ∧ r.same r' ∧ s = s'
  | .logical op l r s, .logical op' l' r' s' => op = op' ∧ l.same l' ∧ r.same r' ∧ s = s'
  | .assign op id e s, .assign op' id' e' s' => op = op' ∧ id = id' ∧ e.same e' ∧ s = s'
  | .call f args s, .call f' args' s' => f.same f' ∧ Expr.sameAll args args' ∧ s = s'
  | _, _ => false

def Expr.sameAll : List Expr → List Expr → Bool
  | [], [] => true
  | e :: rest, e' :: rest' => e.same e' && Expr.sameAll rest rest'
  | _, _ => false

end

mutual

theorem Expr.same_iff (e e' : Expr) : e.same e' = true ↔ e = e' := by
  cases e with
  | literal | ident => cases e' <;> simp [Expr.same]
  | unary op e => cases e' <;> simp [Expr.same, e.same_iff]
  | binary op l r | logical op l r => cases e' <;> simp [Expr.same, l.same_iff, r.same_iff]
  | assign op id e => cases e' <;> simp [Expr.same, e.same_iff]
  | call f args => cases e' <;> simp [Expr.same, f.same_iff, Expr.sameAll_iff args]

theorem Expr.sameAll_iff (list list' : List Expr) : Expr.sameAll list list' = true ↔ list = list' := by
  cases list with
  | nil => cases list' <;> simp [Expr.sameAll]
  | cons e rest => cases list' <;> simp [Expr.sameAll, e.same_iff, Expr.sameAll_iff rest]

end

instance : DecidableEq Expr := fun e e' => decidable_of_iff _ (e.same_iff e')

deriving instance DecidableEq for Declaration
deriving instance DecidableEq for ForInit

mutual

def Stmt.same : Stmt → Stmt → Bool
  | .expr e s, .expr e' s' => e = e' ∧ s = s'
  | .variables list s, .variables list' s' => list = list' ∧ s = s'
  | .block body s, .block body' s' => Stmt.sameAll body body' ∧ s = s'
  | .empty s, .empty s' => s = s'
  | .ifThen e b s, .ifThen e' b' s' => e = e' ∧ b.same b' ∧ s = s'
  | .ifElse e b c s, .ifElse e' b' c' s' => e = e' ∧ b.same b' ∧ c.same c' ∧ s = s'
  | .whileLoop e b s, .whileLoop e' b' s' => e = e' ∧ b.same b' ∧ s = s'
  | .doLoop b e s, .doLoop b' e' s' => b.same b' ∧ e = e' ∧ s = s'
  | .forLoop i e u b s, .forLoop i' e' u' b' s' => (i = i' ∧ e = e' ∧ u = u') ∧ b.same b' ∧ s = s'
  | .function id ids body t s, .function id' ids' body' t' s' =>
    (id = id' ∧ ids = ids') ∧ Stmt.sameAll body body' ∧ t = t' ∧ s = s'
  | .ret e s, .ret e' s' => e = e' ∧ s = s'
  | _, _ => false

def Stmt.sameAll : List Stmt → List Stmt → Bool
  | [], [] => true
  | s :: rest, s' :: rest' => s.same s' && Stmt.sameAll rest rest'
  | _, _ => false

end

mutual

theorem Stmt.same_iff (s s' : Stmt) : s.same s' = true ↔ s = s' := by
  cases s with
  | expr | «variables» | empty | ret => cases s' <;> simp [Stmt.same]
  | block body | function _ _ body => cases s' <;> simp [Stmt.same, Stmt.sameAll_iff body, and_assoc]
  | ifThen _ b | whileLoop _ b | doLoop b | forLoop _ _ _ b =>
    cases s' <;> simp [Stmt.same, b.same_iff, and_assoc]
  | ifElse _ b c => cases s' <;> simp [Stmt.same, b.same_iff, c.same_iff]

theorem Stmt.sameAll_iff (list list' : List Stmt) : Stmt.sameAll list list' = true ↔ list = list' := by
  cases list with
  | nil => cases list' <;> simp [Stmt.sameAll]
  | cons s rest => cases list' <;> simp [Stmt.sameAll, s.same_iff, Stmt.sameAll_iff rest]

end

instance : DecidableEq Stmt := fun s s' => decidable_of_iff _ (s.same_iff s')

deriving instance DecidableEq for Program

end Scriptlet
