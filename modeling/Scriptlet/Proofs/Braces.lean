import Scriptlet.Proofs.Atoms

/-!
Programs that differ in their places and in braces. `Stmt.Like` relates a statement to one with braces
around some of its parts, where only statements that bind no name in their own scope may get braces. What
`Stmt.braced` makes of a statement is of this kind if the statement keeps its scopes.
-/

namespace Scriptlet

/-! ## Likeness of syntax -/

/-- The same expression apart from places. -/
inductive Expr.Like : Expr → Expr → Prop
  | literal (value : Literal) (span span' : Span) : Like (.literal value span) (.literal value span')
  | ident {id id' : Ident} (h : id.name = id'.name) : Like (.ident id) (.ident id')
  | unary {op : UnaryOp} {e e' : Expr} {span span' : Span} (h : Like e e') :
      Like (.unary op e span) (.unary op e' span')
  | binary {op : BinaryOp} {a a' b b' : Expr} {span span' : Span} (ha : Like a a')
      (hb : Like b b') : Like (.binary op a b span) (.binary op a' b' span')
  | logical {op : LogicalOp} {a a' b b' : Expr} {span span' : Span} (ha : Like a a')
      (hb : Like b b') : Like (.logical op a b span) (.logical op a' b' span')
  | assign {op : AssignOp} {id id' : Ident} {e e' : Expr} {span span' : Span}
      (hid : id.name = id'.name) (h : Like e e') :
      Like (.assign op id e span) (.assign op id' e' span')
  | call {e e' : Expr} {args args' : List Expr} {span span' : Span} (h : Like e e')
      (hargs : List.Forall₂ Like args args') : Like (.call e args span) (.call e' args' span')

/-- The same declaration apart from places. -/
def Declaration.Like (d d' : Declaration) : Prop :=
  d.id.name = d'.id.name ∧ Option.Rel Expr.Like d.init d'.init

inductive ForInit.Like : ForInit → ForInit → Prop
  | «variables» {list list' : List Declaration} {span span' : Span}
      (h : List.Forall₂ Declaration.Like list list') :
      Like (.variables list span) (.variables list' span')
  | expr {e e' : Expr} (h : e.Like e') : Like (.expr e) (.expr e')

/-- Whether a statement may bind a name in the scope that it is carried out in. -/
def Stmt.binds : Stmt → Bool
  | .variables .. | .function .. => true
  | .ifThen _ body _ | .whileLoop _ body _ | .doLoop body _ _ => body.binds
  | .ifElse _ consequent alternate _ => consequent.binds || alternate.binds
  | _ => false

/-- The same statement apart from places and from braces around parts that bind no name. -/
inductive Stmt.Like : Stmt → Stmt → Prop
  | expr {e e' : Expr} {span span' : Span} (h : e.Like e') : Like (.expr e span) (.expr e' span')
  | «variables» {list list' : List Declaration} {span span' : Span}
      (h : List.Forall₂ Declaration.Like list list') :
      Like (.variables list span) (.variables list' span')
  | block {body body' : List Stmt} {span span' : Span} (h : List.Forall₂ Like body body') :
      Like (.block body span) (.block body' span')
  | empty (span span' : Span) : Like (.empty span) (.empty span')
  | ifThen {test test' : Expr} {s s' : Stmt} {span span' : Span} (ht : test.Like test')
      (hs : Like s s') : Like (.ifThen test s span) (.ifThen test' s' span')
  | ifElse {test test' : Expr} {s s' other other' : Stmt} {span span' : Span}
      (ht : test.Like test') (hs : Like s s') (ho : Like other other') :
      Like (.ifElse test s other span) (.ifElse test' s' other' span')
  | whileLoop {test test' : Expr} {s s' : Stmt} {span span' : Span} (ht : test.Like test')
      (hs : Like s s') : Like (.whileLoop test s span) (.whileLoop test' s' span')
  | doLoop {test test' : Expr} {s s' : Stmt} {span span' : Span} (hs : Like s s')
      (ht : test.Like test') : Like (.doLoop s test span) (.doLoop s' test' span')
  | forLoop {init init' : Option ForInit} {test test' update update' : Option Expr} {s s' : Stmt}
      {span span' : Span} (hi : Option.Rel ForInit.Like init init')
      (ht : Option.Rel Expr.Like test test') (hu : Option.Rel Expr.Like update update')
      (hs : Like s s') :
      Like (.forLoop init test update s span) (.forLoop init' test' update' s' span')
  | function {name name' : Ident} {params params' : List Ident} {body body' : List Stmt}
      {inner inner' span span' : Span} (hn : name.name = name'.name)
      (hp : List.Forall₂ (fun id id' : Ident => id.name = id'.name) params params')
      (hb : List.Forall₂ Like body body') :
      Like (.function name params body inner span) (.function name' params' body' inner' span')
  | ret {e e' : Option Expr} {span span' : Span} (h : Option.Rel Expr.Like e e') :
      Like (.ret e span) (.ret e' span')
  | braces {s s' : Stmt} {span : Span} (hb : s.binds = false) (h : Like s s') :
      Like s (.block [s'] span)

/-! ## Likeness from erasure -/

theorem Ident.name_of_erase {id id' : Ident} (h : id.erase = id'.erase) : id.name = id'.name := by
  cases id
  cases id'
  simpa [Ident.erase] using h

mutual

/-- Expressions that are the same without places. -/
theorem Expr.like_of_erase {e e' : Expr} (h : e.erase = e'.erase) : e.Like e' := by
  cases e with
  | literal value span =>
    cases e' <;> simp [Expr.erase] at h
    subst h
    exact .literal _ _ _
  | ident id =>
    cases e' <;> simp [Expr.erase] at h
    exact .ident (Ident.name_of_erase h)
  | unary op operand span =>
    cases e' <;> simp [Expr.erase] at h
    obtain ⟨rfl, h⟩ := h
    exact .unary (Expr.like_of_erase h)
  | binary op left right span =>
    cases e' <;> simp [Expr.erase] at h
    obtain ⟨rfl, hl, hr⟩ := h
    exact .binary (Expr.like_of_erase hl) (Expr.like_of_erase hr)
  | logical op left right span =>
    cases e' <;> simp [Expr.erase] at h
    obtain ⟨rfl, hl, hr⟩ := h
    exact .logical (Expr.like_of_erase hl) (Expr.like_of_erase hr)
  | assign op target value span =>
    cases e' <;> simp [Expr.erase] at h
    obtain ⟨rfl, ht, hv⟩ := h
    exact .assign (Ident.name_of_erase ht) (Expr.like_of_erase hv)
  | call callee args span =>
    cases e' <;> simp [Expr.erase] at h
    exact .call (Expr.like_of_erase h.1) (Expr.like_of_eraseAll h.2)

theorem Expr.like_of_eraseAll {list list' : List Expr} (h : Expr.eraseAll list = Expr.eraseAll list') :
    List.Forall₂ Expr.Like list list' := by
  cases list with
  | nil =>
    cases list' with
    | nil => exact .nil
    | cons => cases h
  | cons e rest =>
    cases list' with
    | nil => cases h
    | cons e' rest' =>
      simp only [Expr.eraseAll, List.cons.injEq] at h
      exact .cons (Expr.like_of_erase h.1) (Expr.like_of_eraseAll h.2)

end

/-- Optional parts that are alike if they are the same without places. -/
theorem rel_of_erase {α : Type} {erase : α → α} {like : α → α → Prop}
    (hlike : ∀ {a a'}, erase a = erase a' → like a a') {a a' : Option α}
    (h : a.map erase = a'.map erase) : Option.Rel like a a' := by
  cases a with
  | none =>
    cases a' with
    | none => exact .none
    | some => cases h
  | some a =>
    cases a' with
    | none => cases h
    | some a' => exact .some (hlike (Option.some.inj h))

theorem forall₂_of_erase {α : Type} {erase : α → α} {like : α → α → Prop}
    (hlike : ∀ {a a'}, erase a = erase a' → like a a') {list list' : List α}
    (h : list.map erase = list'.map erase) : List.Forall₂ like list list' := by
  induction list generalizing list' with
  | nil =>
    cases list' with
    | nil => exact .nil
    | cons => cases h
  | cons a list ih =>
    cases list' with
    | nil => cases h
    | cons a' list' =>
      rw [List.map_cons, List.map_cons, List.cons.injEq] at h
      exact .cons (hlike h.1) (ih h.2)

theorem Declaration.like_of_erase {d d' : Declaration} (h : d.erase = d'.erase) : d.Like d' := by
  simp only [Declaration.erase, Declaration.mk.injEq, and_true] at h
  exact ⟨Ident.name_of_erase h.1, rel_of_erase Expr.like_of_erase h.2⟩

theorem ForInit.like_of_erase {init init' : ForInit} (h : init.erase = init'.erase) :
    init.Like init' := by
  cases init with
  | «variables» list span =>
    cases init' <;> simp [ForInit.erase] at h
    exact .variables (forall₂_of_erase Declaration.like_of_erase h)
  | expr e =>
    cases init' <;> simp [ForInit.erase] at h
    exact .expr (Expr.like_of_erase h)

/-! ## Braces that are put where they do not matter -/

mutual

/-- No statement that gets braces binds a name in the scope around them. -/
def Stmt.keepsScopes : Stmt → Bool
  | .block body _ | .function _ _ body _ _ => Stmt.keepAllScopes body
  | .ifThen _ body _ | .whileLoop _ body _ | .doLoop body _ _ | .forLoop _ _ _ body _ =>
    body.keepsScopes
  | .ifElse _ consequent alternate _ =>
    !(consequent.dangles && consequent.binds) && consequent.keepsScopes && alternate.keepsScopes
  | _ => true

def Stmt.keepAllScopes : List Stmt → Bool
  | [] => true
  | s :: rest => s.keepsScopes && Stmt.keepAllScopes rest

end

/-- A statement in braces is erased to one in braces. -/
theorem Stmt.block_of_erase {s s' : Stmt} {span : Span}
    (h : (Stmt.block [s] span).erase = s'.erase) :
    ∃ inner span', s' = .block [inner] span' ∧ s.erase = inner.erase := by
  cases s' <;> simp [Stmt.erase, Stmt.eraseAll] at h
  rename_i body span'
  rw [Stmt.eraseAll_eq_map] at h
  obtain ⟨inner, rfl, hinner⟩ := List.map_eq_singleton_iff.1 h.symm
  exact ⟨inner, span', rfl, hinner.symm⟩

mutual

/-- The braces around a statement do not matter if it keeps its scopes. -/
theorem Stmt.like_of_braced {s s' : Stmt} (hk : s.keepsScopes = true)
    (h : s.braced.erase = s'.erase) : s.Like s' := by
  cases s with
  | expr e span =>
    cases s' <;> simp [Stmt.braced, Stmt.erase] at h
    exact .expr (Expr.like_of_erase h)
  | «variables» list span =>
    cases s' <;> simp [Stmt.braced, Stmt.erase] at h
    exact .variables (forall₂_of_erase Declaration.like_of_erase h)
  | block body span =>
    cases s' <;> simp [Stmt.braced, Stmt.erase] at h
    exact .block (Stmt.like_of_bracedAll hk h)
  | empty span =>
    cases s' <;> simp [Stmt.braced, Stmt.erase] at h
    exact .empty _ _
  | ifThen test body span =>
    cases s' <;> simp [Stmt.braced, Stmt.erase] at h
    exact .ifThen (Expr.like_of_erase h.1) (Stmt.like_of_braced hk h.2)
  | ifElse test body other span =>
    cases s' <;> simp [Stmt.braced, Stmt.erase] at h
    obtain ⟨ht, hb, ho⟩ := h
    rw [Stmt.keepsScopes, Bool.and_eq_true, Bool.and_eq_true, Bool.not_eq_true'] at hk
    refine .ifElse (Expr.like_of_erase ht) ?_ (Stmt.like_of_braced hk.2 ho)
    split at hb
    · rename_i hdangles
      obtain ⟨inner, span', rfl, hinner⟩ := Stmt.block_of_erase hb
      rw [hdangles, Bool.true_and] at hk
      exact .braces hk.1.1 (Stmt.like_of_braced hk.1.2 hinner)
    · exact Stmt.like_of_braced hk.1.2 hb
  | whileLoop test body span =>
    cases s' <;> simp [Stmt.braced, Stmt.erase] at h
    exact .whileLoop (Expr.like_of_erase h.1) (Stmt.like_of_braced hk h.2)
  | doLoop body test span =>
    cases s' <;> simp [Stmt.braced, Stmt.erase] at h
    exact .doLoop (Stmt.like_of_braced hk h.1) (Expr.like_of_erase h.2)
  | forLoop init test update body span =>
    cases s' <;> simp [Stmt.braced, Stmt.erase] at h
    obtain ⟨hi, ht, hu, hb⟩ := h
    exact .forLoop (rel_of_erase ForInit.like_of_erase hi) (rel_of_erase Expr.like_of_erase ht)
      (rel_of_erase Expr.like_of_erase hu) (Stmt.like_of_braced hk hb)
  | function name params body inner span =>
    cases s' <;> simp [Stmt.braced, Stmt.erase] at h
    obtain ⟨hn, hp, hb⟩ := h
    exact .function (Ident.name_of_erase hn) (forall₂_of_erase Ident.name_of_erase hp)
      (Stmt.like_of_bracedAll hk hb)
  | ret value span =>
    cases s' <;> simp [Stmt.braced, Stmt.erase] at h
    exact .ret (rel_of_erase Expr.like_of_erase h)

theorem Stmt.like_of_bracedAll {list list' : List Stmt} (hk : Stmt.keepAllScopes list = true)
    (h : Stmt.eraseAll (Stmt.bracedAll list) = Stmt.eraseAll list') :
    List.Forall₂ Stmt.Like list list' := by
  cases list with
  | nil =>
    cases list' with
    | nil => exact .nil
    | cons => cases h
  | cons s rest =>
    cases list' with
    | nil => cases h
    | cons s' rest' =>
      rw [Stmt.keepAllScopes, Bool.and_eq_true] at hk
      simp only [Stmt.bracedAll, Stmt.eraseAll, List.cons.injEq] at h
      exact .cons (Stmt.like_of_braced hk.1 h.1) (Stmt.like_of_bracedAll hk.2 h.2)

end

end Scriptlet
