import Scriptlet.Proofs.Derivation

/-!
Parentheses in derivations. What derives from tokens has as many opening as closing parentheses, and an
expression that was placed tightly starts behind the parentheses that open in front of it.
-/

namespace Scriptlet

/-- How many of the tokens have a type. -/
def tally (type : TokenType) (w : List Token) : Nat :=
  w.countP fun t => decide (t.type = type)

section
variable {type : TokenType} {t : Token} {w v : List Token}

@[simp] theorem tally_nil : tally type [] = 0 := rfl

@[simp] theorem tally_append : tally type (w ++ v) = tally type w + tally type v :=
  List.countP_append

theorem tally_cons : tally type (t :: w) = tally type w + if t.type = type then 1 else 0 := by
  rw [tally, List.countP_cons]
  simp only [decide_eq_true_eq]
  rfl

@[simp] theorem tally_cons_self (h : t.type = type) : tally type (t :: w) = tally type w + 1 := by
  rw [tally_cons, if_pos h]

@[simp] theorem tally_cons_of_ne (h : t.type ≠ type) : tally type (t :: w) = tally type w := by
  rw [tally_cons, if_neg h, Nat.add_zero]

end

/-- There are as many opening as closing parentheses. -/
def Balanced (w : List Token) : Prop :=
  tally .parenStart w = tally .parenEnd w

instance (w : List Token) : Decidable (Balanced w) :=
  inferInstanceAs (Decidable (_ = _))

/-- What derives from tokens is balanced. -/
theorem Derives.balanced {place : Placing} {w : List Token} {phrase : Phrase}
    (h : Derives place w phrase) : Balanced w := by
  induction h with
  | noParameters | noArguments | absent | noInit | atEnd | noStmts => rfl
  | oneIdent _ ih | parameters _ ih | name _ ih | paren _ ih | atom _ ih | ofCall _ ih
  | ofOperand _ ih | ofOr _ ih | oneExpr _ ih | arguments _ ih | present _ ih | oneDeclaration _ ih
  | initVariables _ ih | initExpr _ ih | blockStmt _ ih | bare _ _ ih => exact ih
  | ident ht | number ht | string ht | word ht | semi ht | emptyStmt ht => simp [Balanced, ht]
  | @unary _ t op _ _ ht | @assign _ _ t op _ _ _ _ ht =>
    cases op <;> simp_all [Balanced, UnaryOp.tokenType, AssignOp.tokenType]
  | @binary _ _ t op _ _ _ _ ht | @logical _ _ t op _ _ _ _ ht =>
    cases op <;> simp_all [Balanced, BinaryOp.level, LogicalOp.level, Parser.Level.type]
  | moreIdents _ ht | moreExprs _ ht | moreDeclarations _ ht | initialized _ ht | declared ht
  | exprStmt | variableStmt | moreStmts | ifThen ht | whileLoop ht | ret ht | ifElse ht _ _ hu
  | doLoop ht _ hu | block ht _ hu | condition ht _ hu | call _ ht _ hu => simp_all [Balanced]
  | forLoop ht ha _ hb _ hc _ hd | function ht _ ha _ hb =>
    simp_all [Balanced]
    omega

def Token.isOpening (t : Token) : Bool :=
  decide (t.type = .parenStart)

section
variable {w : List Token} (hall : ∀ t ∈ w, t.isOpening = true)
include hall

theorem tally_opening : tally .parenStart w = w.length :=
  List.countP_eq_length.2 hall

theorem tally_closing : tally .parenEnd w = 0 := by
  refine List.countP_eq_zero.2 fun t ht => ?_
  simp [of_decide_eq_true (hall t ht)]

end

variable {w : List Token}

theorem Balanced.dropWhile_ne_nil (h : Balanced w) (hw : w ≠ []) :
    w.dropWhile Token.isOpening ≠ [] := by
  intro hnil
  have hwhole : w.takeWhile Token.isOpening = w := by
    simpa [hnil] using List.takeWhile_append_dropWhile (p := Token.isOpening) (l := w)
  have hall : ∀ t ∈ w, t.isOpening = true := by
    rw [← hwhole]
    exact List.all_eq_true.1 List.all_takeWhile
  rw [Balanced, tally_opening hall, tally_closing hall] at h
  exact hw (List.length_eq_zero_iff.1 h)

/-- What stays balanced without the parentheses that open it has none. -/
theorem Balanced.takeWhile_eq_nil (h : Balanced w) (hdrop : Balanced (w.dropWhile Token.isOpening)) :
    w.takeWhile Token.isOpening = [] := by
  have hsplit := List.takeWhile_append_dropWhile (p := Token.isOpening) (l := w)
  have hall : ∀ t ∈ w.takeWhile Token.isOpening, t.isOpening = true :=
    List.all_eq_true.1 List.all_takeWhile
  rw [Balanced, ← hsplit, tally_append, tally_append, hdrop, tally_opening hall,
    tally_closing hall] at h
  exact List.length_eq_zero_iff.1 (by omega)

theorem Balanced.startOf_dropWhile_append (h : Balanced w) (hw : w ≠ []) (v : List Token) :
    startOf ((w ++ v).dropWhile Token.isOpening) = startOf (w.dropWhile Token.isOpening) := by
  have hne := h.dropWhile_ne_nil hw
  rw [List.dropWhile_append, if_neg (by simpa using hne)]
  cases hdrop : w.dropWhile Token.isOpening with
  | nil => exact absurd hdrop hne
  | cons t u => rfl

/-- The span of what a phrase is, if it is an expression. -/
def Phrase.lead? : Phrase → Option Span
  | .ident id => some id.span
  | .expr _ e | .condition e => some e.span
  | _ => none

/-- An expression starts behind the parentheses that open in front of it. -/
theorem Derives.lead_start {phrase : Phrase} (h : Derives .tight w phrase) :
    ∀ span ∈ phrase.lead?, span.start = startOf (w.dropWhile Token.isOpening) := by
  induction h with
  | name _ ih | paren _ ih | atom _ ih | ofCall _ ih | ofOperand _ ih | ofOr _ ih => exact ih
  | ident ht hs | number ht _ hs | string ht hs | word ht _ hs =>
    rintro _ ⟨⟩
    cases hs
    rw [List.dropWhile_cons_of_neg (by simp [Token.isOpening, ht])]
    rfl
  | @unary _ t op _ _ ht _ _ hs =>
    rintro _ ⟨⟩
    cases hs
    rw [List.dropWhile_cons_of_neg (by cases op <;> simp [Token.isOpening, ht, UnaryOp.tokenType])]
    rfl
  | call h _ _ _ hs ih _ | binary h _ _ _ hs ih _ | logical h _ _ _ hs ih _ | assign h _ _ _ hs ih _ =>
    rintro _ ⟨⟩
    cases hs
    exact (ih _ rfl).trans (h.balanced.startOf_dropWhile_append h.expr_opens.ne_nil _).symm
  | @condition w t u e ht h _ ih =>
    rintro _ ⟨⟩
    rw [List.dropWhile_cons_of_pos (p := Token.isOpening) (decide_eq_true ht)]
    exact (ih _ rfl).trans (h.balanced.startOf_dropWhile_append h.expr_opens.ne_nil _).symm
  | _ => rintro _ ⟨⟩

end Scriptlet
