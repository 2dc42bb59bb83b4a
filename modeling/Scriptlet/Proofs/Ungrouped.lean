import Mathlib.Algebra.BigOperators.Group.List.Basic
import Mathlib.Algebra.GroupWithZero.Nat
import Mathlib.Data.List.Chain
import Scriptlet.Proofs.Parentheses
import Scriptlet.Proofs.Terminators

/-!
Texts in which nothing is grouped. Calls, conditions, loops and functions open one parenthesis each. The
tokens of a phrase have at least these (`Derives.openings_le`), and if they have no others then none of its
expressions stands in parentheses of its own: no phrase but a condition starts with a parenthesis, and no
operator has one right behind it. Then a node that may only cover its tokens if it starts with the first of
them does so, and is placed tightly (`Derives.tighten`).
-/

namespace Scriptlet

open Scriptlet.Parser (Level)

/-! ## Parentheses that constructs open -/

mutual

/-- How many parentheses the calls in an expression open. -/
@[simp] def Expr.openings : Expr → Nat
  | .literal .. | .ident _ => 0
  | .unary _ e _ | .assign _ _ e _ => e.openings
  | .binary _ left right _ | .logical _ left right _ => left.openings + right.openings
  | .call callee args _ => callee.openings + Expr.openingsAll args + 1

@[simp] def Expr.openingsAll : List Expr → Nat
  | [] => 0
  | e :: rest => e.openings + Expr.openingsAll rest

end

@[simp] def Declaration.openings (d : Declaration) : Nat :=
  d.init.elim 0 Expr.openings

@[simp] def ForInit.openings : ForInit → Nat
  | .variables list _ => (list.map Declaration.openings).sum
  | .expr e => e.openings

mutual

/-- How many parentheses the constructs of a statement open. -/
@[simp] def Stmt.openings : Stmt → Nat
  | .expr e _ => e.openings
  | .variables list _ => (list.map Declaration.openings).sum
  | .block body _ => Stmt.openingsAll body
  | .empty _ => 0
  | .ifThen test body _ | .whileLoop test body _ | .doLoop body test _ =>
    test.openings + body.openings + 1
  | .ifElse test body other _ => test.openings + body.openings + other.openings + 1
  | .forLoop init test update body _ =>
    init.elim 0 ForInit.openings + test.elim 0 Expr.openings + update.elim 0 Expr.openings +
      body.openings + 1
  | .function _ _ body _ _ => Stmt.openingsAll body + 1
  | .ret value _ => value.elim 0 Expr.openings

@[simp] def Stmt.openingsAll : List Stmt → Nat
  | [] => 0
  | s :: rest => s.openings + Stmt.openingsAll rest

end

/-- How many parentheses the constructs of a program open. -/
def Program.openings (p : Program) : Nat :=
  Stmt.openingsAll p.body

/-- How many parentheses the constructs of a phrase open. -/
@[simp] def Phrase.openings : Phrase → Nat
  | .ident _ | .idents _ | .parameters _ | .terminator _ => 0
  | .expr _ e => e.openings
  | .exprs list | .arguments list => Expr.openingsAll list
  | .condition e => e.openings + 1
  | .optional e => e.elim 0 Expr.openings
  | .declaration d => d.openings
  | .declarations list | .variables list _ => (list.map Declaration.openings).sum
  | .forInit init => init.elim 0 ForInit.openings
  | .stmt _ s => s.openings
  | .block list _ | .stmts _ list => Stmt.openingsAll list

/-! ### Without places -/

mutual

@[simp] theorem Expr.openings_erase (e : Expr) : e.erase.openings = e.openings := by
  cases e with
  | literal | ident => rfl
  | unary op e | assign op target e => simp [Expr.erase, Expr.openings_erase e]
  | binary op left right | logical op left right =>
    simp [Expr.erase, Expr.openings_erase left, Expr.openings_erase right]
  | call callee args => simp [Expr.erase, Expr.openings_erase callee, Expr.openingsAll_eraseAll args]

theorem Expr.openingsAll_eraseAll (list : List Expr) :
    Expr.openingsAll (Expr.eraseAll list) = Expr.openingsAll list := by
  cases list with
  | nil => rfl
  | cons e rest => simp [Expr.eraseAll, Expr.openings_erase e, Expr.openingsAll_eraseAll rest]

end

@[simp] theorem Declaration.openings_erase (d : Declaration) : d.erase.openings = d.openings := by
  simp [Declaration.erase, Function.comp_def]

@[simp] theorem ForInit.openings_erase (init : ForInit) : init.erase.openings = init.openings := by
  cases init <;> simp [ForInit.erase, Function.comp_def, -Declaration.openings]

mutual

@[simp] theorem Stmt.openings_erase (s : Stmt) : s.erase.openings = s.openings := by
  cases s with
  | expr | empty | ret => simp [Stmt.erase, Function.comp_def]
  | «variables» => simp [Stmt.erase, Function.comp_def, -Declaration.openings]
  | block body => simp [Stmt.erase, Stmt.openingsAll_eraseAll body]
  | function name params body => simp [Stmt.erase, Stmt.openingsAll_eraseAll body]
  | ifThen test body | whileLoop test body => simp [Stmt.erase, Stmt.openings_erase body]
  | doLoop body test => simp [Stmt.erase, Stmt.openings_erase body]
  | ifElse test body other => simp [Stmt.erase, Stmt.openings_erase body, Stmt.openings_erase other]
  | forLoop init test update body =>
    simp [Stmt.erase, Function.comp_def, Stmt.openings_erase body, -ForInit.openings]

theorem Stmt.openingsAll_eraseAll (list : List Stmt) :
    Stmt.openingsAll (Stmt.eraseAll list) = Stmt.openingsAll list := by
  cases list with
  | nil => rfl
  | cons s rest => simp [Stmt.eraseAll, Stmt.openings_erase s, Stmt.openingsAll_eraseAll rest]

end

/-! ## Parentheses among tokens -/

/-- The tokens have the parentheses that the constructs open. -/
theorem Derives.openings_le {place : Placing} {w : List Token} {phrase : Phrase}
    (h : Derives place w phrase) : phrase.openings ≤ tally .parenStart w := by
  induction h with
  | ident | noParameters | number | string | word | noArguments | absent | noInit | semi | atEnd
  | emptyStmt | noStmts | oneIdent | moreIdents | parameters | name | bare => exact Nat.zero_le _
  | atom _ ih | ofCall _ ih | ofOperand _ ih | ofOr _ ih | oneExpr _ ih | arguments _ ih | present _ ih
  | oneDeclaration _ ih | initVariables _ ih | initExpr _ ih | blockStmt _ ih => exact ih
  | paren _ ih => exact Nat.le_of_succ_le ih
  | _ => simp_all [tally_cons] <;> omega

/-- Parts that have no parentheses too many together have none each. -/
theorem Derives.ungrouped {place : Placing} {w : List Token} {phrase : Phrase} {P Q : Prop} {n k : Nat}
    (h : Derives place w phrase) (ih : tally .parenStart w = phrase.openings → P) (hle : k ≤ n)
    (ih' : n = k → Q) (hu : tally .parenStart w + n = phrase.openings + k) : P ∧ Q := by
  have hle' := h.openings_le
  exact ⟨ih (by omega), ih' (by omega)⟩

/-! ## Parentheses behind operators -/

def operatorTypes : List TokenType :=
  Level.all.map Level.type

/-- No operator has an opening parenthesis right behind it. -/
def Flat (w : List Token) : Prop :=
  w.IsChain fun s t => s.type ∈ operatorTypes → t.type ≠ .parenStart

section
variable {w v : List Token} {t : Token}

theorem flat_nil : Flat [] := List.isChain_nil

theorem flat_singleton : Flat [t] := List.isChain_singleton t

theorem Flat.append (hw : Flat w) (hv : Flat v) (h : headType v .endOfInput ≠ .parenStart) :
    Flat (w ++ v) := by
  refine List.isChain_append.2 ⟨hw, hv, fun s _ t ht _ => ?_⟩
  cases v with
  | nil => cases ht
  | cons u v =>
    cases ht
    exact h

theorem Flat.cons (hv : Flat v) (h : headType v .endOfInput ≠ .parenStart) : Flat (t :: v) :=
  Flat.append (w := [t]) flat_singleton hv h

theorem Flat.mark (hv : Flat v) (ht : t.type ∉ operatorTypes) : Flat (t :: v) :=
  List.isChain_cons.2 ⟨fun _ _ h => absurd h ht, hv⟩

theorem Flat.close (hw : Flat w) (ht : t.type ≠ .parenStart) : Flat (w ++ [t]) :=
  hw.append flat_singleton ht

/-- No expression ends in an operator. -/
theorem Flat.behind (hw : Flat w) (hends : Ends exprEnders w) (hv : Flat v) : Flat (w ++ v) := by
  refine List.isChain_append.2 ⟨hw, hv, fun s hs t _ hop => ?_⟩
  obtain ⟨u, last, rfl, hlast⟩ := hends
  rw [List.getLast?_concat] at hs
  cases hs
  have hdisjoint : ∀ type ∈ exprEnders, type ∉ operatorTypes := by decide
  exact absurd hop (hdisjoint _ hlast)

end

def Phrase.isCondition : Phrase → Bool
  | .condition _ => true
  | _ => false

/-- No operator has a parenthesis right behind it, and only a condition starts with one. -/
def Phrase.Flat (phrase : Phrase) (w : List Token) : Prop :=
  Scriptlet.Flat w ∧ (phrase.isCondition = false → headType w .endOfInput ≠ .parenStart)

section
variable {w v : List Token} {t : Token} {phrase phrase' : Phrase}

theorem Phrase.Flat.headType_append (hw : phrase.Flat w) (hcond : phrase.isCondition = false)
    (hne : w ≠ []) (v : List Token) : headType (w ++ v) .endOfInput ≠ .parenStart := by
  cases w with
  | nil => exact absurd rfl hne
  | cons t w => exact hw.2 hcond

theorem Phrase.Flat.append (hw : phrase.Flat w) (hcond : phrase.isCondition = false) (hne : w ≠ [])
    (hv : Scriptlet.Flat v) (hhead : headType v .endOfInput ≠ .parenStart) :
    Scriptlet.Flat (w ++ v) ∧ headType (w ++ v) .endOfInput ≠ .parenStart :=
  ⟨hw.1.append hv hhead, hw.headType_append hcond hne v⟩

theorem Flat.led {k : Keyword} (hw : Scriptlet.Flat w) (ht : t.type = .keyword k) : Scriptlet.Flat (t :: w) :=
  hw.mark (by rw [ht]; cases k <;> decide)

/-- What a word leads does not start with a parenthesis. -/
theorem Flat.behind_word {k : Keyword} (hw : Scriptlet.Flat (t :: w)) (ht : t.type = .keyword k) :
    phrase.Flat (t :: w) :=
  ⟨hw, fun _ => by rw [headType, ht]; cases k <;> decide⟩

end

/-! ## Nodes over their tokens -/

/-- A node covers its tokens if it starts with the first of them and nothing in it is grouped. -/
def Placing.loose : Placing :=
  fun start w span => start = startOf w → Flat w → span = covered w

section
variable {w v : List Token} {t : Token} {start : Nat} {first span : Span} {phrase phrase' : Phrase}

theorem Placing.tight_of_loose (hs : Placing.loose start w span) (hstart : start = startOf w)
    (hflat : Flat w) :
    Placing.tight start w span := by
  rw [hs hstart hflat, hstart]
  rfl

/-- An expression that does not start with a parenthesis covers its tokens. -/
theorem Derives.lead_covered (h : Derives .loose w phrase) :
    headType w .endOfInput ≠ .parenStart → Flat w → ∀ span ∈ phrase.lead?, span = covered w := by
  induction h with
  | name _ ih | paren _ ih | atom _ ih | ofCall _ ih | ofOperand _ ih | ofOr _ ih => exact ih
  | ident _ hs | number _ _ hs | string _ hs | word _ _ hs | unary _ _ _ hs =>
    rintro - hflat _ ⟨⟩
    exact hs rfl hflat
  | call h _ _ _ hs ih _ | binary h _ _ _ hs ih _ | logical h _ _ _ hs ih _ | assign h _ _ _ hs ih _ =>
    rintro hhead hflat _ ⟨⟩
    obtain ⟨s, u, rfl, -⟩ := h.expr_opens
    have hstart := congrArg Span.start (ih hhead (List.isChain_append.1 hflat).1 _ rfl)
    exact hs hstart hflat
  | condition ht =>
    intro hhead
    exact absurd ht hhead
  | _ => rintro - - _ ⟨⟩

/-- A node that starts with an expression starts with the first token. -/
theorem Derives.tight_lead (h : Derives .loose w phrase) (hw : phrase.Flat w)
    (hcond : phrase.isCondition = false) (hfirst : first ∈ phrase.lead?) (hne : w ≠ [])
    (hs : Placing.loose first.start (w ++ v) span) (hflat : Flat (w ++ v)) :
    Placing.tight first.start (w ++ v) span := by
  refine Placing.tight_of_loose hs ?_ hflat
  rw [h.lead_covered (hw.2 hcond) hw.1 first hfirst, Parser.startOf_append hne]
  rfl

/-- Two phrases with a mark between them. -/
theorem Derives.tighten_between (h : Derives .loose w phrase)
    (ih : tally .parenStart w = phrase.openings → phrase.Flat w ∧ Derives .tight w phrase)
    (ht : t.type ≠ .parenStart) (h' : Derives .loose v phrase')
    (ih' : tally .parenStart v = phrase'.openings → phrase'.Flat v ∧ Derives .tight v phrase')
    (hu : tally .parenStart (w ++ t :: v) = phrase.openings + phrase'.openings)
    (hcond : phrase.isCondition = false) (hcond' : phrase'.isCondition = false) (hne : w ≠ []) :
    (Flat (w ++ t :: v) ∧ headType (w ++ t :: v) .endOfInput ≠ .parenStart) ∧
      Derives .tight w phrase ∧ Derives .tight v phrase' ∧
      ∀ first ∈ phrase.lead?, ∀ span, Placing.loose first.start (w ++ t :: v) span →
        Placing.tight first.start (w ++ t :: v) span := by
  obtain ⟨⟨hw, htight⟩, hv, htight'⟩ := h.ungrouped ih h'.openings_le ih' (by simpa [ht] using hu)
  have hflat := hw.append hcond hne (hv.1.cons (t := t) (hv.2 hcond')) ht
  exact ⟨hflat, htight, htight', fun first hfirst span hs => h.tight_lead hw hcond hfirst hne hs hflat.1⟩

end

theorem flat_token {t : Token} {phrase : Phrase} (ht : t.type ≠ .parenStart) : phrase.Flat [t] :=
  ⟨flat_singleton, fun _ => ht⟩

/-- A phrase without grouping is flat, and its nodes are placed tightly. -/
theorem Derives.tighten {w : List Token} {phrase : Phrase} (h : Derives .loose w phrase) :
    tally .parenStart w = phrase.openings → phrase.Flat w ∧ Derives .tight w phrase := by
  induction h with
  | noParameters | noArguments | absent | noInit | atEnd | noStmts =>
    exact fun _ => ⟨⟨flat_nil, fun _ => by decide⟩, by constructor⟩
  | semi ht => exact fun _ => ⟨flat_token (by simp [ht]), .semi ht⟩
  | ident ht hs | string ht hs | emptyStmt ht hs =>
    refine fun _ => ⟨flat_token (by simp [ht]), ?_⟩
    constructor
    exacts [ht, hs rfl flat_singleton]
  | number ht hn hs | word ht hn hs =>
    refine fun _ => ⟨flat_token (by simp [ht]), ?_⟩
    constructor
    exacts [ht, hn, hs rfl flat_singleton]
  | oneIdent _ ih | parameters _ ih | name _ ih | atom _ ih | ofCall _ ih | ofOperand _ ih | ofOr _ ih
  | oneExpr _ ih | arguments _ ih | present _ ih | oneDeclaration _ ih | initVariables _ ih | initExpr _ ih
  | blockStmt _ ih =>
    intro hu
    refine ⟨(ih hu).1, ?_⟩
    constructor
    exact (ih hu).2
  | paren h _ =>
    intro hu
    exact absurd (hu ▸ h.openings_le) (Nat.not_succ_le_self _)
  | @bare w id span h hs ih =>
    intro hu
    obtain ⟨hflat, htight⟩ := ih hu
    refine ⟨hflat, .bare htight ?_⟩
    rw [← List.append_nil w] at hs ⊢
    exact h.tight_lead hflat rfl rfl (h.opens _ rfl).ne_nil hs (by simpa using hflat.1)
  | call h ht ha hu hs ih iha =>
    intro hopen
    obtain ⟨⟨hw, htight⟩, hv, htight'⟩ := h.ungrouped ih ha.openings_le iha (by simp_all; omega)
    have hne := h.expr_opens.ne_nil
    have hargs := (hv.1.close (by rw [hu]; decide)).mark (by rw [ht]; decide)
    have hflat := hw.1.behind (h.ends _ rfl) hargs
    exact ⟨⟨hflat, fun _ => hw.headType_append rfl hne _⟩,
      .call htight ht htight' hu (h.tight_lead hw rfl rfl hne hs hflat)⟩
  | @unary w t op _ _ ht hx h hs ih =>
    intro hu
    have ht' : t.type ≠ .parenStart := by rw [ht]; cases op <;> decide
    obtain ⟨hw, htight⟩ := ih (by simpa [ht'] using hu)
    have hflat := hw.1.cons (t := t) (hw.2 rfl)
    exact ⟨⟨hflat, fun _ => ht'⟩, .unary ht hx htight (hs rfl hflat)⟩
  | @binary _ _ t op _ _ _ hl ht hx hr hs ihl ihr | @logical _ _ t op _ _ _ hl ht hx hr hs ihl ihr
  | @assign _ _ t op _ _ _ hl ht hx hr hs ihl ihr =>
    intro hu
    have ht' : t.type ≠ .parenStart := by rw [ht]; cases op <;> decide
    obtain ⟨hflat, htight, htight', hspan⟩ := hl.tighten_between ihl ht' hr ihr (by simpa using hu) rfl rfl
      hl.expr_opens.ne_nil
    have hspan := hspan _ rfl _ hs
    refine ⟨hflat.imp id fun h _ => h, ?_⟩
    first
    | exact .binary htight ht hx htight' hspan
    | exact .logical htight ht hx htight' hspan
    | exact .assign htight ht hx htight' hspan
  | initialized h ht he hs ih ihe =>
    intro hu
    obtain ⟨hflat, htight, htight', hspan⟩ := h.tighten_between ih (by rw [ht]; decide) he ihe
      (by simpa using hu) rfl rfl (h.opens _ rfl).ne_nil
    exact ⟨hflat.imp id fun h _ => h, .initialized htight ht htight' (hspan _ rfl _ hs)⟩
  | moreIdents h ht hl ih ihl | moreExprs h ht hl ih ihl | moreDeclarations h ht hl ih ihl =>
    intro hu
    obtain ⟨hflat, htight, htight', -⟩ := h.tighten_between ih (by rw [ht]; decide) hl ihl
      (by simpa using hu) rfl rfl (h.opens _ rfl).ne_nil
    refine ⟨hflat.imp id fun h _ => h, ?_⟩
    constructor
    all_goals assumption
  | condition ht h hu ih =>
    intro hopen
    obtain ⟨hw, htight⟩ := ih (by simpa [ht, hu] using hopen)
    have hflat := (hw.1.close (by rw [hu]; decide)).mark (by rw [ht]; decide)
    exact ⟨⟨hflat, by simp [Phrase.isCondition]⟩, .condition ht htight hu⟩
  | block ht h hu hs ih =>
    intro hopen
    obtain ⟨hw, htight⟩ := ih (by simpa [ht, hu] using hopen)
    have hflat := (hw.1.close (by rw [hu]; decide)).mark (by rw [ht]; decide)
    exact ⟨⟨hflat, fun _ => by simp [headType, ht]⟩, .block ht htight hu (hs rfl hflat)⟩
  | declared ht h hs ih =>
    intro hu
    obtain ⟨hw, htight⟩ := ih (by simpa [ht] using hu)
    have hflat := hw.1.led ht
    exact ⟨hflat.behind_word ht, .declared ht htight (hs rfl hflat)⟩
  | exprStmt h he hs ih ihe | variableStmt h he hs ih ihe =>
    intro hu
    obtain ⟨⟨hw, htight⟩, hv, htight'⟩ := h.ungrouped ih he.openings_le ihe (by simpa using hu)
    have hne := (h.opens _ rfl).ne_nil
    have hflat := hw.append rfl hne hv.1 (hv.2 rfl)
    refine ⟨hflat.imp id fun h _ => h, ?_⟩
    constructor
    exacts [htight, htight', Placing.tight_of_loose hs (Parser.startOf_append hne _).symm hflat.1]
  | moreStmts h he ih ihe =>
    intro hu
    obtain ⟨⟨hw, htight⟩, hv, htight'⟩ := h.ungrouped ih he.openings_le ihe (by simpa using hu)
    have hflat := hw.append rfl (h.opens _ rfl).ne_nil hv.1 (hv.2 rfl)
    exact ⟨hflat.imp id fun h _ => h, .moreStmts htight htight'⟩
  | ifThen ht h hb hn hs ih ihb =>
    intro hu
    obtain ⟨⟨hw, htight⟩, hv, htight'⟩ := h.ungrouped ih hb.openings_le ihb (by simp_all [Nat.add_right_comm])
    have hflat := (hw.1.append hv.1 (hv.2 rfl)).led ht
    exact ⟨hflat.behind_word ht, .ifThen ht htight htight' hn (hs rfl hflat)⟩
  | whileLoop ht h hb hs ih ihb | ret ht h hb hs ih ihb =>
    intro hu
    obtain ⟨⟨hw, htight⟩, hv, htight'⟩ := h.ungrouped ih hb.openings_le ihb (by
      simp_all [Nat.add_right_comm])
    have hflat := (hw.1.append hv.1 (hv.2 rfl)).led ht
    refine ⟨hflat.behind_word ht, ?_⟩
    constructor
    exacts [ht, htight, htight', hs rfl hflat]
  | ifElse ht h hb hu ho hs ih ihb iho =>
    intro hopen
    obtain ⟨⟨htest, htight⟩, ⟨hbody, htight'⟩, hother, htight''⟩ := h.ungrouped ih
      (Nat.add_le_add hb.openings_le ho.openings_le) (hb.ungrouped ihb ho.openings_le iho) (by
      simp [ht, hu] at hopen
      simp
      omega)
    have helse := hother.1.mark (by rw [hu]; decide)
    have hrest := hbody.append rfl hb.stmt_ne_nil helse (by rw [headType, hu]; decide)
    have hflat := (htest.1.append hrest.1 hrest.2).led ht
    exact ⟨hflat.behind_word ht, .ifElse ht htight htight' hu htight'' (hs rfl hflat)⟩
  | doLoop ht hb hu h he hs ihb ih ihe =>
    intro hopen
    obtain ⟨⟨hbody, htight⟩, ⟨htest, htight'⟩, hend, htight''⟩ := hb.ungrouped ihb
      (Nat.add_le_add h.openings_le he.openings_le) (h.ungrouped ih he.openings_le ihe) (by
      simp [ht, hu] at hopen
      simp
      omega)
    have hwhile := (htest.1.append hend.1 (hend.2 rfl)).mark (by rw [hu]; decide)
    have hflat := (hbody.1.append hwhile (by rw [headType, hu]; decide)).led ht
    exact ⟨hflat.behind_word ht, .doLoop ht htight hu htight' htight'' (hs rfl hflat)⟩
  | forLoop ht ha hi hb h hc hu hd hx hs ihi ih ihu ihx =>
    intro hopen
    obtain ⟨⟨hinit, hi'⟩, ⟨htest, h'⟩, ⟨hupdate, hu'⟩, hbody, hx'⟩ := hi.ungrouped ihi
      (Nat.add_le_add h.openings_le (Nat.add_le_add hu.openings_le hx.openings_le)) (h.ungrouped ih
        (Nat.add_le_add hu.openings_le hx.openings_le) (hu.ungrouped ihu hx.openings_le ihx)) (by
      simp [ht, ha, hb, hc, hd] at hopen
      simp
      omega)
    have hlast := hbody.1.mark (by rw [hd]; decide)
    have hlast := (hupdate.1.append hlast (by rw [headType, hd]; decide)).mark (by rw [hc]; decide)
    have hlast := (htest.1.append hlast (by rw [headType, hc]; decide)).mark (by rw [hb]; decide)
    have hlast := (hinit.1.append hlast (by rw [headType, hb]; decide)).mark (by rw [ha]; decide)
    have hflat := hlast.led ht
    exact ⟨hflat.behind_word ht, .forLoop ht ha hi' hb h' hc hu' hd hx' (hs rfl hflat)⟩
  | function ht h ha hp hb hx hs ih ihp ihx =>
    intro hopen
    obtain ⟨⟨hname, h'⟩, ⟨hparams, hp'⟩, hbody, hx'⟩ := h.ungrouped ih
      (Nat.add_le_add hp.openings_le hx.openings_le) (hp.ungrouped ihp hx.openings_le ihx) (by
      simp [ht, ha, hb] at hopen
      simp
      omega)
    have hlast := hbody.1.mark (by rw [hb]; decide)
    have hlast := (hparams.1.append hlast (by rw [headType, hb]; decide)).mark (by rw [ha]; decide)
    have hflat := (hname.1.behind ((h.ends _ rfl).weaken (by decide)) hlast).led ht
    exact ⟨hflat.behind_word ht, .function ht h' ha hp' hb hx' (hs rfl hflat)⟩

end Scriptlet
