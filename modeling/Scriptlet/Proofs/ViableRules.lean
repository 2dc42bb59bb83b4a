import Scriptlet.Proofs.ViablePrefixes

/-!
The rules of the grammar on the beginning of a text. Every rule goes on where its parts go on, and what it
has begun can be completed: parentheses and braces are closed, an operand is a name, a statement is empty.
The main result is `viable_statements`.
-/

namespace Scriptlet.Parser

variable {α : Type} {C : Cut} {follow : List TokenType} {room room' : Nat}

/-- How the rooms of the two runs compare. Ten rules lead from an expression down to a name. -/
structure Roomy (C : Cut) (room room' : Nat) : Prop where
  le : room ≤ room'
  exact : C.exact → room' = room
  spare : C.spare → room + 10 ≤ room'

theorem Roomy.pred (h : Roomy C (room + 1) (room' + 1)) : Roomy C room room' where
  le := Nat.le_of_succ_le_succ h.le
  exact hexact := Nat.succ.inj (h.exact hexact)
  spare hspare := by
    have := h.spare hspare
    omega

/-- When the first run has no room left. -/
theorem viable_tooDeep {v : List TokenType} {d : Nat} {y : Nat → Nat → Parse α}
    (hroom : Roomy C 0 room') (hdeep : ∀ n, y n 0 = tooDeep)
    (hfresh : ∀ n room, Fresh v follow (y n (room + 10))) :
    Viable C v d follow tooDeep (fun n => y n room') where
  forward hexact n s := by
    rw [hroom.exact hexact, hdeep]
    exact .deep _
  viableAt s :=
    { goesOn := fun _ _ _ n more ending _ => by
        refine .deep fun hexact => ?_
        rw [hroom.exact hexact, hdeep]
        rfl
      completes := fun _ _ _ _ hlex => nomatch hlex }
  fresh hspare n := by
    obtain ⟨room, rfl⟩ := Nat.exists_eq_add_of_le' (hroom.spare hspare)
    exact hfresh n room

/-! ## Expressions -/

/-- What follows an expression that was completed. -/
def closers : List TokenType := [.semi, .parenEnd]

theorem Level.type_notMem_closers (level : Level) : level.type ∉ closers := by
  cases level <;> decide

section
variable (n room : Nat)

theorem primary_fresh : Fresh [.identifier] follow (primary n (room + 1)) := by
  have hname : Fresh [.identifier] follow identifier := (expect_fresh _).map fun _ => fresh_pure _
  exact Fresh.peek_bind (hname.map fun _ => fresh_pure _)

theorem unary_fresh : Fresh [.identifier] closers (unary n (room + 2)) := by
  refine Fresh.ifAhead_skip ?_ (by decide)
  exact (primary_fresh n room).map (calls_fresh (by decide) n)

theorem ladder_fresh (levels : List Level) :
    Fresh [.identifier] closers (ladder n (room + levels.length + 3) levels) := by
  induction levels with
  | nil => exact unary_fresh n room
  | cons level levels ih =>
    exact ih.map (chain_fresh level.type_notMem_closers n)

theorem expression_fresh : Fresh [.identifier] closers (expression n (room + 10)) := by
  refine (ladder_fresh n room Level.all).map fun left => ?_
  exact (fresh_pure left).ifAhead_skip (by decide)

theorem arguments_fresh :
    Fresh [.parenStart, .parenEnd] follow (arguments n (room + 1)) := by
  have hclose (args : List Expr) : Fresh [.parenEnd] follow
      (expect .parenEnd >>= fun _ => pure args) := (expect_fresh _).map fun _ => fresh_pure _
  refine Fresh.any (fun _ => expect_fresh .parenStart) (fun _ => ?_) (by decide)
  have hnone := Fresh.any (fun _ => fresh_pure []) hclose (by decide)
  exact hnone.ifAhead_take fun _ _ => List.mem_singleton_self _

end

/-- The closing parenthesis. -/
theorem viable_close (value : α) : Viable C [.parenEnd] 1 follow
    (expect .parenEnd >>= fun _ => pure value) (fun _ => expect .parenEnd >>= fun _ => pure value) :=
  (viable_expect _).map fun _ => viable_pure _

/-- The rules for expressions, with the rooms of two runs. -/
structure ViableExpressions (C : Cut) (room room' : Nat) : Prop where
  expression : Viable C [.identifier] 1 closers (expression C.n room) (fun n => expression n room')
  ladder (levels : List Level) (hlevels : levels.length ≤ 6) :
    Viable C [.identifier] 1 closers (ladder C.n room levels) (fun n => ladder n room' levels)
  unary : Viable C [.identifier] 1 closers (unary C.n room) (fun n => unary n room')
  arguments (follow : List TokenType) :
    Viable C [.parenStart, .parenEnd] 1 follow (arguments C.n room) (fun n => arguments n room')
  primary (follow : List TokenType) :
    Viable C [.identifier] 1 follow (primary C.n room) (fun n => primary n room')

namespace ViableExpressions

theorem zero (hroom : Roomy C 0 room') : ViableExpressions C 0 room' where
  expression := viable_tooDeep hroom (fun _ => rfl) expression_fresh
  ladder levels hlevels := by
    refine viable_tooDeep (y := fun n room => Parser.ladder n room levels) hroom (fun _ => rfl)
      fun n room => ?_
    have hfresh := ladder_fresh n (room + 7 - levels.length) levels
    rwa [show room + 7 - levels.length + levels.length + 3 = room + 10 by omega] at hfresh
  unary := viable_tooDeep hroom (fun _ => rfl) fun n room => unary_fresh n (room + 8)
  arguments _ := viable_tooDeep hroom (fun _ => rfl) fun n room => arguments_fresh n (room + 9)
  primary _ := viable_tooDeep hroom (fun _ => rfl) fun n room => primary_fresh n (room + 9)

theorem expression_succ (h : ViableExpressions C room room') :
    Viable C [.identifier] 1 closers (Parser.expression C.n (room + 1))
      (fun n => Parser.expression n (room' + 1)) := by
  refine (h.ladder Level.all (Nat.le_refl _)).map fun left => ?_
  refine viable_ifAhead_of _ ?_ ?_ (viable_pure left) fun _ _ =>
    (fresh_pure left).ifAhead_skip (by decide)
  · intro hexact n s htype
    apply ForwardAt.peek_bind
    cases left with
    | ident target =>
      exact (advance_forward s).bind fun _ s' => (h.expression.forward hexact n s').bind fun _ s' =>
        Lands.bind (x := lastEnd) (.ok rfl (List.Subset.refl _)) fun _ _ =>
          .ok rfl (List.Subset.refl _)
    | literal | unary | binary | logical | assign | call =>
      exact .about ⟨s.lookahead, List.mem_cons_self, htype, rfl⟩
  · intro s htype
    apply ViableAt.peek_bind
    cases left with
    | ident target =>
      have hvalue := h.expression.map fun value => viable_lastEnd_then fun stop =>
        viable_pure (Expr.assign (assignOp s.lookahead.text) target value ⟨target.span.start, stop⟩)
      exact (advance_then_viableAt (fun _ => hvalue.less) (by decide)).le (Nat.zero_le _)
    | literal | unary | binary | logical | assign | call =>
      exact fail_viableAt ⟨s.lookahead, List.mem_cons_self, htype, rfl⟩

theorem ladder_succ (h : ViableExpressions C room room') {levels : List Level}
    (hlevels : levels.length ≤ 6) :
    Viable C [.identifier] 1 closers (Parser.ladder C.n (room + 1) levels)
      (fun n => Parser.ladder n (room' + 1) levels) := by
  cases levels with
  | nil => exact h.unary
  | cons level tighter =>
    have hoperand := h.ladder tighter (Nat.le_of_succ_le hlevels)
    exact hoperand.map (viable_chain hoperand (by decide) level.type_notMem_closers)

theorem unary_succ (h : ViableExpressions C room room') :
    Viable C [.identifier] 1 closers (Parser.unary C.n (room + 1)) (fun n => Parser.unary n (room' + 1)) := by
  have hoperator : Viable C [.additive, .identifier] 1 closers _ _ :=
    (Viable.any (fun _ => viable_advance .additive) (fun operator : Token => h.unary.map fun operand =>
      viable_lastEnd_then fun stop => viable_pure
        (Expr.unary (unaryOp operator.text) operand ⟨operator.start, stop⟩)) (by decide)).le (by decide)
  have hcall := (h.primary closers).map (viable_calls (h.arguments closers) (by decide))
  exact viable_ifAhead _ hoperator hcall (by decide)

theorem arguments_succ (h : ViableExpressions C room room') (follow : List TokenType) :
    Viable C [.parenStart, .parenEnd] 1 follow (Parser.arguments C.n (room + 1))
      (fun n => Parser.arguments n (room' + 1)) := by
  have hclose (args : List Expr) : Viable C [.parenEnd] 1 follow _ _ := viable_close args
  have hitem : Viable C [.identifier] 1 [.parenEnd] _ _ := h.expression.narrow (by decide)
  have hnone := Viable.any (fun _ => viable_pure []) hclose (by decide)
  have hlist := (viable_commaList hitem (by decide) (by decide)).then hclose
    ⟨by decide, fun _ _ => List.mem_singleton_self _⟩
  have hboth := viable_unlessAhead [.parenEnd] hnone (hlist.le (by decide))
    (fun _ _ => List.mem_singleton_self _)
  exact (viable_expect_then _ (fun _ => hboth) (by decide)).le (by decide)

theorem primary_succ (h : ViableExpressions C room room') (follow : List TokenType) :
    Viable C [.identifier] 1 follow (Parser.primary C.n (room + 1))
      (fun n => Parser.primary n (room' + 1)) := by
  have hinner : Viable C [.identifier, .parenEnd] 2 follow _ _ :=
    h.expression.then (fun inner => viable_close inner) ⟨by decide, by simp [closers]⟩
  have hname : Viable C [.identifier] 1 follow _ _ :=
    viable_identifier.map fun name => viable_pure (Expr.ident name)
  have hliteral (value : Literal) : Viable C [.string] 1 follow (literalToken value)
      (fun _ => literalToken value) := viable_literalToken value _
  constructor
  · intro hexact n s
    apply ForwardAt.peek_bind
    split
    · exact (advance_forward s).bind fun _ => hinner.forward hexact n
    · exact hname.forward hexact n s
    · exact numberLiteral_forward ‹_›
    iterate 4 exact (hliteral _).forward hexact n s
    · exact .about ⟨_, List.mem_cons_self, rfl⟩
  · intro s
    apply ViableAt.peek_bind
    split
    · exact (advance_then_viableAt (fun _ => hinner.less) (by decide)).le (by decide)
    · exact hname.viableAt s
    · exact numberLiteral_viableAt ‹_›
    iterate 4 exact (hliteral _).viableAt s
    · exact fail_viableAt ⟨_, List.mem_cons_self, rfl⟩
  · exact fun _ n => primary_fresh n room'

theorem of_room (hroom : Roomy C room room') : ViableExpressions C room room' := by
  induction room generalizing room' with
  | zero => exact .zero hroom
  | succ room ih =>
    obtain ⟨room', rfl⟩ : ∃ k, room' = k + 1 :=
      Nat.exists_eq_add_of_le' (Nat.le_trans (Nat.succ_le_succ (Nat.zero_le room)) hroom.le)
    have h := ih hroom.pred
    exact ⟨h.expression_succ, fun _ => h.ladder_succ, h.unary_succ, h.arguments_succ, h.primary_succ⟩

end ViableExpressions

/-- Expressions are viable. -/
theorem viable_expression (hroom : Roomy C room room') :
    Viable C [.identifier] 1 closers (expression C.n room) (fun n => expression n room') :=
  (ViableExpressions.of_room hroom).expression

/-! ## Declarations, heads and simple statements -/

section
variable (hroom : Roomy C room room')
include hroom

theorem viable_someExpression : Viable C [.identifier] 1 closers (some <$> expression C.n room)
    (fun n => some <$> expression n room') :=
  (viable_expression hroom).map fun e => viable_pure (some e)

theorem viable_declaration : Viable C [.identifier] 1 [.semi] (declaration C.n room)
    (fun n => declaration n room') := by
  refine viable_identifier.map fun id => ?_
  have hend (init : Option Expr) : Viable C [] 0 [.semi] _ _ := viable_lastEnd_then fun stop =>
    viable_pure (⟨id, init, ⟨id.span.start, stop⟩⟩ : Declaration)
  have hvalue : Viable C [.identifier] 1 [.semi] _ _ := (viable_someExpression hroom).narrow (by decide)
  have hinit := Viable.any (fun _ => viable_advance .simpleAssignment) (fun _ => hvalue.map hend)
    (by decide)
  exact viable_ifAhead _ (hinit.le (Nat.zero_le _)) ((viable_pure none).map hend) (by decide)

theorem viable_declarations : Viable C [.keyword .kwLet, .identifier] 1 [.semi]
    (declarations C.n room) (fun n => declarations n room') := by
  have hlist := (viable_commaList (viable_declaration hroom) (by decide) (by decide))
  refine (viable_expect_then _ (fun opening => hlist.map fun list => ?_) (by decide)).le (by decide)
  exact viable_lastEnd_then fun stop => viable_pure (list, (⟨opening.start, stop⟩ : Span))

theorem viable_condition : Viable C [.parenStart, .identifier, .parenEnd] 1 follow
    (condition C.n room) (fun n => condition n room') := by
  have hinner : Viable C [.identifier, .parenEnd] 2 follow _ _ :=
    (viable_expression hroom).then (fun test => viable_close test) ⟨by decide, by simp [closers]⟩
  exact (viable_expect_then _ (fun _ => hinner) (by decide)).le (by decide)

theorem viable_optionalUnless {stop : TokenType} (hstop : stop ∈ closers) : Viable C [] 0 [stop]
    (optionalUnless stop C.n room) (fun n => optionalUnless stop n room') := by
  have hsome : Viable C [.identifier] 1 [stop] _ _ := (viable_someExpression hroom).narrow
    (List.cons_subset.2 ⟨hstop, List.nil_subset _⟩)
  exact viable_unlessAhead _ (viable_pure none) (hsome.le (Nat.zero_le _)) fun _ htype => htype

theorem viable_forInit : Viable C [] 0 [.semi] (forInit C.n room) (fun n => forInit n room') := by
  have hvariables := (viable_declarations hroom).map fun p => viable_pure (some (ForInit.variables p.1 p.2))
  have hvalue : Viable C [.identifier] 1 [.semi] _ _ := (viable_expression hroom).narrow (by decide)
  have hexpr := hvalue.map fun e => viable_pure (some (ForInit.expr e))
  have hsome := viable_ifAhead [.keyword .kwLet] (hvariables.le (Nat.zero_le _))
    (hexpr.le (Nat.zero_le _)) (by decide)
  exact viable_unlessAhead _ (viable_pure none) hsome (by decide)

end

theorem viable_parameters : Viable C [] 0 [.parenEnd] (parameters C.n) (fun n => parameters n) := by
  have hname : Viable C [.identifier] 1 [.parenEnd] _ _ := viable_identifier
  have hlist := viable_commaList hname (by decide) (by decide)
  exact viable_unlessAhead _ (viable_pure []) (hlist.le (Nat.zero_le _)) (by decide)

/-! ## Statements -/

/-- What follows a statement that was completed. -/
def enders : List TokenType := [.curlyEnd, .keyword .kwWhile, .endOfInput]

section
variable (n room : Nat)

theorem statement_fresh : Fresh [.semi] follow (statement n (room + 1)) := by
  have hempty : Fresh [.semi] follow (advance >>= fun t => pure (Stmt.empty t.span)) :=
    (advance_fresh .semi).map fun _ => fresh_pure _
  exact Fresh.peek_bind hempty

theorem block_fresh : Fresh [.curlyStart, .curlyEnd] follow (block n (room + 1)) := by
  refine Fresh.any (fun _ => expect_fresh .curlyStart) (fun opening => ?_) (by decide)
  have hbody : Fresh [] [.curlyEnd] (repeatWhile
      (fun t => t.type != .curlyEnd && t.type != .endOfInput) (statement n room) n) :=
    repeatWhile_fresh (fun t ht => by simp [List.mem_singleton.1 ht]) n
  have hclose (body : List Stmt) : Fresh [.curlyEnd] follow (expect .curlyEnd >>= fun _ =>
      lastEnd >>= fun stop => pure (body, (⟨opening.start, stop⟩ : Span))) :=
    (expect_fresh _).map fun _ => fun _ last _ _ _ => ⟨_, last, rfl⟩
  exact hbody.bind hclose ⟨by decide, fun _ _ => List.mem_singleton_self _⟩

end

/-- The rest of a statement behind the word that opens it. -/
theorem viable_opened {v : List TokenType} {d : Nat} (type : TokenType) {f : Token → Parse α}
    {g : Nat → Token → Parse α}
    (hrest : ∀ opening, Viable C v d follow (f opening) (fun n => g n opening)) (hv : v ⊆ fillers) :
    Viable C (type :: v) 1 follow (advance >>= f) (fun n => advance >>= g n) :=
  (Viable.any (fun _ => viable_advance type) hrest hv).le (Nat.le_add_right 1 d)

/-- The value at the end of a rule may use where the last token ended. -/
theorem viable_spanned (f : Nat → α) : Viable C [] 0 follow (lastEnd >>= fun stop => pure (f stop))
    (fun _ => lastEnd >>= fun stop => pure (f stop)) :=
  viable_lastEnd_then fun stop => viable_pure (f stop)

section
variable (hroom : Roomy C room room')
include hroom

theorem viable_expressionStatement : Viable C [.identifier, .semi] 1 follow
    (expressionStatement C.n room) (fun n => expressionStatement n room') := by
  have hrule (start : Nat) : Viable C [.identifier, .semi] 1 follow _ _ :=
    (viable_expression hroom).then (fun e => viable_terminator.map fun _ =>
      viable_spanned fun stop => Stmt.expr e ⟨start, stop⟩) ⟨by decide, by simp [closers]⟩
  exact viable_peek (fun t => ⟨_, hrule t.start⟩)
    fun hspare n => Fresh.peek_bind ((hrule (filler .identifier).start).fresh hspare n)

theorem viable_variableStatement : Viable C [.keyword .kwLet, .identifier, .semi] 1 follow
    (variableStatement C.n room) (fun n => variableStatement n room') :=
  (viable_declarations hroom).then (fun p => viable_terminator.map fun _ =>
    viable_spanned fun stop => Stmt.variables p.1 ⟨p.2.start, stop⟩) ⟨by decide, by simp⟩

theorem viable_returnStatement : Viable C [.keyword .kwReturn, .semi] 1 follow
    (returnStatement C.n room) (fun n => returnStatement n room') := by
  refine viable_opened (d := 0) _ (fun opening => ?_) (by decide)
  have hend (value : Option Expr) : Viable C [.semi] 0 follow _ _ := viable_terminator.map fun _ =>
    viable_spanned fun stop => Stmt.ret value ⟨opening.start, stop⟩
  have hnone := Viable.any (fun _ => viable_pure none) hend (by decide)
  have hsome := (viable_someExpression hroom).then hend ⟨by decide, by simp [closers]⟩
  exact viable_unlessAhead _ hnone (hsome.le (Nat.zero_le _)) (by simp)

end

/-- The rules for statements, with the rooms of two runs. -/
structure ViableStatements (C : Cut) (room room' : Nat) : Prop where
  statement : Viable C [.semi] 1 enders (statement C.n room) (fun n => statement n room')
  block (follow : List TokenType) :
    Viable C [.curlyStart, .curlyEnd] 1 follow (block C.n room) (fun n => block n room')

namespace ViableStatements

theorem zero (hroom : Roomy C 0 room') : ViableStatements C 0 room' where
  statement := viable_tooDeep hroom (fun _ => rfl) fun n room => statement_fresh n (room + 9)
  block _ := viable_tooDeep hroom (fun _ => rfl) fun n room => block_fresh n (room + 9)

theorem block_succ (h : ViableStatements C room room') (follow : List TokenType) :
    Viable C [.curlyStart, .curlyEnd] 1 follow (Parser.block C.n (room + 1))
      (fun n => Parser.block n (room' + 1)) := by
  have hitem : Viable C [.semi] 1 [.curlyEnd] _ _ := h.statement.narrow (by decide)
  have hbody := viable_repeatWhile (fun t => t.type != .curlyEnd && t.type != .endOfInput) hitem
    fun t ht => by simp [List.mem_singleton.1 ht]
  have hrule (opening : Token) : Viable C [.curlyEnd] 1 follow _ _ := hbody.then (fun body =>
    (viable_expect .curlyEnd).map fun _ => viable_spanned fun stop =>
      (body, (⟨opening.start, stop⟩ : Span))) ⟨by decide, by simp⟩
  exact (viable_expect_then _ hrule (by decide)).le (by decide)

theorem statement_succ (hroom : Roomy C room room') (h : ViableStatements C room room') :
    Viable C [.semi] 1 enders (Parser.statement C.n (room + 1))
      (fun n => Parser.statement n (room' + 1)) := by
  have hempty : Viable C [.semi] 1 enders _ _ :=
    (viable_advance .semi).map fun t => viable_pure (Stmt.empty t.span)
  have hblock := (h.block enders).map fun p => viable_pure (Stmt.block p.1 p.2)
  have hif := viable_opened (.keyword .kwIf) (fun opening => Viable.any (fun _ => viable_condition hroom)
    (fun test => h.statement.map fun consequent => viable_ifAhead [.keyword .kwElse]
      ((viable_opened (.keyword .kwElse) (fun _ => h.statement.map fun alternate => viable_spanned fun stop =>
        Stmt.ifElse test consequent alternate ⟨opening.start, stop⟩) (by decide)).le (Nat.zero_le 1))
      (viable_spanned fun stop => Stmt.ifThen test consequent ⟨opening.start, stop⟩) (by decide))
    (by decide)) (by decide)
  have hwhile := viable_opened (.keyword .kwWhile) (fun opening =>
    Viable.any (fun _ => viable_condition hroom) (fun test => h.statement.map fun body =>
      viable_spanned fun stop => Stmt.whileLoop test body ⟨opening.start, stop⟩) (by decide))
    (by decide)
  have hdo := viable_opened (.keyword .kwDo) (fun opening => h.statement.then (fun body =>
    viable_expect_then (.keyword .kwWhile) (fun _ => Viable.any (fun _ => viable_condition hroom)
      (fun test => viable_terminator.map fun _ => viable_spanned fun stop =>
        Stmt.doLoop body test ⟨opening.start, stop⟩) (by decide)) (by decide))
    (show Joins _ _ enders by decide)) (by decide)
  have hupdate (f : Option Expr → Stmt → Nat → Stmt) : Viable C [.parenEnd, .semi] 2 enders _ _ :=
    (viable_optionalUnless hroom (show .parenEnd ∈ closers by decide)).then (fun update =>
      viable_expect_then .parenEnd (fun _ => h.statement.map fun body =>
        viable_spanned (f update body)) (by decide)) (by decide)
  have htest (f : Option Expr → Option Expr → Stmt → Nat → Stmt) :
      Viable C [.semi, .parenEnd, .semi] 3 enders _ _ :=
    (viable_optionalUnless hroom (show .semi ∈ closers by decide)).then (fun test =>
      viable_expect_then .semi (fun _ => hupdate (f test)) (by decide)) (by decide)
  have hfor := viable_opened (.keyword .kwFor) (fun opening => viable_expect_then .parenStart (fun _ =>
    (viable_forInit hroom).then (fun init => viable_expect_then .semi (fun _ =>
      htest fun test update body stop => .forLoop init test update body ⟨opening.start, stop⟩)
      (by decide)) (by decide)) (by decide)) (by decide)
  have hparams (opening : Token) (name : Ident) : Viable C [.parenEnd, .curlyStart, .curlyEnd] 2 enders
      _ _ := viable_parameters.then (fun params => viable_expect_then .parenEnd (fun _ =>
        (h.block enders).map fun p => viable_spanned fun stop =>
          Stmt.function name params p.1 p.2 ⟨opening.start, stop⟩) (by decide)) (by decide)
  have hdef := viable_opened (.keyword .kwDef) (fun opening => Viable.any (fun _ => viable_identifier)
    (fun name => viable_expect_then .parenStart (fun _ => hparams opening name) (by decide))
    (by decide)) (by decide)
  refine viable_peek (fun t => ?_) fun _ n => statement_fresh n room'
  split
  · exact ⟨_, hempty⟩
  · exact ⟨_, hblock⟩
  · exact ⟨_, viable_variableStatement hroom⟩
  · exact ⟨_, hif⟩
  · exact ⟨_, hwhile⟩
  · exact ⟨_, hdo⟩
  · exact ⟨_, hfor⟩
  · exact ⟨_, hdef⟩
  · exact ⟨_, viable_returnStatement hroom⟩
  · exact ⟨_, viable_expressionStatement hroom⟩

theorem of_room (hroom : Roomy C room room') : ViableStatements C room room' := by
  induction room generalizing room' with
  | zero => exact .zero hroom
  | succ room ih =>
    obtain ⟨room', rfl⟩ : ∃ k, room' = k + 1 :=
      Nat.exists_eq_add_of_le' (Nat.le_trans (Nat.succ_le_succ (Nat.zero_le room)) hroom.le)
    have h := ih hroom.pred
    exact ⟨h.statement_succ hroom.pred, h.block_succ⟩

end ViableStatements

/-- The statements of a program are viable. -/
theorem viable_statements (hroom : Roomy C room room') :
    Viable C [] 0 [.endOfInput] (statements C.n room) (fun n => statements n room') := by
  have hitem : Viable C [.semi] 1 [.endOfInput] _ _ :=
    (ViableStatements.of_room hroom).statement.narrow (by decide)
  exact viable_repeatWhile _ hitem fun t ht => by simp [List.mem_singleton.1 ht]

end Scriptlet.Parser
