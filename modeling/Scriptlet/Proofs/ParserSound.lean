import Scriptlet.Proofs.Rooms

/-!
The descent parser is sound: what it makes of tokens derives from the tokens that it took, in the room that
it had, with every node placed from the start of its first part to the end of its last token.

The parser tells operators apart by their texts and takes the last one for granted, so its tokens
have to be `Regular`: a token of an operator has the text of one of the operators of its type.
-/

namespace Scriptlet

open Scriptlet.Parser (Level)

/-- The texts of the operators of a type of token. -/
def TokenType.operators : TokenType → List String
  | .equality => ["==", "!="]
  | .simpleAssignment => ["="]
  | .complexAssignment => ["+=", "-=", "*=", "/="]
  | .additive => ["+", "-"]
  | .multiplicative => ["*", "/"]
  | .relational => ["<", ">", "<=", ">="]
  | .logicalAnd => ["&&"]
  | .logicalOr => ["||"]
  | .logicalNot => ["!"]
  | _ => []

/-- A token that is not the end of the input, and an operator only with the text of one. -/
structure Token.Regular (t : Token) : Prop where
  ne_end : t.type ≠ .endOfInput
  text_mem : t.type.operators ≠ [] → t.text ∈ t.type.operators

namespace Parser

/-! ## Operators by their texts -/

/-- The node that a layer builds is one of an operator of the layer with the given text. -/
theorem build_regular {t : Token} {level : Level} (ht : t.Regular) (hl : t.type = level.type) :
    (∃ op : BinaryOp, op.level = level ∧ t.text = op.symbol ∧
      ∀ a b span, level.build t.text a b span = .binary op a b span) ∨
    (∃ op : LogicalOp, op.level = level ∧ t.text = op.symbol ∧
      ∀ a b span, level.build t.text a b span = .logical op a b span) := by
  have hm := ht.text_mem
  rw [hl] at hm
  cases level <;> simp only [Level.type, TokenType.operators, ne_eq, reduceCtorEq, not_false_eq_true,
    List.mem_cons, List.not_mem_nil, or_false, forall_const] at hm
  · exact .inr ⟨.or, rfl, hm, fun _ _ _ => rfl⟩
  · exact .inr ⟨.and, rfl, hm, fun _ _ _ => rfl⟩
  · rcases hm with h | h
    · exact .inl ⟨.equal, rfl, h, by simp [Level.build, h]⟩
    · exact .inl ⟨.notEqual, rfl, h, by simp [Level.build, h]⟩
  · rcases hm with h | h | h | h
    · exact .inl ⟨.less, rfl, h, by simp [Level.build, h]⟩
    · exact .inl ⟨.greater, rfl, h, by simp [Level.build, h]⟩
    · exact .inl ⟨.lessEqual, rfl, h, by simp [Level.build, h]⟩
    · exact .inl ⟨.greaterEqual, rfl, h, by simp [Level.build, h]⟩
  · rcases hm with h | h
    · exact .inl ⟨.add, rfl, h, by simp [Level.build, h]⟩
    · exact .inl ⟨.sub, rfl, h, by simp [Level.build, h]⟩
  · rcases hm with h | h
    · exact .inl ⟨.mul, rfl, h, by simp [Level.build, h]⟩
    · exact .inl ⟨.div, rfl, h, by simp [Level.build, h]⟩

theorem assignOp_regular {t : Token} (ht : t.Regular)
    (hl : t.type ∈ [TokenType.simpleAssignment, .complexAssignment]) :
    t.type = (assignOp t.text).tokenType ∧ t.text = (assignOp t.text).symbol := by
  have hm := ht.text_mem
  simp only [List.mem_cons, List.not_mem_nil, or_false] at hl
  rcases hl with hl | hl
  · rw [hl] at hm ⊢
    have h : t.text = "=" := by simpa [TokenType.operators] using hm
    rw [h]
    exact ⟨rfl, rfl⟩
  · rw [hl] at hm ⊢
    have h : t.text = "+=" ∨ t.text = "-=" ∨ t.text = "*=" ∨ t.text = "/=" := by
      simpa [TokenType.operators] using hm
    rcases h with h | h | h | h <;> rw [h] <;> decide

theorem unaryOp_regular {t : Token} (ht : t.Regular)
    (hl : t.type ∈ [TokenType.additive, .logicalNot]) :
    t.type = (unaryOp t.text).tokenType ∧ t.text = (unaryOp t.text).symbol := by
  have hm := ht.text_mem
  simp only [List.mem_cons, List.not_mem_nil, or_false] at hl
  rcases hl with hl | hl
  · rw [hl] at hm ⊢
    have h : t.text = "+" ∨ t.text = "-" := by simpa [TokenType.operators] using hm
    rcases h with h | h <;> rw [h] <;> decide
  · rw [hl] at hm ⊢
    have h : t.text = "!" := by simpa [TokenType.operators] using hm
    rw [h]
    decide

/-! ## Soundness of one parser -/

attribute [local simp] Placing.tight startOf endOf endOf_append stateAt

/-- What is known of the tokens in front of the parser: they are regular and fewer than the rounds
that a repetition may take. -/
structure Input (n : Nat) (eof : Token) (w : List Token) : Prop where
  eof_type : eof.type = .endOfInput
  regular : ∀ t ∈ w, t.Regular
  short : w.length < n

theorem Input.right {n : Nat} {eof : Token} {w v : List Token} (h : Input n eof (w ++ v)) :
    Input n eof v where
  eof_type := h.eof_type
  regular t ht := h.regular t (List.mem_append_right w ht)
  short := by
    have := h.short
    rw [List.length_append] at this
    omega

theorem Input.tail {n : Nat} {eof t : Token} {w : List Token} (h : Input n eof (t :: w)) :
    Input n eof w :=
  h.right (w := [t])

/-- The parser takes tokens from the front and gives a phrase that they derive in the room; the phrase may
depend on the type of the token behind them. -/
def Sound {α : Type} (n room : Nat) (p : Parse α) (phrase : TokenType → α → Phrase) : Prop :=
  ∀ ⦃eof : Token⦄ ⦃last : Nat⦄ ⦃w : List Token⦄ ⦃a : α⦄ ⦃s : State⦄, Input n eof w →
    p (stateAt eof last w) = .ok (a, s) →
    ∃ u v, w = u ++ v ∧ s = stateAt eof (endOf last u) v ∧
      Fits .tight room u (phrase (headType v .endOfInput) a)

section
variable {α β : Type} {n room last : Nat} {eof : Token} {w : List Token} {a b : α} {s : State}

theorem sound_of_tooDeep {phrase : TokenType → α → Phrase} : Sound n room tooDeep phrase := by
  intro eof last w a s _ h
  cases h

/-- Behind a sound parser comes the rest of the tokens. -/
theorem Sound.bind {x : Parse β} {f : β → Parse α} {phrase : TokenType → β → Phrase}
    (hx : Sound n room x phrase) (hin : Input n eof w)
    (h : (x >>= f) (stateAt eof last w) = .ok (a, s)) :
    ∃ b u v, w = u ++ v ∧ Input n eof v ∧ Fits .tight room u (phrase (headType v .endOfInput) b) ∧
      f b (stateAt eof (endOf last u) v) = .ok (a, s) := by
  obtain ⟨b, _, hb, h⟩ := bind_eq_ok.1 h
  obtain ⟨u, v, rfl, rfl, hu⟩ := hx hin hb
  exact ⟨b, u, v, rfl, hin.right, hu, h⟩

theorem Input.expect {type : TokenType} {f : Token → Parse α} (hin : Input n eof w)
    (htype : type ≠ .endOfInput) (h : (expect type >>= f) (stateAt eof last w) = .ok (a, s)) :
    ∃ t v, w = t :: v ∧ t.type = type ∧ Input n eof v ∧ f t (stateAt eof t.stop v) = .ok (a, s) := by
  obtain ⟨t, _, ht, h⟩ := bind_eq_ok.1 h
  obtain ⟨v, rfl, htype, rfl⟩ := expect_eq_ok (by rw [hin.eof_type]; exact htype) ht
  exact ⟨t, v, rfl, htype, hin.tail, h⟩

/-- Either a token of one of the types is ahead, or none. -/
theorem Input.ahead {types : List TokenType} {x y : Parse α} (hin : Input n eof w)
    (hend : .endOfInput ∉ types)
    (h : (ahead types >>= fun b => if b = true then x else y) (stateAt eof last w) = .ok (a, s)) :
    (∃ t v, w = t :: v ∧ t.type ∈ types ∧ x (stateAt eof last (t :: v)) = .ok (a, s)) ∨
      headType w .endOfInput ∉ types ∧ y (stateAt eof last w) = .ok (a, s) := by
  by_cases htype : headType w .endOfInput ∈ types
  · rw [ahead_of_mem (by rwa [hin.eof_type])] at h
    obtain ⟨t, v, rfl, ht⟩ := opens_of_headType_mem htype hend
    exact .inl ⟨t, v, rfl, ht, h⟩
  · rw [ahead_of_notMem (by rwa [hin.eof_type])] at h
    exact .inr ⟨htype, h⟩

end

variable {n room : Nat}

theorem identifier_sound : Sound n room identifier fun _ id => .ident id := by
  intro eof last w id s hin h
  obtain ⟨t, v, rfl, htype, -, h⟩ := hin.expect (by decide) h
  cases h
  exact ⟨[t], v, rfl, rfl, .ident htype rfl⟩

theorem terminator_sound : Sound n room terminator fun next _ => .terminator next := by
  intro eof last w a s hin h
  by_cases hend : headType w .endOfInput = .endOfInput
  · rw [terminator, bind_of_ok (ahead_stateAt _ _), hin.eof_type, hend] at h
    cases h
    refine ⟨[], w, rfl, rfl, ?_⟩
    rw [hend]
    exact .atEnd
  · rw [terminator, bind_of_ok (ahead_stateAt _ _), hin.eof_type] at h
    simp only [List.mem_singleton, hend, decide_false, Bool.false_eq_true, ↓reduceIte] at h
    obtain ⟨t, v, rfl, htype, -, h⟩ := hin.expect (by decide) h
    cases h
    exact ⟨[t], v, rfl, rfl, .semi htype⟩

/-! ## Repetitions -/

section
variable {α : Type} {item : Parse α} {one : α → Phrase} {many : List α → Phrase}
  (hone : ∀ {w a}, Fits .tight room w (one a) → Fits .tight room w (many [a]))
  (hmore : ∀ {w v t a list}, Fits .tight room w (one a) → t.type = .comma →
    Fits .tight room v (many list) → Fits .tight room (w ++ t :: v) (many (a :: list)))
  (hitem : Sound n room item fun _ => one)
include hone hmore hitem

/-- Items behind commas, in front of a phrase of the items before them. -/
theorem commas_sound (k : Nat) :
    ∀ ⦃eof last w list s⦄, Input n eof w →
      repeatWhile (·.type = .comma) (do let _ ← expect .comma; item) k (stateAt eof last w) =
        .ok (list, s) →
      ∃ u v, w = u ++ v ∧ s = stateAt eof (endOf last u) v ∧
        ∀ x a, Fits .tight room x (one a) → Fits .tight room (x ++ u) (many (a :: list)) := by
  induction k with
  | zero =>
    intro eof last w list s _ h
    cases h
    exact ⟨[], w, rfl, rfl, fun x a hx => by simpa using hone hx⟩
  | succ k ih =>
    intro eof last w list s hin h
    rw [repeatWhile, peek_bind] at h
    split at h
    · obtain ⟨first, s₁, hfirst, h⟩ := bind_eq_ok.1 h
      obtain ⟨t, w, rfl, htype, hin, hfirst⟩ := hin.expect (by decide) hfirst
      obtain ⟨u, v, rfl, rfl, hu⟩ := hitem hin hfirst
      obtain ⟨others, s₂, hothers, h⟩ := bind_eq_ok.1 h
      obtain ⟨u', v, rfl, rfl, hu'⟩ := ih hin.right hothers
      cases h
      refine ⟨t :: (u ++ u'), v, by simp, by simp, fun x a hx => ?_⟩
      exact hmore hx htype (hu' u first hu)
    · cases h
      exact ⟨[], w, rfl, rfl, fun x a hx => by simpa using hone hx⟩

theorem commaList_sound (k : Nat) : Sound n room (commaList k item) fun _ => many := by
  intro eof last w list s hin h
  obtain ⟨first, u, v, rfl, hin, hu, h⟩ := hitem.bind hin h
  obtain ⟨others, s₂, hothers, h⟩ := bind_eq_ok.1 h
  obtain ⟨u', v, rfl, rfl, hu'⟩ := commas_sound hone hmore hitem k hin hothers
  cases h
  exact ⟨u ++ u', v, by simp, by simp, hu' u first hu⟩

end

/-- Statements up to a token that ends them. As every statement takes a token, the rounds do not
run out before the tokens do. -/
theorem repeatWhile_sound {go : Token → Bool} {item : Parse Stmt} (hitem : Sound n room item .stmt)
    (k : Nat) :
    ∀ ⦃eof last w list s⦄, Input n eof w → w.length < k →
      repeatWhile go item k (stateAt eof last w) = .ok (list, s) →
      ∃ u v, w = u ++ v ∧ s = stateAt eof (endOf last u) v ∧ go (v.headD eof) = false ∧
        Fits .tight room u (.stmts (headType v .endOfInput) list) := by
  induction k with
  | zero =>
    intro eof last w list s _ hk
    omega
  | succ k ih =>
    intro eof last w list s hin hk h
    rw [repeatWhile, peek_bind] at h
    split at h
    · obtain ⟨first, u, v, rfl, hin, hu, h⟩ := hitem.bind hin h
      obtain ⟨others, s₂, hothers, h⟩ := bind_eq_ok.1 h
      have hpos := List.length_pos_iff.2 hu.derives.stmt_ne_nil
      rw [List.length_append] at hk
      obtain ⟨u', v, rfl, rfl, hgo, hu'⟩ := ih hin (by omega) hothers
      cases h
      refine ⟨u ++ u', v, by simp, by simp, hgo, ?_⟩
      rw [headType_append] at hu
      exact .moreStmts hu hu'
    · rename_i hgo
      cases h
      exact ⟨[], w, rfl, rfl, by simpa using hgo, .noStmts⟩

/-- Operators of a layer with their operands, behind a first operand. -/
theorem chain_sound {operand : Parse Expr} {level : Level}
    (hop : Sound n room operand fun _ e => .expr (.operand level) e) (k : Nat) :
    ∀ ⦃eof last w left e s x⦄, Input n eof w →
      Fits .tight (room + 1) x (.expr (.binary level) left) →
      chain operand level k left (stateAt eof last w) = .ok (e, s) →
      ∃ u v, w = u ++ v ∧ s = stateAt eof (endOf last u) v ∧
        Fits .tight (room + 1) (x ++ u) (.expr (.binary level) e) := by
  induction k with
  | zero =>
    intro eof last w left e s x _ hx h
    cases h
    exact ⟨[], w, rfl, rfl, by simpa using hx⟩
  | succ k ih =>
    intro eof last w left e s x hin hx h
    rcases hin.ahead (by cases level <;> decide) h with ⟨t, w, rfl, ht, h⟩ | ⟨-, h⟩
    · rw [advance_bind] at h
      obtain ⟨right, u, v, rfl, hin', hu, h⟩ := hop.bind hin.tail h
      rw [lastEnd_bind] at h
      have ht : t.type = level.type := by simpa using ht
      have hplace : Placing.tight left.span.start (x ++ t :: u)
          ⟨left.span.start, endOf t.stop u⟩ := by
        simp [Placing.tight, endOf_append, endOf]
      have hnode : Fits .tight (room + 1) (x ++ t :: u) (.expr (.binary level)
          (level.build t.text left right ⟨left.span.start, endOf t.stop u⟩)) := by
        rcases build_regular (hin.regular t (by simp)) ht with
          ⟨op, rfl, hsym, hbuild⟩ | ⟨op, rfl, hsym, hbuild⟩
        · rw [hbuild]
          exact .binary hx ht hsym hu hplace
        · rw [hbuild]
          exact .logical hx ht hsym hu hplace
      obtain ⟨u', v, rfl, rfl, hu'⟩ := ih hin' hnode h
      exact ⟨t :: (u ++ u'), v, by simp, by simp, by simpa using hu'⟩
    · cases h
      exact ⟨[], w, rfl, rfl, by simpa using hx⟩

/-- Soundness of a parser for arguments in parentheses. -/
def ArgumentsSound (n room : Nat) (p : Parse (List Expr)) : Prop :=
  ∀ ⦃eof last w list s⦄, Input n eof w → p (stateAt eof last w) = .ok (list, s) →
    ∃ r t u u' v, room = r + 1 ∧ w = t :: (u ++ u' :: v) ∧ s = stateAt eof u'.stop v ∧
      t.type = .parenStart ∧ Fits .tight r u (.arguments list) ∧ u'.type = .parenEnd

/-- Lists of arguments behind a callee. -/
theorem calls_sound {arguments : Parse (List Expr)} (hargs : ArgumentsSound n room arguments)
    (k : Nat) :
    ∀ ⦃eof last w callee e s x⦄, Input n eof w → Fits .tight room x (.expr .call callee) →
      calls arguments k callee (stateAt eof last w) = .ok (e, s) →
      ∃ u v, w = u ++ v ∧ s = stateAt eof (endOf last u) v ∧
        Fits .tight room (x ++ u) (.expr .call e) := by
  induction k with
  | zero =>
    intro eof last w callee e s x _ hx h
    cases h
    exact ⟨[], w, rfl, rfl, by simpa using hx⟩
  | succ k ih =>
    intro eof last w callee e s x hin hx h
    rcases hin.ahead (by decide) h with ⟨t, w, rfl, -, h⟩ | ⟨-, h⟩
    · obtain ⟨args, s₁, hs, h⟩ := bind_eq_ok.1 h
      obtain ⟨room, t, u, u', v, rfl, hw, rfl, ht, hu, hu'⟩ := hargs hin hs
      rw [hw] at hin ⊢
      have hcall := @Fits.call _ _ _ _ _ _ _ _ ⟨callee.span.start, u'.stop⟩ hx ht hu hu'
        (by simp)
      obtain ⟨w', v, rfl, rfl, hw'⟩ := ih (hin.tail.right.tail) hcall h
      refine ⟨t :: (u ++ u' :: w'), v, by simp, by simp, ?_⟩
      simpa using hw'
    · cases h
      exact ⟨[], w, rfl, rfl, by simpa using hx⟩

/-! ## Expressions -/

section
variable {eof : Token} {last : Nat} {w : List Token}

theorem expression_sound
    (hladder : Sound n room (ladder n room Level.all) fun _ => .expr (.binary .or))
    (hexpr : Sound n room (expression n room) fun _ => .expr .assignment) :
    Sound n (room + 1) (expression n (room + 1)) fun _ => .expr .assignment := by
  intro eof last w e s hin h
  rw [expression] at h
  obtain ⟨left, u, v, rfl, hin', hu, h⟩ := hladder.bind hin h
  rcases hin'.ahead (by decide) h with ⟨t, v, rfl, ht, h⟩ | ⟨-, h⟩
  · rw [peek_bind] at h
    cases left with
    | ident target =>
      simp only [List.headD_cons, advance_bind] at h
      obtain ⟨value, u', v, rfl, -, hu', h⟩ := hexpr.bind hin'.tail h
      cases h
      obtain ⟨hop, hsym⟩ := assignOp_regular (hin.regular t (by simp)) ht
      exact ⟨u ++ t :: u', v, by simp, by simp,
        .assign hu hop hsym hu' (by simp)⟩
    | literal | unary | binary | logical | assign | call => simp at h
  · cases h
    exact ⟨u, v, rfl, rfl, .ofOr hu⟩

theorem ladder_sound {level : Level}
    (hop : Sound n room (ladder n room (tighter level)) fun _ => .expr (.operand level)) :
    Sound n (room + 1) (ladder n (room + 1) (level :: tighter level)) fun _ =>
      .expr (.binary level) := by
  intro eof last w e s hin h
  rw [ladder] at h
  obtain ⟨left, u, v, rfl, hin, hu, h⟩ := hop.bind hin h
  obtain ⟨u', v, rfl, rfl, hu'⟩ := chain_sound hop n hin (.ofOperand hu) h
  exact ⟨u ++ u', v, by simp, by simp, hu'⟩

theorem unary_sound (hunary : Sound n (room + 1) (unary n room) fun _ => .expr .unary)
    (hprimary : Sound n room (primary n room) fun _ => .expr .primary)
    (hargs : ArgumentsSound n room (arguments n room)) :
    Sound n (room + 2) (unary n (room + 1)) fun _ => .expr .unary := by
  intro eof last w e s hin h
  rw [unary] at h
  rcases hin.ahead (by decide) h with ⟨t, w, rfl, ht, h⟩ | ⟨-, h⟩
  · rw [advance_bind] at h
    obtain ⟨operand, u, v, rfl, -, hu, h⟩ := hunary.bind hin.tail h
    cases h
    obtain ⟨hop, hsym⟩ := unaryOp_regular (hin.regular t (by simp)) ht
    exact ⟨t :: u, v, by simp, by simp, .unary hop hsym hu rfl⟩
  · obtain ⟨callee, u, v, rfl, hin, hu, h⟩ := hprimary.bind hin h
    obtain ⟨u', v, rfl, rfl, hu'⟩ := calls_sound hargs n hin (.atom hu) h
    exact ⟨u ++ u', v, by simp, by simp, .ofCall hu'⟩

theorem arguments_sound (hexpr : Sound n room (expression n room) fun _ => .expr .assignment) :
    ArgumentsSound n (room + 1) (arguments n (room + 1)) := by
  intro eof last w list s hin h
  rw [arguments] at h
  obtain ⟨t, w, rfl, htype, hin, h⟩ := hin.expect (by decide) h
  rcases hin.ahead (by decide) h with ⟨_, _, rfl, -, h⟩ | ⟨-, h⟩
  · rw [pure_bind] at h
    obtain ⟨u, v, hw, hutype, -, h⟩ := hin.expect (by decide) h
    cases h
    exact ⟨room, t, [], u, v, rfl, by rw [hw]; rfl, rfl, htype, .noArguments, hutype⟩
  · obtain ⟨list', x, v, rfl, hin, hx, h⟩ :=
      (commaList_sound .oneExpr .moreExprs hexpr n).bind hin h
    obtain ⟨u, v, rfl, hutype, -, h⟩ := hin.expect (by decide) h
    cases h
    exact ⟨room, t, x, u, v, rfl, rfl, rfl, htype, .arguments hx, hutype⟩

/-- A literal of one token. -/
theorem literalToken_sound {value : Literal} {t : Token} {e : Expr} {s : State}
    (hd : Fits .tight room [t] (.expr .primary (.literal value t.span)))
    (h : literalToken value (stateAt eof last (t :: w)) = .ok (e, s)) :
    s = stateAt eof t.stop w ∧ Fits .tight room [t] (.expr .primary e) := by
  rw [literalToken, advance_bind] at h
  cases h
  exact ⟨rfl, hd⟩

theorem numberLiteral_sound {t : Token} {e : Expr} {s : State} (ht : t.type = .number)
    (h : numberLiteral (stateAt eof last (t :: w)) = .ok (e, s)) :
    s = stateAt eof t.stop w ∧ Fits .tight (room + 1) [t] (.expr .primary e) := by
  rw [numberLiteral, advance_bind] at h
  cases hn : Number.read t.text with
  | error e => simp [hn] at h
  | ok n =>
    simp only [hn] at h
    cases h
    exact ⟨rfl, .number ht hn rfl⟩

theorem primary_sound (hexpr : Sound n room (expression n room) fun _ => .expr .assignment) :
    Sound n (room + 1) (primary n (room + 1)) fun _ => .expr .primary := by
  intro eof last w e s hin h
  rw [primary, peek_bind] at h
  cases w with
  | nil => simp [hin.eof_type] at h
  | cons t w =>
    simp only [List.headD_cons] at h
    cases htype : t.type with
    | parenStart =>
      simp only [htype, advance_bind] at h
      obtain ⟨inner, u, v, rfl, hin, hu, h⟩ := hexpr.bind hin.tail h
      obtain ⟨u', v, rfl, hutype, -, h⟩ := hin.expect (by decide) h
      cases h
      exact ⟨t :: (u ++ [u']), v, by simp, by simp,
        .paren (.condition htype hu hutype)⟩
    | identifier =>
      simp only [htype] at h
      obtain ⟨id, u, v, hw, -, hu, h⟩ := identifier_sound.bind hin h
      cases h
      exact ⟨u, v, hw, rfl, .name hu⟩
    | number =>
      simp only [htype] at h
      obtain ⟨rfl, hd⟩ := numberLiteral_sound htype h
      exact ⟨[t], w, rfl, rfl, hd⟩
    | string =>
      simp only [htype] at h
      obtain ⟨rfl, hd⟩ := literalToken_sound (.string htype rfl) h
      exact ⟨[t], w, rfl, rfl, hd⟩
    | keyword k =>
      cases hk : k.literal? with
      | none => cases k <;> simp [htype, Keyword.literal?] at h hk
      | some value =>
        have h : literalToken value (stateAt eof last (t :: w)) = .ok (e, s) := by
          cases k <;> simp_all [Keyword.literal?]
        obtain ⟨rfl, hd⟩ := literalToken_sound (.word htype hk rfl) h
        exact ⟨[t], w, rfl, rfl, hd⟩
    | semi | curlyStart | curlyEnd | parenEnd | comma | equality | simpleAssignment
    | complexAssignment | additive | multiplicative | relational | logicalAnd | logicalOr
    | logicalNot | endOfInput => simp [htype] at h

end

/-- Soundness of the rules for expressions, all at once as they call each other. -/
theorem expressions_sound (n room : Nat) :
    Sound n room (expression n room) (fun _ => .expr .assignment) ∧
      (∀ level, Sound n room (ladder n room (level :: tighter level)) fun _ => .expr (.binary level)) ∧
      Sound n room (ladder n room []) (fun _ => .expr .unary) ∧
      Sound n (room + 1) (unary n room) (fun _ => .expr .unary) ∧
      ArgumentsSound n room (arguments n room) ∧
      Sound n room (primary n room) fun _ => .expr .primary := by
  induction room with
  | zero =>
    simp only [expression, ladder, unary, arguments, primary]
    refine ⟨sound_of_tooDeep, fun _ => sound_of_tooDeep, sound_of_tooDeep, sound_of_tooDeep, ?_,
      sound_of_tooDeep⟩
    intro eof last w list s _ h
    cases h
  | succ room ih =>
    obtain ⟨hexpr, hladder, hnil, hunary, hargs, hprimary⟩ := ih
    have hoperand : ∀ level, Sound n room (ladder n room (tighter level))
        fun _ => .expr (.operand level) := by
      intro level
      cases level with
      | or => exact hladder .and
      | and => exact hladder .equality
      | equality => exact hladder .relational
      | relational => exact hladder .additive
      | additive => exact hladder .multiplicative
      | multiplicative => exact hnil
    refine ⟨expression_sound (hladder .or) hexpr, fun level => ladder_sound (hoperand level), ?_,
      unary_sound hunary hprimary hargs, arguments_sound hexpr, primary_sound hexpr⟩
    rw [ladder]
    exact hunary

/-! ## Parts of statements -/

theorem expr_sound : Sound n room (expression n room) fun _ => .expr .assignment :=
  (expressions_sound n room).1

theorem optional_sound : Sound n room (some <$> expression n room) fun _ => .optional := by
  intro eof last w value s hin h
  obtain ⟨e, he, rfl⟩ := map_eq_ok.1 h
  obtain ⟨u, v, rfl, rfl, hu⟩ := expr_sound hin he
  exact ⟨u, v, rfl, rfl, .present hu⟩

theorem declaration_sound : Sound n room (declaration n room) fun _ => .declaration := by
  intro eof last w d s hin h
  obtain ⟨id, u, v, rfl, hin, hu, h⟩ := identifier_sound.bind hin h
  rcases hin.ahead (by decide) h with ⟨t, v, rfl, ht, h⟩ | ⟨-, h⟩
  · rw [advance_bind] at h
    obtain ⟨_, s₁, hinit, h⟩ := bind_eq_ok.1 h
    obtain ⟨e, he, rfl⟩ := map_eq_ok.1 hinit
    obtain ⟨u', v, rfl, rfl, hu'⟩ := expr_sound hin.tail he
    cases h
    exact ⟨u ++ t :: u', v, by simp, by simp,
      .initialized hu (by simpa using ht) hu' (by simp)⟩
  · rw [pure_bind] at h
    cases h
    have hne := (hu.derives.opens _ rfl).ne_nil
    exact ⟨u, v, rfl, rfl, .bare hu (by simp [endOf_of_ne_nil hne last 0])⟩

theorem declarations_sound :
    Sound n room (declarations n room) fun _ p => .variables p.1 p.2 := by
  intro eof last w p s hin h
  obtain ⟨t, w, rfl, htype, hin, h⟩ := hin.expect (by decide) h
  obtain ⟨list, u, v, rfl, -, hu, h⟩ :=
    (commaList_sound .oneDeclaration .moreDeclarations declaration_sound n).bind hin h
  cases h
  exact ⟨t :: u, v, rfl, rfl, .declared htype hu rfl⟩

theorem condition_sound : Sound n room (condition n room) fun _ => .condition := by
  intro eof last w e s hin h
  obtain ⟨t, w, rfl, htype, hin, h⟩ := hin.expect (by decide) h
  obtain ⟨test, u, v, rfl, hin, hu, h⟩ := expr_sound.bind hin h
  obtain ⟨t', v, rfl, htype', -, h⟩ := hin.expect (by decide) h
  cases h
  exact ⟨t :: (u ++ [t']), v, by simp, by simp, .condition htype hu htype'⟩

theorem optionalUnless_sound {stop : TokenType} (hstop : stop ≠ .endOfInput) :
    Sound n room (optionalUnless stop n room) fun _ => .optional := by
  intro eof last w value s hin h
  rcases hin.ahead (by simpa using hstop.symm) h with ⟨t, v, rfl, -, h⟩ | ⟨-, h⟩
  · cases h
    exact ⟨[], t :: v, rfl, rfl, .absent⟩
  · exact optional_sound hin h

theorem forInit_sound : Sound n room (forInit n room) fun _ => .forInit := by
  intro eof last w init s hin h
  rcases hin.ahead (by decide) h with ⟨t, v, rfl, -, h⟩ | ⟨-, h⟩
  · cases h
    exact ⟨[], t :: v, rfl, rfl, .noInit⟩
  · rcases hin.ahead (by decide) h with ⟨t, v, rfl, -, h⟩ | ⟨-, h⟩
    · obtain ⟨⟨list, span⟩, u, v, hw, -, hu, h⟩ := declarations_sound.bind hin h
      cases h
      exact ⟨u, v, hw, rfl, .initVariables hu⟩
    · obtain ⟨e, u, v, hw, -, hu, h⟩ := expr_sound.bind hin h
      cases h
      exact ⟨u, v, hw, rfl, .initExpr hu⟩

theorem parameters_sound : Sound n room (parameters n) fun _ => .parameters := by
  intro eof last w list s hin h
  rcases hin.ahead (by decide) h with ⟨t, v, rfl, -, h⟩ | ⟨-, h⟩
  · cases h
    exact ⟨[], t :: v, rfl, rfl, .noParameters⟩
  · obtain ⟨u, v, rfl, rfl, hu⟩ := commaList_sound .oneIdent .moreIdents identifier_sound n hin h
    exact ⟨u, v, rfl, rfl, .parameters hu⟩

/-! ## Statements without statements inside -/

theorem expressionStatement_sound : Sound n (room + 1) (expressionStatement n room) .stmt := by
  intro eof last w st s hin h
  rw [expressionStatement, peek_bind] at h
  obtain ⟨e, u, v, rfl, hin', hu, h⟩ := expr_sound.bind hin h
  obtain ⟨t, u, rfl, -⟩ := hu.derives.expr_opens
  obtain ⟨_, u', v, rfl, -, hu', h⟩ := terminator_sound.bind hin' h
  cases h
  refine ⟨t :: u ++ u', v, by simp, by simp, .exprStmt hu hu' ?_⟩
  simp

theorem variableStatement_sound : Sound n (room + 1) (variableStatement n room) .stmt := by
  intro eof last w st s hin h
  obtain ⟨⟨list, span⟩, u, v, rfl, hin, hu, h⟩ := declarations_sound.bind hin h
  obtain ⟨_, u', v, rfl, -, hu', h⟩ := terminator_sound.bind hin h
  cases h
  obtain ⟨t, u, rfl, rfl⟩ : ∃ t u', u = t :: u' ∧ span = covered (t :: u') := by
    cases hu.derives with
    | declared _ _ hs => exact ⟨_, _, rfl, hs⟩
  refine ⟨t :: u ++ u', v, by simp, by simp, .variableStmt hu hu' ?_⟩
  simp [covered]

theorem returnStatement_sound {t : Token} {w : List Token} {eof : Token} {last : Nat}
    (ht : t.type = .keyword .kwReturn) {st : Stmt} {s : State} (hin : Input n eof (t :: w))
    (h : returnStatement n room (stateAt eof last (t :: w)) = .ok (st, s)) :
    ∃ u v, t :: w = u ++ v ∧ s = stateAt eof (endOf last u) v ∧
      Fits .tight (room + 1) u (.stmt (headType v .endOfInput) st) := by
  rw [returnStatement, advance_bind, bind_of_ok (ahead_stateAt _ _)] at h
  have hvalue : ∃ value u v, w = u ++ v ∧ Fits .tight room u (.optional value) ∧
      (terminator >>= fun _ => lastEnd >>= fun stop =>
        (pure (.ret value ⟨t.start, stop⟩) : Parse Stmt)) (stateAt eof (endOf t.stop u) v) =
          .ok (st, s) := by
    split at h
    · exact ⟨none, [], w, rfl, .absent, h⟩
    · obtain ⟨value, u, v, rfl, -, hu, h⟩ := optional_sound.bind hin.tail h
      exact ⟨value, u, v, rfl, hu, h⟩
  obtain ⟨value, u, v, rfl, hu, h⟩ := hvalue
  obtain ⟨_, u', v, rfl, -, hu', h⟩ := terminator_sound.bind hin.tail.right h
  cases h
  exact ⟨t :: (u ++ u'), v, by simp, by simp,
    .ret ht hu hu' (by simp)⟩

/-! ## Statements -/

theorem block_sound (hstmt : Sound n room (statement n room) .stmt) :
    Sound n (room + 1) (block n (room + 1)) fun _ p => .block p.1 p.2 := by
  intro eof last w p s hin h
  rw [block] at h
  obtain ⟨t, w, rfl, htype, hin, h⟩ := hin.expect (by decide) h
  obtain ⟨body, s₂, hbody, h⟩ := bind_eq_ok.1 h
  obtain ⟨u, v, rfl, rfl, -, hu⟩ := repeatWhile_sound hstmt n hin hin.short hbody
  obtain ⟨t', v, rfl, htype', -, h⟩ := hin.right.expect (by decide) h
  cases h
  simp only [headType, htype'] at hu
  exact ⟨t :: (u ++ [t']), v, by simp, by simp,
    .block htype hu htype' (by simp)⟩

section
variable {t : Token} {st : Stmt} {s : State} {eof : Token} {last : Nat} {w : List Token}

/-- What soundness of a statement comes to once its first token is known. -/
abbrev Read (room : Nat) (eof : Token) (last : Nat) (w : List Token) (st : Stmt) (s : State) : Prop :=
  ∃ u v, w = u ++ v ∧ s = stateAt eof (endOf last u) v ∧
    Fits .tight room u (.stmt (headType v .endOfInput) st)

variable (hstmt : Sound n room (statement n room) .stmt)
  (hblock : Sound n room (block n room) fun _ p => .block p.1 p.2) (hin : Input n eof (t :: w))
  (h : statement n (room + 1) (stateAt eof last (t :: w)) = .ok (st, s))
include hin h

section
include hstmt

theorem if_sound (ht : t.type = .keyword .kwIf) : Read (room + 1) eof last (t :: w) st s := by
  simp only [statement, peek_bind, List.headD_cons, ht, advance_bind] at h
  obtain ⟨test, u, v, rfl, hin, hu, h⟩ := condition_sound.bind hin.tail h
  obtain ⟨body, u', v, rfl, hin, hu', h⟩ := hstmt.bind hin h
  rcases hin.ahead (by decide) h with ⟨t', v, rfl, ht', h⟩ | ⟨htype, h⟩
  · have ht' : t'.type = .keyword .kwElse := by simpa using ht'
    rw [advance_bind] at h
    obtain ⟨other, x, v, rfl, -, hx, h⟩ := hstmt.bind hin.tail h
    cases h
    simp only [headType, ht'] at hu'
    exact ⟨t :: (u ++ (u' ++ t' :: x)), v, by simp, by simp,
      .ifElse ht hu hu' ht' hx (by simp)⟩
  · cases h
    exact ⟨t :: (u ++ u'), v, by simp, by simp,
      .ifThen ht hu hu' (by simpa using htype) (by simp)⟩

theorem while_sound (ht : t.type = .keyword .kwWhile) :
    Read (room + 1) eof last (t :: w) st s := by
  simp only [statement, peek_bind, List.headD_cons, ht, advance_bind] at h
  obtain ⟨test, u, v, rfl, hin, hu, h⟩ := condition_sound.bind hin.tail h
  obtain ⟨body, u', v, rfl, -, hu', h⟩ := hstmt.bind hin h
  cases h
  exact ⟨t :: (u ++ u'), v, by simp, by simp,
    .whileLoop ht hu hu' (by simp)⟩

theorem do_sound (ht : t.type = .keyword .kwDo) : Read (room + 1) eof last (t :: w) st s := by
  simp only [statement, peek_bind, List.headD_cons, ht, advance_bind] at h
  obtain ⟨body, u, v, rfl, hin, hu, h⟩ := hstmt.bind hin.tail h
  obtain ⟨t', v, rfl, htype, hin, h⟩ := hin.expect (by decide) h
  obtain ⟨test, u', v, rfl, hin, hu', h⟩ := condition_sound.bind hin h
  obtain ⟨_, x, v, rfl, -, hx, h⟩ := terminator_sound.bind hin h
  cases h
  simp only [headType, htype] at hu
  exact ⟨t :: (u ++ t' :: (u' ++ x)), v, by simp, by simp,
    .doLoop ht hu htype hu' hx (by simp)⟩

theorem for_sound (ht : t.type = .keyword .kwFor) : Read (room + 1) eof last (t :: w) st s := by
  simp only [statement, peek_bind, List.headD_cons, ht, advance_bind] at h
  obtain ⟨a, w, rfl, ha, hin, h⟩ := hin.tail.expect (by decide) h
  obtain ⟨init, u, v, rfl, hin, hu, h⟩ := forInit_sound.bind hin h
  obtain ⟨b, v, rfl, hb, hin, h⟩ := hin.expect (by decide) h
  obtain ⟨test, u', v, rfl, hin, hu', h⟩ := (optionalUnless_sound (by decide)).bind hin h
  obtain ⟨c, v, rfl, hc, hin, h⟩ := hin.expect (by decide) h
  obtain ⟨update, u'', v, rfl, hin, hu'', h⟩ := (optionalUnless_sound (by decide)).bind hin h
  obtain ⟨d, v, rfl, hd, hin, h⟩ := hin.expect (by decide) h
  obtain ⟨body, x, v, rfl, -, hx, h⟩ := hstmt.bind hin h
  cases h
  exact ⟨t :: a :: (u ++ b :: (u' ++ c :: (u'' ++ d :: x))), v, by simp,
    by simp,
    .forLoop ht ha hu hb hu' hc hu'' hd hx (by simp)⟩

end

section
include hblock

theorem function_sound (ht : t.type = .keyword .kwDef) : Read (room + 1) eof last (t :: w) st s := by
  simp only [statement, peek_bind, List.headD_cons, ht, advance_bind] at h
  obtain ⟨name, u, v, rfl, hin, hu, h⟩ := (@identifier_sound n room).bind hin.tail h
  obtain ⟨a, v, rfl, ha, hin, h⟩ := hin.expect (by decide) h
  obtain ⟨params, u', v, rfl, hin, hu', h⟩ := (@parameters_sound n room).bind hin h
  obtain ⟨b, v, rfl, hb, hin, h⟩ := hin.expect (by decide) h
  obtain ⟨⟨body, inner⟩, x, v, rfl, -, hx, h⟩ := hblock.bind hin h
  cases h
  exact ⟨t :: (u ++ a :: (u' ++ b :: x)), v, by simp, by simp,
    .function ht hu ha hu' hb hx (by simp)⟩

end

end

theorem statement_sound (hstmt : Sound n room (statement n room) .stmt)
    (hblock : Sound n room (block n room) fun _ p => .block p.1 p.2) :
    Sound n (room + 1) (statement n (room + 1)) .stmt := by
  intro eof last w st s hin h
  cases w with
  | nil =>
    simp only [statement, peek_bind, List.headD_nil, hin.eof_type] at h
    exact expressionStatement_sound hin h
  | cons t w =>
    cases htype : t.type with
    | semi =>
      simp only [statement, peek_bind, List.headD_cons, htype, advance_bind] at h
      cases h
      exact ⟨[t], w, rfl, rfl, .emptyStmt htype rfl⟩
    | curlyStart =>
      simp only [statement, peek_bind, List.headD_cons, htype] at h
      obtain ⟨⟨body, span⟩, u, v, hw, -, hu, h⟩ := hblock.bind hin h
      cases h
      exact ⟨u, v, hw, rfl, .blockStmt hu⟩
    | keyword k =>
      cases k with
      | kwIf => exact if_sound hstmt hin h htype
      | kwWhile => exact while_sound hstmt hin h htype
      | kwDo => exact do_sound hstmt hin h htype
      | kwFor => exact for_sound hstmt hin h htype
      | kwDef => exact function_sound hblock hin h htype
      | kwLet =>
        simp only [statement, peek_bind, List.headD_cons, htype] at h
        exact variableStatement_sound hin h
      | kwReturn =>
        simp only [statement, peek_bind, List.headD_cons, htype] at h
        exact returnStatement_sound htype hin h
      | kwElse | kwTrue | kwFalse | kwNull =>
        simp only [statement, peek_bind, List.headD_cons, htype] at h
        exact expressionStatement_sound hin h
    | curlyEnd | parenStart | parenEnd | comma | number | string | identifier | equality
    | simpleAssignment | complexAssignment | additive | multiplicative | relational | logicalAnd
    | logicalOr | logicalNot | endOfInput =>
      simp only [statement, peek_bind, List.headD_cons, htype] at h
      exact expressionStatement_sound hin h

/-- Soundness of the rules for statements and blocks, which call each other. -/
theorem statements_blocks_sound (n room : Nat) :
    Sound n room (statement n room) .stmt ∧
      Sound n room (block n room) fun _ p => .block p.1 p.2 := by
  induction room with
  | zero =>
    simp only [statement, block]
    exact ⟨sound_of_tooDeep, sound_of_tooDeep⟩
  | succ room ih => exact ⟨statement_sound ih.1 ih.2, block_sound ih.1⟩

/-- All statements up to the end of the input take all tokens, which derive them. -/
theorem statements_sound {room : Nat} {w : List Token} {eof : Token} {body : List Stmt} {s : State}
    (htype : eof.type = .endOfInput) (hreg : ∀ t ∈ w, t.Regular)
    (h : statements (w.length + 1) room (stateAt eof 0 w) = .ok (body, s)) :
    Fits .tight room w (.stmts .endOfInput body) ∧ s = stateAt eof (endOf 0 w) [] := by
  have hin : Input (w.length + 1) eof w := ⟨htype, hreg, by omega⟩
  obtain ⟨u, v, hw, hs, hgo, hu⟩ :=
    repeatWhile_sound (statements_blocks_sound _ room).1 _ hin hin.short h
  cases v with
  | nil =>
    rw [List.append_nil] at hw
    subst hw
    exact ⟨hu, hs⟩
  | cons t v =>
    have ht := (hreg t (by simp [hw])).ne_end
    simp [ht] at hgo

section
variable {room length : Nat} {tokens : Lexer.Tokens} {eof : Token} {p : Program}
  (heof : tokens.ending = .ok eof) (htype : eof.type = .endOfInput)
  (hreg : ∀ t ∈ tokens.tokens, t.Regular) (h : parseTokens room length tokens = .ok p)
include heof htype hreg h

/-- What the parser makes of a whole text derives from all its tokens, in the room of the parser. -/
theorem fits_of_parseTokens : Fits .tight room tokens.tokens (.stmts .endOfInput p.body) := by
  rw [parseTokens_eq heof] at h
  cases hs : statements (tokens.tokens.length + 1) room (stateAt eof 0 tokens.tokens) with
  | error e => rw [hs] at h; cases h
  | ok q =>
    rw [hs] at h
    cases h
    exact (statements_sound htype hreg hs).1

theorem derives_of_parseTokens : Derives .tight tokens.tokens (.stmts .endOfInput p.body) :=
  (fits_of_parseTokens heof htype hreg h).derives

end

end Parser

end Scriptlet
