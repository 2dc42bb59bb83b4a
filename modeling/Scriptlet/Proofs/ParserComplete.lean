import Scriptlet.Proofs.Rooms

/-!
The descent parser is complete: tokens that derive a phrase in some room are read as that phrase in this
room, with the same places, if the following token does not continue the phrase.

Binary operators and calls are read by loops, while they derive from the left. For these layers
completeness says that the parser gets to where its loop stands with the phrase in hand; what comes
then depends on the tokens behind.
-/

namespace Scriptlet.Parser

/-! ## Operators by their texts -/

theorem build_binary (op : BinaryOp) (a b : Expr) (span : Span) :
    op.level.build op.symbol a b span = .binary op a b span := by
  cases op <;> simp [BinaryOp.level, BinaryOp.symbol, Level.build]

theorem build_logical (op : LogicalOp) (a b : Expr) (span : Span) :
    op.level.build op.symbol a b span = .logical op a b span := by
  cases op <;> rfl

theorem assignOp_symbol (op : AssignOp) : assignOp op.symbol = op := by
  cases op <;> simp [AssignOp.symbol, assignOp]

theorem unaryOp_symbol (op : UnaryOp) : unaryOp op.symbol = op := by
  cases op <;> simp [UnaryOp.symbol, unaryOp]

/-! ## What completeness says of a phrase -/

/-- The types of tokens that continue an expression of a layer. -/
def continuing : Layer → List TokenType
  | .primary => []
  | .call | .unary => [.parenStart]
  | .binary level => level.type :: (tighter level).map Level.type ++ [.parenStart]
  | .assignment => .simpleAssignment :: .complexAssignment :: Level.all.map Level.type ++ [.parenStart]

/-- Repetitions may take as many rounds as there are tokens up to the end of the input. -/
structure Fed (n : Nat) (eof : Token) (w : List Token) : Prop where
  eof_type : eof.type = .endOfInput
  short : w.length ≤ n

section
variable {n : Nat} {eof t : Token} {w v : List Token}

theorem Fed.right (h : Fed n eof (w ++ v)) : Fed n eof v where
  eof_type := h.eof_type
  short := by
    have := h.short
    rw [List.length_append] at this
    omega

theorem Fed.tail (h : Fed n eof (t :: w)) : Fed n eof w :=
  h.right (w := [t])

theorem Fed.ahead {types : List TokenType} (h : Fed n eof w) (ht : headType w .endOfInput ∈ types) :
    headType w eof.type ∈ types := by
  rwa [h.eof_type]

theorem Fed.notAhead {types : List TokenType} (h : Fed n eof w) (ht : headType w .endOfInput ∉ types) :
    headType w eof.type ∉ types := by
  rwa [h.eof_type]

end

section
variable {α : Type}

/-- The parser reads `w` and gives `a`, if the type of the token behind allows it. -/
def Reads (p : Nat → Parse α) (w : List Token) (follow : TokenType → Prop) (a : α) : Prop :=
  ∀ last ⦃n eof rest⦄, Fed n eof (w ++ rest) → follow (headType rest .endOfInput) →
    p n (stateAt eof last (w ++ rest)) = .ok (a, stateAt eof (endOf last w) rest)

/-- The same for a repetition, which also needs enough rounds. -/
def ReadsAll (p : Nat → Nat → Parse (List α)) (w : List Token) (follow : TokenType → Prop)
    (list : List α) : Prop :=
  ∀ ⦃k⦄, w.length ≤ k → Reads (p · k) w follow list

/-- The parser comes to stand in front of a loop with `e` in hand. -/
def Reaches (p : Nat → Parse Expr) (loop : Nat → Nat → Expr → Parse Expr) (w : List Token)
    (follow : TokenType → Prop) (e : Expr) : Prop :=
  ∀ last ⦃n eof rest⦄, Fed n eof (w ++ rest) → follow (headType rest .endOfInput) →
    ∃ k, n ≤ k + w.length ∧
      p n (stateAt eof last (w ++ rest)) = loop n k e (stateAt eof (endOf last w) rest)

end

/-- What completeness says of tokens that derive a phrase. -/
def Complete (room : Nat) (w : List Token) : Phrase → Prop
  | .ident id => Reads (fun _ => identifier) w (fun _ => True) id
  | .idents list => ReadsAll (fun _ k => commaList k identifier) w (· ≠ .comma) list
  | .parameters list => Reads parameters w (· = .parenEnd) list
  | .expr .primary e => Reads (primary · room) w (fun _ => True) e
  | .expr .call e =>
    Reaches (fun n => do calls (arguments n room) n (← primary n room))
      (fun n => calls (arguments n room)) w (fun _ => True) e
  | .expr .unary e => Reads (ladder · room []) w (· ∉ continuing .unary) e
  | .expr (.binary level) e =>
    Reaches (ladder · room (level :: tighter level))
      (fun n => chain (ladder n (room - 1) (tighter level)) level) w
      (· ∉ continuing (.operand level)) e
  | .expr .assignment e => Reads (expression · room) w (· ∉ continuing .assignment) e
  | .exprs list =>
    ReadsAll (fun n k => commaList k (expression n room)) w
      (fun next => next ∉ continuing .assignment ∧ next ≠ .comma) list
  | .arguments list =>
    w = [] ∧ list = [] ∨ Opens exprStarters w ∧
      ReadsAll (fun n k => commaList k (expression n room)) w
        (fun next => next ∉ continuing .assignment ∧ next ≠ .comma) list
  | .condition e => Reads (condition · room) w (fun _ => True) e
  | .optional value =>
    w = [] ∧ value = none ∨ ∃ e, value = some e ∧ Opens exprStarters w ∧
      Reads (expression · room) w (· ∉ continuing .assignment) e
  | .declaration d => Reads (declaration · room) w (· ∉ continuing .assignment) d
  | .declarations list =>
    ReadsAll (fun n k => commaList k (declaration n room)) w
      (fun next => next ∉ continuing .assignment ∧ next ≠ .comma) list
  | .variables list span =>
    Reads (declarations · room) w (fun next => next ∉ continuing .assignment ∧ next ≠ .comma)
      (list, span)
  | .forInit init => Reads (forInit · room) w (· = .semi) init
  | .terminator next => Reads (fun _ => terminator) w (· = next) ()
  | .block body span => Reads (block · room) w (fun _ => True) (body, span)
  | .stmt next s => Reads (statement · room) w (· = next) s
  | .stmts next list =>
    ∀ go : Token → Bool, (∀ t, t.type ∈ exprStarters ++ stmtStarters → go t = true) →
      (∀ t, t.type = next → go t = false) →
      ReadsAll (fun n k => repeatWhile go (statement n room) k) w (· = next) list

variable {room : Nat} {w v : List Token} {t u : Token}

/-! ## Expressions -/

attribute [local simp] startOf endOf endOf_append covered

theorem ident_complete (ht : t.type = .identifier) : Complete room [t] (.ident ⟨t.text, t.span⟩) :=
  fun _ _ _ rest _ _ => bind_of_ok (expect_cons ht rest)

theorem name_complete {id : Ident} (hd : Opens [.identifier] w) (h : Complete room w (.ident id)) :
    Complete (room + 1) w (.expr .primary (.ident id)) := by
  intro last n eof rest hin _
  obtain ⟨t, w, rfl, ht⟩ := hd
  simp only [primary, List.cons_append, peek_bind, List.headD_cons, List.mem_singleton.1 ht]
  exact bind_of_ok (h _ hin trivial)

theorem number_complete {x : Number} (ht : t.type = .number) (hx : Number.read t.text = .ok x) :
    Complete (room + 1) [t] (.expr .primary (.literal (.number x) t.span)) := by
  intro last n eof rest _ _
  simp only [primary, List.singleton_append, peek_bind, List.headD_cons, ht, numberLiteral, advance_bind,
    hx]
  rfl

theorem literalToken_stateAt (value : Literal) (eof : Token) (last : Nat) (rest : List Token) :
    literalToken value (stateAt eof last (t :: rest)) =
      .ok (.literal value t.span, stateAt eof t.stop rest) :=
  advance_bind _ t rest

theorem string_complete (ht : t.type = .string) :
    Complete (room + 1) [t] (.expr .primary (.literal (.text (unquote t.text)) t.span)) := by
  intro last n eof rest _ _
  simp only [primary, List.singleton_append, peek_bind, List.headD_cons, ht, literalToken_stateAt]
  rfl

theorem word_complete {k : Keyword} {value : Literal} (ht : t.type = .keyword k)
    (hk : k.literal? = some value) :
    Complete (room + 1) [t] (.expr .primary (.literal value t.span)) := by
  intro last n eof rest _ _
  have hread : literalToken value (stateAt eof last (t :: rest)) = _ := literalToken_stateAt ..
  simp only [primary, List.singleton_append, peek_bind, List.headD_cons]
  cases k <;> simp_all [Keyword.literal?]

variable {e : Expr} {k : Nat} {args : List Expr} {eof : Token} {rest : List Token}

theorem condition_complete (ht : t.type = .parenStart) (h : Complete room w (.expr .assignment e))
    (hu : u.type = .parenEnd) :
    Complete room (t :: (w ++ [u])) (.condition e) := by
  intro last n eof rest hin _
  simp only [List.cons_append, List.append_assoc, List.nil_append] at hin ⊢
  have hnext : headType (u :: rest) .endOfInput ∉ continuing .assignment := by rw [headType, hu]; decide
  simp only [condition, expect_bind ht, bind_of_ok (h _ hin.tail hnext), expect_bind hu]
  simp

theorem paren_complete (hd : Opens [.parenStart] w) (h : Complete room w (.condition e)) :
    Complete (room + 1) w (.expr .primary e) := by
  intro last n eof rest hin _
  obtain ⟨t, w, rfl, ht⟩ := hd
  have ht : t.type = .parenStart := List.mem_singleton.1 ht
  have hread := h last hin trivial
  simp only [List.cons_append, condition, expect_bind ht] at hread
  simp only [List.cons_append, primary, peek_bind, List.headD_cons, ht, advance_bind]
  exact hread

theorem atom_complete (h : Complete room w (.expr .primary e)) :
    Complete room w (.expr .call e) :=
  fun _ n _ _ hin hnext => ⟨n, Nat.le_add_right .., bind_of_ok (h _ hin hnext)⟩

/-- The parser of arguments, between its parentheses. -/
theorem arguments_complete (ht : t.type = .parenStart) (h : Complete room v (.arguments args))
    (hu : u.type = .parenEnd) :
    Reads (arguments · (room + 1)) (t :: (v ++ [u])) (fun _ => True) args := by
  intro last n eof rest hin _
  simp only [List.cons_append, List.append_assoc, List.nil_append] at hin ⊢
  simp only [arguments, expect_bind ht]
  rcases h with ⟨rfl, rfl⟩ | ⟨hopens, h⟩
  · rw [List.nil_append, ahead_of_mem (by simp [headType, hu]), pure_bind, expect_bind hu]
    rfl
  · have hnext : headType (u :: rest) .endOfInput ∉ continuing .assignment ∧
        headType (u :: rest) .endOfInput ≠ .comma := by
      rw [headType, hu]
      decide
    have hshort : v.length ≤ n := by
      have := hin.short
      simp only [List.length_cons, List.length_append] at this
      omega
    rw [ahead_of_notMem ((hopens.append _).headType_notMem (by decide) _),
      bind_of_ok (h hshort _ hin.tail hnext), expect_bind hu]
    simp

theorem call_complete {callee : Expr} (h : Complete (room + 1) w (.expr .call callee))
    (ht : t.type = .parenStart) (ha : Complete room v (.arguments args)) (hu : u.type = .parenEnd) :
    Complete (room + 1) (w ++ t :: (v ++ [u]))
      (.expr .call (.call callee args ⟨callee.span.start, endOf 0 (w ++ t :: (v ++ [u]))⟩)) := by
  intro last n eof rest hin _
  rw [List.append_assoc] at hin ⊢
  obtain ⟨k, hk, hread⟩ := h last hin trivial
  have hshort := hin.short
  simp only [List.length_append, List.length_cons] at hshort hk ⊢
  obtain ⟨k, rfl⟩ : ∃ j, k = j + 1 := ⟨k - 1, by omega⟩
  refine ⟨k, by omega, hread.trans ?_⟩
  simp only [calls]
  rw [ahead_of_mem (by simp [headType, ht]), bind_of_ok (arguments_complete ht ha hu _ hin.right trivial),
    lastEnd_bind]
  simp

/-- A loop stops in front of a token that does not continue it. -/
theorem calls_stop {arguments : Parse (List Expr)} {last : Nat}
    (h : headType rest eof.type ∉ [TokenType.parenStart]) :
    calls arguments k e (stateAt eof last rest) = .ok (e, stateAt eof last rest) := by
  cases k with
  | zero => rfl
  | succ k => exact ahead_of_notMem h

theorem chain_stop {operand : Parse Expr} {level : Level} {last : Nat}
    (h : headType rest eof.type ∉ [level.type]) :
    chain operand level k e (stateAt eof last rest) = .ok (e, stateAt eof last rest) := by
  cases k with
  | zero => rfl
  | succ k => exact ahead_of_notMem h

theorem ofCall_complete (hd : Opens primaryStarters w) (h : Complete room w (.expr .call e)) :
    Complete (room + 2) w (.expr .unary e) := by
  intro last n eof rest hin hnext
  obtain ⟨k, -, hread⟩ := h last hin trivial
  simp only [ladder, unary]
  rw [ahead_of_notMem ((hd.append _).headType_notMem (by decide) _)]
  exact hread.trans (calls_stop (hin.right.notAhead hnext))

theorem unary_complete {op : UnaryOp} (ht : t.type = op.tokenType) (hx : t.text = op.symbol)
    (h : Complete (room + 1) w (.expr .unary e)) :
    Complete (room + 2) (t :: w) (.expr .unary (.unary op e (covered (t :: w)))) := by
  intro last n eof rest hin hnext
  have hread : ∀ f : Expr → Parse Expr, (unary n room >>= f) (stateAt eof t.stop (w ++ rest)) = _ :=
    fun f => bind_of_ok (h _ hin.tail hnext)
  simp only [ladder, unary, List.cons_append]
  rw [ahead_of_mem (by cases op <;> simp [headType, ht, UnaryOp.tokenType]), advance_bind, hread,
    lastEnd_bind, hx, unaryOp_symbol]
  rfl

/-- A layer is read to its end in front of a token that does not continue it. -/
theorem binary_reads {level : Level} (h : Complete room w (.expr (.binary level) e)) :
    Reads (ladder · room (level :: tighter level)) w (· ∉ continuing (.binary level)) e := by
  intro last n eof rest hin hnext
  have hoperand : headType rest .endOfInput ∉ continuing (.operand level) := by
    intro hmem
    apply hnext
    cases level <;> simp_all [continuing, Layer.operand, tighter]
  obtain ⟨k, -, hread⟩ := h last hin hoperand
  refine hread.trans (chain_stop (hin.right.notAhead fun hmem => hnext ?_))
  rw [List.mem_singleton.1 hmem]
  exact List.mem_cons_self

theorem operand_reads {level : Level} (h : Complete room w (.expr (.operand level) e)) :
    Reads (ladder · room (tighter level)) w (· ∉ continuing (.operand level)) e := by
  cases level with
  | or | and | equality | relational | additive => exact binary_reads h
  | multiplicative => exact h

theorem ofOperand_complete {level : Level} (h : Complete room w (.expr (.operand level) e)) :
    Complete (room + 1) w (.expr (.binary level) e) := by
  intro last n eof rest hin hnext
  refine ⟨n, Nat.le_add_right .., ?_⟩
  simp only [ladder]
  exact bind_of_ok (operand_reads h last hin hnext)

/-- One more operator of a layer with its right operand. -/
theorem operator_complete {level : Level} {left right node : Expr}
    (hl : Complete (room + 1) w (.expr (.binary level) left)) (ht : t.type = level.type)
    (hr : Complete room v (.expr (.operand level) right))
    (hnode : level.build t.text left right ⟨left.span.start, endOf 0 (w ++ t :: v)⟩ = node) :
    Complete (room + 1) (w ++ t :: v) (.expr (.binary level) node) := by
  intro last n eof rest hin hnext
  rw [List.append_assoc] at hin ⊢
  have ht' : t.type ∉ continuing (.operand level) := by
    rw [ht]
    cases level <;> decide
  obtain ⟨k, hk, hread⟩ := hl last hin ht'
  have hshort := hin.short
  simp only [List.length_append, List.length_cons] at hshort hk ⊢
  obtain ⟨k, rfl⟩ : ∃ j, k = j + 1 := ⟨k - 1, by omega⟩
  refine ⟨k, by omega, hread.trans ?_⟩
  simp only [chain, List.cons_append]
  rw [ahead_of_mem (by simp [headType, ht]), advance_bind]
  refine (bind_of_ok (operand_reads hr _ hin.right.tail hnext)).trans ?_
  rw [lastEnd_bind, ← hnode]
  simp

theorem ofOr_complete (h : Complete room w (.expr (.binary .or) e)) :
    Complete (room + 1) w (.expr .assignment e) := by
  intro last n eof rest hin hnext
  have hor : headType rest .endOfInput ∉ continuing (.binary .or) :=
    fun hmem => hnext (List.mem_cons_of_mem _ (List.mem_cons_of_mem _ hmem))
  have hstop : headType rest .endOfInput ∉ [TokenType.simpleAssignment, .complexAssignment] :=
    fun hmem => hnext (List.mem_append_left _ (List.mem_append_left (Level.all.map Level.type) hmem))
  simp only [expression]
  refine (bind_of_ok (binary_reads h last hin hor)).trans ?_
  rw [ahead_of_notMem (hin.right.notAhead hstop)]
  rfl

theorem assign_complete {op : AssignOp} {target : Ident} {value : Expr}
    (hl : Complete room w (.expr (.binary .or) (.ident target))) (ht : t.type = op.tokenType)
    (hx : t.text = op.symbol) (hr : Complete room v (.expr .assignment value)) :
    Complete (room + 1) (w ++ t :: v)
      (.expr .assignment (.assign op target value ⟨target.span.start, endOf 0 (w ++ t :: v)⟩)) := by
  intro last n eof rest hin hnext
  rw [List.append_assoc, List.cons_append] at hin ⊢
  have ht' : t.type ∉ continuing (.binary .or) := by
    rw [ht]
    cases op <;> decide
  simp only [expression]
  refine (bind_of_ok (binary_reads hl last hin ht')).trans ?_
  rw [ahead_of_mem (by cases op <;> simp [headType, ht, AssignOp.tokenType]), peek_bind]
  simp only [List.headD_cons, advance_bind]
  rw [bind_of_ok (hr _ hin.right.tail hnext), lastEnd_bind, hx, assignOp_symbol]
  simp

/-! ## Lists -/

section
variable {α : Type} {item : Nat → Parse α} {follow' : TokenType → Prop} {a : α} {list : List α}

/-- A list of one item, in front of a token that is no comma. -/
theorem commaList_one (follow : TokenType → Prop) (h : Reads item w follow a)
    (hfollow : ∀ next, follow' next → follow next ∧ next ≠ .comma) :
    ReadsAll (fun n k => commaList k (item n)) w follow' [a] := by
  intro k _ last n eof rest hin hnext
  obtain ⟨hnext, hcomma⟩ := hfollow _ hnext
  have hstop : repeatWhile (·.type = .comma) (do let _ ← expect .comma; item n) k
      (stateAt eof (endOf last w) rest) = .ok ([], stateAt eof (endOf last w) rest) := by
    cases k with
    | zero => rfl
    | succ k =>
      rw [repeatWhile, peek_bind, headD_type, hin.eof_type]
      simp [hcomma]
  simp only [commaList]
  rw [bind_of_ok (h _ hin hnext), bind_of_ok hstop]
  rfl

/-- A list of an item, a comma and a list. -/
theorem commaList_more (follow : TokenType → Prop) (h : Reads item w follow a) (ht : t.type = .comma)
    (hl : ReadsAll (fun n k => commaList k (item n)) v follow' list) (hcomma : follow .comma) :
    ReadsAll (fun n k => commaList k (item n)) (w ++ t :: v) follow' (a :: list) := by
  intro k hk last n eof rest hin hnext
  rw [List.append_assoc, List.cons_append] at hin ⊢
  rw [List.length_append, List.length_cons] at hk
  obtain ⟨k, rfl⟩ : ∃ j, k = j + 1 := ⟨k - 1, by omega⟩
  have hhead : follow (headType (t :: (v ++ rest)) .endOfInput) := by
    rw [headType, ht]
    exact hcomma
  -- The items behind the first comma are read as a list of their own.
  have hrest := hl (show v.length ≤ k by omega) t.stop hin.right.tail hnext
  simp only [commaList] at hrest ⊢
  obtain ⟨first, s₁, hfirst, hrest⟩ := bind_eq_ok.1 hrest
  obtain ⟨more, s₂, hmore, hrest⟩ := bind_eq_ok.1 hrest
  obtain ⟨rfl, rfl⟩ := pure_eq_ok hrest
  have hitem : (do let _ ← expect .comma; item n) (stateAt eof (endOf last w) (t :: (v ++ rest))) =
      .ok (first, s₁) := (expect_bind ht _ _).trans hfirst
  rw [bind_of_ok (h _ hin hhead), repeatWhile, bind_assoc, peek_bind]
  simp only [List.headD_cons, ht, decide_true, ↓reduceIte, bind_assoc, pure_bind]
  rw [← bind_assoc, bind_of_ok hitem, bind_of_ok hmore, endOf_append]
  rfl

end

theorem parameters_complete {list : List Ident} (hd : Opens [.identifier] w)
    (h : Complete room w (.idents list)) : Complete room w (.parameters list) := by
  intro last n eof rest hin hnext
  have hshort := hin.short
  rw [List.length_append] at hshort
  rw [parameters, ahead_of_notMem ((hd.append rest).headType_notMem (by decide) _)]
  exact h (show w.length ≤ n by omega) _ hin (by rw [hnext]; decide)

theorem noParameters_complete : Complete room [] (.parameters []) := by
  intro last n eof rest hin hnext
  exact ahead_of_mem (hin.ahead (by simp [hnext]))

/-! ## Declarations and clauses -/

theorem bare_complete {id : Ident} (hne : w ≠ []) (h : Complete room w (.ident id)) :
    Complete room w (.declaration ⟨id, none, ⟨id.span.start, endOf 0 w⟩⟩) := by
  intro last n eof rest hin hnext
  have hstop : headType rest .endOfInput ∉ [TokenType.simpleAssignment] :=
    fun hmem => hnext (by rw [List.mem_singleton.1 hmem]; decide)
  simp only [declaration]
  rw [bind_of_ok (h _ hin trivial), ahead_of_notMem (hin.right.notAhead hstop), pure_bind, lastEnd_bind,
    endOf_of_ne_nil hne last 0]
  rfl

theorem initialized_complete {id : Ident} {e : Expr} (h : Complete room w (.ident id))
    (ht : t.type = .simpleAssignment) (he : Complete room v (.expr .assignment e)) :
    Complete room (w ++ t :: v) (.declaration ⟨id, some e, ⟨id.span.start, endOf 0 (w ++ t :: v)⟩⟩) := by
  intro last n eof rest hin hnext
  rw [List.append_assoc, List.cons_append] at hin ⊢
  simp only [declaration]
  rw [bind_of_ok (h _ hin trivial), ahead_of_mem (by simp [headType, ht]), advance_bind,
    bind_of_ok (map_of_ok (he _ hin.right.tail hnext)), lastEnd_bind]
  simp

theorem variables_complete {list : List Declaration} (ht : t.type = .keyword .kwLet)
    (h : Complete room w (.declarations list)) :
    Complete room (t :: w) (.variables list (covered (t :: w))) := by
  intro last n eof rest hin hnext
  have hshort := hin.short
  rw [List.length_append, List.length_cons] at hshort
  simp only [List.cons_append, declarations]
  rw [expect_bind ht, bind_of_ok (h (show w.length ≤ n by omega) _ hin.tail hnext), lastEnd_bind]
  rfl

theorem noInit_complete : Complete room [] (.forInit none) := by
  intro last n eof rest hin hnext
  exact ahead_of_mem (hin.ahead (by simp [hnext]))

theorem initVariables_complete {list : List Declaration} {span : Span}
    (hd : Opens [.keyword .kwLet] w) (h : Complete room w (.variables list span)) :
    Complete room w (.forInit (some (.variables list span))) := by
  intro last n eof rest hin hnext
  simp only [forInit]
  rw [ahead_of_notMem ((hd.append rest).headType_notMem (by decide) _),
    ahead_of_mem (headType_mem_of_opens (hd.append rest) _),
    bind_of_ok (h _ hin (by rw [hnext]; decide))]
  rfl

theorem initExpr_complete {e : Expr} (hd : Opens exprStarters w)
    (h : Complete room w (.expr .assignment e)) : Complete room w (.forInit (some (.expr e))) := by
  intro last n eof rest hin hnext
  simp only [forInit]
  rw [ahead_of_notMem ((hd.append rest).headType_notMem (by decide) _),
    ahead_of_notMem ((hd.append rest).headType_notMem (by decide) _),
    bind_of_ok (h _ hin (by rw [hnext]; decide))]
  rfl

/-- A clause that may be missing, in front of the token that ends it. -/
theorem optionalUnless_complete {value : Option Expr} (stop : TokenType)
    (h : Complete room w (.optional value)) (hstart : stop ∉ exprStarters)
    (hstop : stop ∉ continuing .assignment) :
    Reads (optionalUnless stop · room) w (· = stop) value := by
  intro last n eof rest hin hnext
  rcases h with ⟨rfl, rfl⟩ | ⟨e, rfl, hd, h⟩
  · exact ahead_of_mem (hin.ahead (by simp [hnext]))
  · have hahead : headType (w ++ rest) eof.type ∉ [stop] := by
      refine (hd.append rest).headType_notMem (fun type hmem hstop' => hstart ?_) _
      rwa [← List.mem_singleton.1 hstop']
    exact (ahead_of_notMem hahead).trans (map_of_ok (h _ hin (by rw [hnext]; exact hstop)))

theorem semi_complete {next : TokenType} (ht : t.type = .semi) :
    Complete room [t] (.terminator next) := by
  intro last n eof rest _ _
  simp only [terminator, List.singleton_append]
  rw [ahead_of_notMem (by simp [headType, ht]), expect_bind ht]
  rfl

theorem atEnd_complete : Complete room [] (.terminator .endOfInput) := by
  intro last n eof rest hin hnext
  exact ahead_of_mem (hin.ahead (by simp [hnext]))

/-- Behind what a terminator ends stands a semicolon or the end of the input, so nothing that
continues an expression or a list. -/
theorem terminator_follow {place : Placing} {next : TokenType} (h : Derives place w (.terminator next))
    {rest : List Token} (hrest : headType rest .endOfInput = next) :
    headType (w ++ rest) .endOfInput ∈ [TokenType.semi, .endOfInput] := by
  cases h with
  | semi ht => simp [headType, ht]
  | atEnd => simp [hrest]

theorem notMem_of_terminator {types : List TokenType} {type : TokenType}
    (h : type ∈ [TokenType.semi, .endOfInput]) (htypes : .semi ∉ types ∧ .endOfInput ∉ types) :
    type ∉ types := by
  simp only [List.mem_cons, List.not_mem_nil, or_false] at h
  rcases h with rfl | rfl
  · exact htypes.1
  · exact htypes.2

/-! ## Statements -/

theorem statement_of_opens (hd : Opens exprStarters w) (n room : Nat) (eof : Token) (last : Nat)
    (rest : List Token) :
    statement n (room + 1) (stateAt eof last (w ++ rest)) =
      expressionStatement n room (stateAt eof last (w ++ rest)) := by
  obtain ⟨t, u, rfl, ht⟩ := hd
  rw [List.cons_append, statement, peek_bind]
  simp only [exprStarters, primaryStarters, List.cons_append, List.nil_append, List.mem_cons,
    List.not_mem_nil, or_false] at ht
  rcases ht with ht | ht | ht | ht | ht | ht | ht | ht | ht <;>
    simp only [List.headD_cons, ht]

section
variable {v' x : List Token} {a b c d : Token} {next : TokenType} {e test : Expr} {body other : Stmt}

theorem exprStmt_complete (hd : Opens exprStarters w) (h : Complete room w (.expr .assignment e))
    (hv : Derives .tight v (.terminator next)) (he : Complete room v (.terminator next)) :
    Complete (room + 1) (w ++ v) (.stmt next (.expr e ⟨startOf w, endOf 0 (w ++ v)⟩)) := by
  intro last n eof rest hin hnext
  rw [List.append_assoc] at hin ⊢
  have hread := h last hin (notMem_of_terminator (terminator_follow hv hnext) (by decide))
  refine (statement_of_opens hd ..).trans ?_
  rw [expressionStatement, peek_bind, bind_of_ok hread, bind_of_ok (he _ hin.right hnext), lastEnd_bind]
  obtain ⟨t, w, rfl, -⟩ := hd
  simp

theorem variableStmt_complete {list : List Declaration} {inner : Span} (hd : Opens [.keyword .kwLet] w)
    (h : Complete room w (.variables list inner)) (hinner : inner.start = startOf w)
    (hv : Derives .tight v (.terminator next)) (he : Complete room v (.terminator next)) :
    Complete (room + 1) (w ++ v) (.stmt next (.variables list ⟨startOf w, endOf 0 (w ++ v)⟩)) := by
  intro last n eof rest hin hnext
  rw [List.append_assoc] at hin ⊢
  have hend := terminator_follow hv hnext
  have hread := h last hin ⟨notMem_of_terminator hend (by decide), fun hcomma => by simp [hcomma] at hend⟩
  obtain ⟨t, w, rfl, ht⟩ := hd
  simp only [List.cons_append] at hread ⊢
  simp only [statement, peek_bind, List.headD_cons, List.mem_singleton.1 ht, variableStatement]
  rw [bind_of_ok hread]
  refine (bind_of_ok (he _ hin.right hnext)).trans ?_
  rw [lastEnd_bind, hinner]
  simp

theorem blockStmt_complete {body : List Stmt} {span : Span} (hd : Opens [.curlyStart] w)
    (h : Complete room w (.block body span)) : Complete (room + 1) w (.stmt next (.block body span)) := by
  intro last n eof rest hin _
  have hread := h last hin trivial
  obtain ⟨t, w, rfl, ht⟩ := hd
  simp only [List.cons_append] at hread ⊢
  simp only [statement, peek_bind, List.headD_cons, List.mem_singleton.1 ht]
  exact bind_of_ok hread

theorem emptyStmt_complete (ht : t.type = .semi) :
    Complete (room + 1) [t] (.stmt next (.empty t.span)) := by
  intro last n eof rest _ _
  simp only [List.singleton_append, statement, peek_bind, List.headD_cons, ht]
  exact advance_bind ..

theorem ifThen_complete (ht : t.type = .keyword .kwIf) (h : Complete room w (.condition test))
    (hb : Complete room v (.stmt next body)) (hn : next ≠ .keyword .kwElse) :
    Complete (room + 1) (t :: (w ++ v)) (.stmt next (.ifThen test body (covered (t :: (w ++ v))))) := by
  intro last n eof rest hin hnext
  simp only [List.cons_append, List.append_assoc] at hin ⊢
  have helse : headType rest .endOfInput ∉ [TokenType.keyword .kwElse] := by
    rw [hnext, List.mem_singleton]
    exact hn
  simp only [statement, peek_bind, List.headD_cons, ht, advance_bind]
  rw [bind_of_ok (h _ hin.tail trivial), bind_of_ok (hb _ hin.tail.right hnext),
    ahead_of_notMem (hin.tail.right.right.notAhead helse), lastEnd_bind]
  simp

theorem ifElse_complete (ht : t.type = .keyword .kwIf) (h : Complete room w (.condition test))
    (hb : Complete room v (.stmt (.keyword .kwElse) body)) (hu : u.type = .keyword .kwElse)
    (ho : Complete room v' (.stmt next other)) :
    Complete (room + 1) (t :: (w ++ (v ++ u :: v')))
      (.stmt next (.ifElse test body other (covered (t :: (w ++ (v ++ u :: v')))))) := by
  intro last n eof rest hin hnext
  simp only [List.cons_append, List.append_assoc] at hin ⊢
  simp only [statement, peek_bind, List.headD_cons, ht, advance_bind]
  rw [bind_of_ok (h _ hin.tail trivial), bind_of_ok (hb _ hin.tail.right hu),
    ahead_of_mem (by simp [headType, hu]), advance_bind,
    bind_of_ok (ho _ hin.tail.right.right.tail hnext), lastEnd_bind]
  simp

theorem whileLoop_complete (ht : t.type = .keyword .kwWhile) (h : Complete room w (.condition test))
    (hb : Complete room v (.stmt next body)) :
    Complete (room + 1) (t :: (w ++ v)) (.stmt next (.whileLoop test body (covered (t :: (w ++ v))))) := by
  intro last n eof rest hin hnext
  simp only [List.cons_append, List.append_assoc] at hin ⊢
  simp only [statement, peek_bind, List.headD_cons, ht, advance_bind]
  rw [bind_of_ok (h _ hin.tail trivial), bind_of_ok (hb _ hin.tail.right hnext), lastEnd_bind]
  simp

theorem doLoop_complete (ht : t.type = .keyword .kwDo)
    (hb : Complete room w (.stmt (.keyword .kwWhile) body)) (hu : u.type = .keyword .kwWhile)
    (h : Complete room v (.condition test)) (he : Complete room v' (.terminator next)) :
    Complete (room + 1) (t :: (w ++ u :: (v ++ v')))
      (.stmt next (.doLoop body test (covered (t :: (w ++ u :: (v ++ v')))))) := by
  intro last n eof rest hin hnext
  simp only [List.cons_append, List.append_assoc] at hin ⊢
  have hin' := hin.tail.right.tail
  simp only [statement, peek_bind, List.headD_cons, ht, advance_bind]
  rw [bind_of_ok (hb _ hin.tail hu), expect_bind hu, bind_of_ok (h _ hin' trivial),
    bind_of_ok (he _ hin'.right hnext), lastEnd_bind]
  simp

theorem forLoop_complete {init : Option ForInit} {test update : Option Expr}
    (ht : t.type = .keyword .kwFor) (ha : a.type = .parenStart) (hi : Complete room w (.forInit init))
    (hb : b.type = .semi) (h : Complete room v (.optional test)) (hc : c.type = .semi)
    (hu : Complete room v' (.optional update)) (hd : d.type = .parenEnd)
    (hx : Complete room x (.stmt next body)) :
    Complete (room + 1) (t :: a :: (w ++ b :: (v ++ c :: (v' ++ d :: x))))
      (.stmt next (.forLoop init test update body
        (covered (t :: a :: (w ++ b :: (v ++ c :: (v' ++ d :: x))))))) := by
  intro last n eof rest hin hnext
  simp only [List.cons_append, List.append_assoc] at hin ⊢
  have htest := optionalUnless_complete .semi h (by decide) (by decide)
  have hupdate := optionalUnless_complete .parenEnd hu (by decide) (by decide)
  have hin₁ := hin.tail.tail
  have hin₂ := hin₁.right.tail
  have hin₃ := hin₂.right.tail
  simp only [statement, peek_bind, List.headD_cons, ht, advance_bind]
  rw [expect_bind ha, bind_of_ok (hi _ hin₁ hb), expect_bind hb, bind_of_ok (htest _ hin₂ hc),
    expect_bind hc, bind_of_ok (hupdate _ hin₃ hd), expect_bind hd,
    bind_of_ok (hx _ hin₃.right.tail hnext), lastEnd_bind]
  simp

theorem function_complete {name : Ident} {params : List Ident} {body : List Stmt} {inner : Span}
    (ht : t.type = .keyword .kwDef) (h : Complete room w (.ident name)) (ha : a.type = .parenStart)
    (hp : Complete room v (.parameters params)) (hb : b.type = .parenEnd)
    (hx : Complete room x (.block body inner)) :
    Complete (room + 1) (t :: (w ++ a :: (v ++ b :: x)))
      (.stmt next (.function name params body inner (covered (t :: (w ++ a :: (v ++ b :: x)))))) := by
  intro last n eof rest hin hnext
  simp only [List.cons_append, List.append_assoc] at hin ⊢
  have hin' := hin.tail.right.tail
  simp only [statement, peek_bind, List.headD_cons, ht, advance_bind]
  rw [bind_of_ok (h _ hin.tail trivial), expect_bind ha, bind_of_ok (hp _ hin' hb), expect_bind hb,
    bind_of_ok (hx _ hin'.right.tail trivial)]
  refine (lastEnd_bind _ _).trans ?_
  simp

theorem ret_complete {value : Option Expr} (ht : t.type = .keyword .kwReturn)
    (h : Complete room w (.optional value)) (hv : Derives .tight v (.terminator next))
    (he : Complete room v (.terminator next)) :
    Complete (room + 1) (t :: (w ++ v)) (.stmt next (.ret value (covered (t :: (w ++ v))))) := by
  intro last n eof rest hin hnext
  simp only [List.cons_append, List.append_assoc] at hin ⊢
  have hend := terminator_follow hv hnext
  simp only [statement, peek_bind, List.headD_cons, ht, returnStatement, advance_bind]
  rcases h with ⟨rfl, rfl⟩ | ⟨e, rfl, hd, h⟩
  · rw [ahead_of_mem (hin.tail.ahead hend), pure_bind, List.nil_append,
      bind_of_ok (he _ hin.tail hnext), lastEnd_bind]
    simp
  · have hread := h t.stop hin.tail (notMem_of_terminator hend (by decide))
    rw [ahead_of_notMem ((hd.append _).headType_notMem (by decide) _), bind_of_ok (map_of_ok hread),
      bind_of_ok (he _ hin.tail.right hnext), lastEnd_bind]
    simp

theorem block_complete {body : List Stmt} (ht : t.type = .curlyStart)
    (h : Complete room w (.stmts .curlyEnd body)) (hu : u.type = .curlyEnd) :
    Complete (room + 1) (t :: (w ++ [u])) (.block body (covered (t :: (w ++ [u])))) := by
  intro last n eof rest hin _
  simp only [List.cons_append, List.append_assoc, List.nil_append] at hin ⊢
  have hshort := hin.short
  rw [List.length_cons, List.length_append] at hshort
  have hread := h (fun t => t.type != .curlyEnd && t.type != .endOfInput)
    (fun t hmem => by
      generalize t.type = type at hmem
      revert type
      decide)
    (fun t ht => by simp [ht]) (show w.length ≤ n by omega) t.stop hin.tail hu
  simp only [block]
  rw [expect_bind ht, bind_of_ok hread, expect_bind hu, lastEnd_bind]
  simp

theorem noStmts_complete : Complete room [] (.stmts next []) := by
  intro go _ hstop k _ last n eof rest hin hnext
  cases k with
  | zero => rfl
  | succ k =>
    have hgo : go (rest.headD eof) = false := by
      refine hstop _ ?_
      rw [headD_type, hin.eof_type, hnext]
    simp only [List.nil_append, repeatWhile, peek_bind, hgo]
    rfl

theorem moreStmts_complete {s : Stmt} {list : List Stmt} (hd : Opens (exprStarters ++ stmtStarters) w)
    (h : Complete room w (.stmt (headType v next) s)) (hl : Complete room v (.stmts next list)) :
    Complete room (w ++ v) (.stmts next (s :: list)) := by
  intro go hgo hstop k hk last n eof rest hin hnext
  rw [List.append_assoc] at hin ⊢
  rw [List.length_append] at hk
  have hpos : 0 < w.length := List.length_pos_iff.2 hd.ne_nil
  obtain ⟨k, rfl⟩ : ∃ j, k = j + 1 := ⟨k - 1, by omega⟩
  have hfirst : go ((w ++ (v ++ rest)).headD eof) = true := by
    obtain ⟨t, u, rfl, ht⟩ := hd
    exact hgo t ht
  have hread := h last hin (by rw [headType_append, hnext])
  have hmore := hl go hgo hstop (show v.length ≤ k by omega) (endOf last w) hin.right hnext
  simp only [repeatWhile, peek_bind, hfirst, ↓reduceIte]
  rw [bind_of_ok hread, bind_of_ok hmore, endOf_append]
  rfl

end

/-! ## Every derivation -/

theorem complete_of_fits {phrase : Phrase} (h : Fits .tight room w phrase) : Complete room w phrase := by
  induction h with
  | ident ht hs =>
    cases hs
    exact ident_complete ht
  | oneIdent _ ih => exact commaList_one (fun _ => True) ih fun _ h => ⟨trivial, h⟩
  | moreIdents _ ht _ ih ihl => exact commaList_more (fun _ => True) ih ht ihl trivial
  | noParameters => exact noParameters_complete
  | parameters h ih => exact parameters_complete (h.derives.opens _ rfl) ih
  | name h ih => exact name_complete (h.derives.opens _ rfl) ih
  | number ht hn hs =>
    cases hs
    exact number_complete ht hn
  | string ht hs =>
    cases hs
    exact string_complete ht
  | word ht hk hs =>
    cases hs
    exact word_complete ht hk
  | paren h ih => exact paren_complete (h.derives.opens _ rfl) ih
  | atom _ ih => exact atom_complete ih
  | call _ ht _ hu hs ih iha =>
    cases hs
    exact call_complete ih ht iha hu
  | ofCall h ih => exact ofCall_complete (h.derives.opens _ rfl) ih
  | unary ht hx _ hs ih =>
    cases hs
    exact unary_complete ht hx ih
  | ofOperand _ ih => exact ofOperand_complete ih
  | binary _ ht hx _ hs ihl ihr =>
    cases hs
    exact operator_complete ihl ht ihr (by rw [hx, build_binary])
  | logical _ ht hx _ hs ihl ihr =>
    cases hs
    exact operator_complete ihl ht ihr (by rw [hx, build_logical])
  | ofOr _ ih => exact ofOr_complete ih
  | assign _ ht hx _ hs ihl ihr =>
    cases hs
    exact assign_complete ihl ht hx ihr
  | oneExpr _ ih => exact commaList_one (· ∉ continuing .assignment) ih fun _ h => h
  | moreExprs _ ht _ ih ihl => exact commaList_more (· ∉ continuing .assignment) ih ht ihl (by decide)
  | noArguments => exact .inl ⟨rfl, rfl⟩
  | arguments h ih => exact .inr ⟨h.derives.opens _ rfl, ih⟩
  | condition ht _ hu ih => exact condition_complete ht ih hu
  | absent => exact .inl ⟨rfl, rfl⟩
  | present h ih => exact .inr ⟨_, rfl, h.derives.opens _ rfl, ih⟩
  | bare h hs ih =>
    cases hs
    exact bare_complete (h.derives.opens _ rfl).ne_nil ih
  | initialized _ ht _ hs ih ihe =>
    cases hs
    exact initialized_complete ih ht ihe
  | oneDeclaration _ ih => exact commaList_one (· ∉ continuing .assignment) ih fun _ h => h
  | moreDeclarations _ ht _ ih ihl => exact commaList_more (· ∉ continuing .assignment) ih ht ihl (by decide)
  | declared ht _ hs ih =>
    cases hs
    exact variables_complete ht ih
  | noInit => exact noInit_complete
  | initVariables h ih => exact initVariables_complete (h.derives.opens _ rfl) ih
  | initExpr h ih => exact initExpr_complete (h.derives.opens _ rfl) ih
  | semi ht => exact semi_complete ht
  | atEnd => exact atEnd_complete
  | exprStmt h he hs ih ihe =>
    cases hs
    exact exprStmt_complete (h.derives.opens _ rfl) ih he.derives ihe
  | @variableStmt room w v next list inner span h he hs ih ihe =>
    cases hs
    have hinner : inner.start = startOf w := by
      cases h.derives with
      | declared _ _ hs => rw [hs]; rfl
    exact variableStmt_complete (h.derives.opens _ rfl) ih hinner he.derives ihe
  | blockStmt h ih => exact blockStmt_complete (h.derives.opens _ rfl) ih
  | emptyStmt ht hs =>
    cases hs
    exact emptyStmt_complete ht
  | ifThen ht _ _ hn hs ih ihb =>
    cases hs
    exact ifThen_complete ht ih ihb hn
  | ifElse ht _ _ hu _ hs ih ihb iho =>
    cases hs
    exact ifElse_complete ht ih ihb hu iho
  | whileLoop ht _ _ hs ih ihb =>
    cases hs
    exact whileLoop_complete ht ih ihb
  | doLoop ht _ hu _ _ hs ihb ih ihe =>
    cases hs
    exact doLoop_complete ht ihb hu ih ihe
  | forLoop ht ha _ hb _ hc _ hd _ hs ihi ih ihu ihx =>
    cases hs
    exact forLoop_complete ht ha ihi hb ih hc ihu hd ihx
  | function ht _ ha _ hb _ hs ih ihp ihx =>
    cases hs
    exact function_complete ht ih ha ihp hb ihx
  | ret ht _ he hs ih ihe =>
    cases hs
    exact ret_complete ht ih he.derives ihe
  | block ht _ hu hs ih =>
    cases hs
    exact block_complete ht ih hu
  | noStmts => exact noStmts_complete
  | moreStmts h _ ih ihl => exact moreStmts_complete (h.derives.opens _ rfl) ih ihl

/-- Tokens that derive a program in the room of the parser are parsed as it. -/
theorem statements_of_fits {body : List Stmt} {eof : Token} (h : Fits .tight room w (.stmts .endOfInput body))
    (htype : eof.type = .endOfInput) (last : Nat) :
    statements (w.length + 1) room (stateAt eof last w) = .ok (body, stateAt eof (endOf last w) []) := by
  have hin : Fed (w.length + 1) eof (w ++ []) := ⟨htype, by simp⟩
  have hread := complete_of_fits h (·.type != .endOfInput)
    (fun t hmem => by
      generalize t.type = type at hmem
      revert type
      decide)
    (fun t ht => by simp [ht]) (show w.length ≤ w.length + 1 by omega) last hin rfl
  rwa [List.append_nil] at hread

theorem parseTokens_of_fits {length : Nat} {tokens : Lexer.Tokens} {eof : Token} {body : List Stmt}
    (heof : tokens.ending = .ok eof) (htype : eof.type = .endOfInput)
    (h : Fits .tight room tokens.tokens (.stmts .endOfInput body)) :
    parseTokens room length tokens = .ok ⟨body, ⟨0, length⟩⟩ := by
  rw [parseTokens_eq heof, statements_of_fits h htype]
  rfl

/-- Tokens derive at most one program with its places. -/
theorem body_unique {body body' : List Stmt} (h : Derives .tight w (.stmts .endOfInput body))
    (h' : Derives .tight w (.stmts .endOfInput body')) : body = body' := by
  obtain ⟨room, h, h'⟩ := h.fitting.both h'.fitting
  cases (@statements_of_fits _ _ _ (.endOfInput 0) h rfl 0).symm.trans (statements_of_fits h' rfl 0)
  rfl

end Scriptlet.Parser
