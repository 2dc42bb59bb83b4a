import Scriptlet.Proofs.ParserGrammar
import Scriptlet.Tree

/-!
Outlines of programs. The outline of a program has the stretch of text of each node, and inside it those of
the nodes that it is made of, from left to right. What the parser makes of a text is orderly: a node lies
inside the one it is a part of, parts of one node do not overlap and come in the order of the text, and a
node starts where some token starts and ends where some token ends.

Parentheses around an expression leave no node. A node starts with its first part, so it can start behind
such a parenthesis, and ends with its last token; so its parts are inside it all the same.
-/

namespace Scriptlet

/-! ## Tokens in order -/

/-- Tokens in order between two places. -/
def Ordered : Nat → List Token → Nat → Prop
  | low, [], high => low ≤ high
  | low, t :: w, high => low ≤ t.start ∧ t.start ≤ t.stop ∧ Ordered t.stop w high

namespace Ordered

variable {w : List Token} {low high : Nat}

theorem le (h : Ordered low w high) : low ≤ high := by
  induction w generalizing low with
  | nil => exact h
  | cons t w ih =>
    have := ih h.2.2
    have := h.1
    have := h.2.1
    omega

theorem endOf_le (h : Ordered low w high) :
    low ≤ endOf low w ∧ endOf low w ≤ high := by
  induction w generalizing low with
  | nil => exact ⟨Nat.le_refl _, h⟩
  | cons t w ih =>
    have := ih h.2.2
    have := h.1
    have := h.2.1
    rw [endOf]
    omega

theorem append {v : List Token} :
    Ordered low (w ++ v) high ↔ Ordered low w (endOf low w) ∧ Ordered (endOf low w) v high := by
  induction w generalizing low with
  | nil => simp [Ordered, endOf]
  | cons t w ih =>
    rw [List.cons_append, Ordered, ih, Ordered, endOf]
    simp only [and_assoc]

end Ordered

namespace Lexer

theorem Scans.ordered {rules : List Rule} {c c' : Cursor} {tokens : List Token}
    (h : Scans rules c tokens c') : Ordered c.offset tokens c'.offset := by
  induction h with
  | stop c => exact Nat.le_refl _
  | @drop c c' tokens n _ _ ih =>
    rw [Cursor.advance_offset] at ih
    cases tokens with
    | nil => exact Nat.le_trans (Nat.le_add_right ..) ih
    | cons t w => exact ⟨Nat.le_trans (Nat.le_add_right ..) ih.1, ih.2⟩
  | token _ _ _ ih => exact ⟨Nat.le_refl _, Nat.le_add_right .., ih⟩

end Lexer

/-! ## Outlines -/

/-- The stretch of a node and the outlines of its parts, from left to right. -/
inductive Outline where
  | node (span : Span) (parts : List Outline)
deriving Inhabited

namespace Outline

def span : Outline → Span
  | .node span _ => span

def parts : Outline → List Outline
  | .node _ parts => parts

mutual

/-- An outline and all outlines inside it. -/
def nodes : Outline → List Outline
  | .node span parts => .node span parts :: nodesAll parts

def nodesAll : List Outline → List Outline
  | [] => []
  | o :: rest => o.nodes ++ nodesAll rest

end

/-- What a node and its parts have to do with each other and with the tokens of a text. -/
structure Orderly (tokens : List Token) (length : Nat) (o : Outline) : Prop where
  proper : ∀ part ∈ o.parts, part.span.start < part.span.stop ∧ part.span.stop ≤ length
  inside : ∀ part ∈ o.parts, o.span.start ≤ part.span.start ∧ part.span.stop ≤ o.span.stop
  apart : o.parts.Pairwise fun a b => a.span.stop ≤ b.span.start
  starts : ∀ part ∈ o.parts, ∃ t ∈ tokens, t.start = part.span.start
  stops : ∀ part ∈ o.parts, ∃ t ∈ tokens, t.stop = part.span.stop

end Outline

/-! ## Outlines of syntax -/

def Ident.outline (id : Ident) : Outline :=
  .node id.span []

mutual

def Expr.outline : Expr → Outline
  | .literal _ span => .node span []
  | .ident id => id.outline
  | .unary _ operand span => .node span [operand.outline]
  | .binary _ left right span | .logical _ left right span =>
    .node span [left.outline, right.outline]
  | .assign _ target value span => .node span [target.outline, value.outline]
  | .call callee args span => .node span (callee.outline :: Expr.outlines args)

def Expr.outlines : List Expr → List Outline
  | [] => []
  | e :: rest => e.outline :: Expr.outlines rest

end

def Declaration.outline (d : Declaration) : Outline :=
  .node d.span (d.id.outline :: (d.init.map Expr.outline).toList)

def ForInit.outline : ForInit → Outline
  | .variables declarations span => .node span (declarations.map Declaration.outline)
  | .expr e => e.outline

mutual

def Stmt.outline : Stmt → Outline
  | .expr e span => .node span [e.outline]
  | .variables declarations span => .node span (declarations.map Declaration.outline)
  | .block body span => .node span (Stmt.outlines body)
  | .empty span => .node span []
  | .ifThen test consequent span => .node span [test.outline, consequent.outline]
  | .ifElse test consequent alternate span =>
    .node span [test.outline, consequent.outline, alternate.outline]
  | .whileLoop test body span => .node span [test.outline, body.outline]
  | .doLoop body test span => .node span [body.outline, test.outline]
  | .forLoop init test update body span =>
    .node span ((init.map ForInit.outline).toList ++ ((test.map Expr.outline).toList ++
      ((update.map Expr.outline).toList ++ [body.outline])))
  | .function name params body bodySpan span =>
    .node span (name.outline :: (params.map Ident.outline ++ [.node bodySpan (Stmt.outlines body)]))
  | .ret value span => .node span (value.map Expr.outline).toList

def Stmt.outlines : List Stmt → List Outline
  | [] => []
  | s :: rest => s.outline :: Stmt.outlines rest

end

def Program.outline (p : Program) : Outline :=
  .node p.span (Stmt.outlines p.body)

theorem Expr.outlines_eq_map (list : List Expr) : Expr.outlines list = list.map Expr.outline := by
  induction list with
  | nil => rfl
  | cons e rest ih => rw [Expr.outlines, ih, List.map_cons]

theorem Stmt.outlines_eq_map (list : List Stmt) : Stmt.outlines list = list.map Stmt.outline := by
  induction list with
  | nil => rfl
  | cons s rest ih => rw [Stmt.outlines, ih, List.map_cons]

theorem Expr.span_outline (e : Expr) : e.outline.span = e.span := by
  cases e <;> rfl

/-! ## Outlines and trees -/

/-- The place of a node as trees have it. -/
def Outline.place (o : Outline) : Tree :=
  .list [.ofNat o.span.start, .ofNat o.span.stop]

theorem Outline.nodesAll_append (list rest : List Outline) :
    Outline.nodesAll (list ++ rest) = Outline.nodesAll list ++ Outline.nodesAll rest := by
  induction list with
  | nil => rfl
  | cons o list ih => rw [List.cons_append, nodesAll, nodesAll, ih, List.append_assoc]

/-- Trees with the same nodes as outlines. -/
def Outlined (trees : List Tree) (list : List Outline) : Prop :=
  Tree.placesAll trees = (Outline.nodesAll list).map Outline.place

theorem outlined_nil : Outlined [] [] := rfl

theorem Outlined.cons {t : Tree} {trees : List Tree} {list rest : List Outline}
    (h : Outlined [t] list) (hrest : Outlined trees rest) : Outlined (t :: trees) (list ++ rest) := by
  rw [Outlined, Tree.placesAll, Tree.placesAll, List.append_nil] at h
  rw [Outlined, Tree.placesAll, h, hrest, Outline.nodesAll_append, List.map_append]

theorem Outlined.scalar {trees : List Tree} {list : List Outline} (h : Outlined trees list)
    (v : Scalar) : Outlined (.scalar v :: trees) list :=
  h

theorem Outlined.list {trees : List Tree} {list : List Outline} (h : Outlined trees list) :
    Outlined [.list trees] list := by
  rw [Outlined, Tree.placesAll, Tree.places, Tree.placesAll, List.append_nil, h]

theorem Outlined.node {span : Span} {kind : NodeKind} {fields : List Tree} {parts : List Outline}
    (h : Outlined fields parts) : Outlined [span.node kind fields] [.node span parts] := by
  rw [Outlined, Span.node, Tree.placesAll, Tree.places, Tree.placesAll, Outline.nodesAll,
    Outline.nodes, Outline.nodesAll, List.append_nil, List.append_nil, List.map_cons, h]
  rfl

theorem Outlined.map {α : Type} {toTree : α → Tree} {outline : α → Outline} (list : List α)
    (h : ∀ a, Outlined [toTree a] [outline a]) : Outlined (list.map toTree) (list.map outline) := by
  induction list with
  | nil => exact outlined_nil
  | cons a rest ih => exact (h a).cons ih

theorem Outlined.option {α : Type} {toTree : α → Tree} {outline : α → Outline} (value : Option α)
    (h : ∀ a, Outlined [toTree a] [outline a]) :
    Outlined [.ofOption toTree value] (value.map outline).toList := by
  cases value with
  | none => exact outlined_nil
  | some a => exact h a

theorem Ident.outlined (id : Ident) : Outlined [id.toTree] [id.outline] :=
  (outlined_nil.scalar _).node

mutual

theorem Expr.outlined (e : Expr) : Outlined [e.toTree] [e.outline] := by
  cases e with
  | literal value span => cases value <;> exact (outlined_nil.scalar _).node
  | ident id => exact id.outlined
  | unary op operand span => exact (operand.outlined.scalar _).node
  | binary op left right span | logical op left right span =>
    exact ((left.outlined.cons right.outlined).scalar _).node
  | assign op target value span => exact ((target.outlined.cons value.outlined).scalar _).node
  | call callee args span => exact (callee.outlined.cons (Expr.outlined_all args).list).node

theorem Expr.outlined_all (list : List Expr) : Outlined (Expr.toTrees list) (Expr.outlines list) := by
  cases list with
  | nil => exact outlined_nil
  | cons e rest => exact e.outlined.cons (Expr.outlined_all rest)

end

theorem Declaration.outlined (d : Declaration) : Outlined [d.toTree] [d.outline] :=
  (d.id.outlined.cons (.option d.init Expr.outlined)).node

theorem Declaration.outlined_list (list : List Declaration) (span : Span) :
    Outlined [Declaration.listToTree list span] [.node span (list.map Declaration.outline)] :=
  (Outlined.map list Declaration.outlined).list.node

theorem ForInit.outlined (init : ForInit) : Outlined [init.toTree] [init.outline] := by
  cases init with
  | «variables» list span => exact Declaration.outlined_list list span
  | expr e => exact e.outlined

mutual

theorem Stmt.outlined (s : Stmt) : Outlined [s.toTree] [s.outline] := by
  cases s with
  | expr e span => exact e.outlined.node
  | «variables» list span => exact Declaration.outlined_list list span
  | block body span => exact (Stmt.outlined_all body).list.node
  | empty span => exact outlined_nil.node
  | ifThen test body span =>
    exact (test.outlined.cons (body.outlined.cons (outlined_nil.scalar _))).node
  | ifElse test body other span =>
    exact (test.outlined.cons (body.outlined.cons other.outlined)).node
  | whileLoop test body span => exact (test.outlined.cons body.outlined).node
  | doLoop body test span => exact (body.outlined.cons test.outlined).node
  | forLoop init test update body span =>
    exact ((Outlined.option init ForInit.outlined).cons ((Outlined.option test Expr.outlined).cons
      ((Outlined.option update Expr.outlined).cons body.outlined))).node
  | function name params body bodySpan span =>
    exact (name.outlined.cons ((Outlined.map params Ident.outlined).list.cons
      (Stmt.outlined_all body).list.node)).node
  | ret value span => exact (Outlined.option value Expr.outlined).node

theorem Stmt.outlined_all (list : List Stmt) : Outlined (Stmt.toTrees list) (Stmt.outlines list) := by
  cases list with
  | nil => exact outlined_nil
  | cons s rest => exact s.outlined.cons (Stmt.outlined_all rest)

end

/-- The outline of a program has the nodes of its tree. -/
theorem Program.places_toTree (p : Program) :
    p.toTree.places = p.outline.nodes.map Outline.place := by
  have h : Outlined [p.toTree] [p.outline] := (Stmt.outlined_all p.body).list.node
  rwa [Outlined, Tree.placesAll, Tree.placesAll, Outline.nodesAll, Outline.nodesAll, List.append_nil,
    List.append_nil] at h

/-! ## Rows of outlines -/

/-- The outlines of the nodes of a phrase. -/
def Phrase.outlines : Phrase → List Outline
  | .ident id => [id.outline]
  | .idents list | .parameters list => list.map Ident.outline
  | .expr _ e | .condition e => [e.outline]
  | .exprs list | .arguments list => list.map Expr.outline
  | .optional value => (value.map Expr.outline).toList
  | .declaration d => [d.outline]
  | .declarations list => list.map Declaration.outline
  | .variables list span => [.node span (list.map Declaration.outline)]
  | .forInit init => (init.map ForInit.outline).toList
  | .terminator _ => []
  | .block body span => [.node span (Stmt.outlines body)]
  | .stmt _ s => [s.outline]
  | .stmts _ list => list.map Stmt.outline

mutual

/-- The outline of a node between tokens, whose parts stand in a row inside it. -/
inductive Outline.Nested (tokens : List Token) : Outline → Prop
  | node {span : Span} {parts : List Outline} (hlt : span.start < span.stop)
      (hstart : ∃ t ∈ tokens, t.start = span.start) (hstop : ∃ t ∈ tokens, t.stop = span.stop)
      (hparts : Outline.Row tokens span.start span.stop parts) :
      Outline.Nested tokens (.node span parts)

/-- Outlines one behind the other between two places. -/
inductive Outline.Row (tokens : List Token) : Nat → Nat → List Outline → Prop
  | nil {low high : Nat} (h : low ≤ high) : Outline.Row tokens low high []
  | cons {low high : Nat} {o : Outline} {rest : List Outline} (hlow : low ≤ o.span.start)
      (ho : Outline.Nested tokens o) (hrest : Outline.Row tokens o.span.stop high rest) :
      Outline.Row tokens low high (o :: rest)

end

namespace Outline

variable {tokens : List Token} {low low' mid high high' : Nat} {o : Outline} {list rest : List Outline}

theorem Nested.lt (h : Nested tokens o) : o.span.start < o.span.stop := by
  cases h with
  | node hlt => exact hlt

theorem Row.le (h : Row tokens low high list) : low ≤ high := by
  induction list generalizing low with
  | nil =>
    cases h with
    | nil h => exact h
  | cons o rest ih =>
    cases h with
    | cons hlow ho hrest =>
      have := ih hrest
      have := ho.lt
      omega

theorem Row.lower (h : Row tokens low high list) (hle : low' ≤ low) : Row tokens low' high list := by
  cases h with
  | nil h => exact .nil (Nat.le_trans hle h)
  | cons hlow ho hrest => exact .cons (Nat.le_trans hle hlow) ho hrest

theorem Row.append (h : Row tokens low mid list) (hrest : Row tokens mid high rest) :
    Row tokens low high (list ++ rest) := by
  induction list generalizing low with
  | nil => exact hrest.lower h.le
  | cons o list ih =>
    cases h with
    | cons hlow ho h => exact .cons hlow ho (ih h)

theorem Row.raise (h : Row tokens low high list) (hle : high ≤ high') : Row tokens low high' list := by
  have happend := h.append (.nil hle)
  rwa [List.append_nil] at happend

theorem Row.mem (h : Row tokens low high list) (ho : o ∈ list) :
    Nested tokens o ∧ low ≤ o.span.start ∧ o.span.stop ≤ high := by
  induction list generalizing low with
  | nil => cases ho
  | cons first list ih =>
    cases h with
    | cons hlow hfirst hrest =>
      rcases List.mem_cons.1 ho with rfl | ho
      · exact ⟨hfirst, hlow, hrest.le⟩
      · obtain ⟨hnested, hstart, hstop⟩ := ih hrest ho
        have := hfirst.lt
        exact ⟨hnested, by omega, hstop⟩

theorem Row.pairwise (h : Row tokens low high list) :
    list.Pairwise fun a b => a.span.stop ≤ b.span.start := by
  induction list generalizing low with
  | nil => exact .nil
  | cons o list ih =>
    cases h with
    | cons _ _ hrest => exact .cons (fun b hb => (hrest.mem hb).2.1) (ih hrest)

/-- Parts in a row inside a node make it orderly, and the nodes inside them are orderly, too. -/
theorem Row.orderly {length : Nat} {span : Span} (h : Row tokens span.start span.stop list)
    (hlength : span.stop ≤ length) : (Outline.node span list).Orderly tokens length where
  proper part hpart := by
    obtain ⟨hnested, -, hstop⟩ := h.mem hpart
    exact ⟨hnested.lt, Nat.le_trans hstop hlength⟩
  inside part hpart := (h.mem hpart).2
  apart := h.pairwise
  starts part hpart := by
    obtain ⟨⟨-, hstart, -, -⟩, -⟩ := h.mem hpart
    exact hstart
  stops part hpart := by
    obtain ⟨⟨-, -, hstop, -⟩, -⟩ := h.mem hpart
    exact hstop

mutual

theorem Nested.nodes {o : Outline} (h : Nested tokens o) :
    ∀ node ∈ o.nodes, Nested tokens node ∧ node.span.stop ≤ o.span.stop := by
  cases h with
  | node hlt hstart hstop hparts =>
    rw [Outline.nodes]
    exact List.forall_mem_cons.2 ⟨⟨.node hlt hstart hstop hparts, Nat.le_refl _⟩, hparts.nodesAll⟩

theorem Row.nodesAll {low high : Nat} {list : List Outline} (h : Row tokens low high list) :
    ∀ node ∈ nodesAll list, Nested tokens node ∧ node.span.stop ≤ high := by
  cases h with
  | nil => exact fun _ hnode => absurd hnode List.not_mem_nil
  | cons _ ho hrest =>
    rw [Outline.nodesAll]
    refine List.forall_mem_append.2 ⟨fun node hnode => ?_, hrest.nodesAll⟩
    obtain ⟨hnested, hstop⟩ := ho.nodes node hnode
    exact ⟨hnested, Nat.le_trans hstop hrest.le⟩

end

theorem Nested.orderly {length : Nat} (h : Nested tokens o) (hlength : o.span.stop ≤ length) :
    o.Orderly tokens length := by
  cases h with
  | node _ _ _ hparts => exact hparts.orderly hlength

end Outline

/-! ## Rows between tokens -/

/-- Wherever the tokens stand in order, the outlines stand in a row between the same places. -/
def Lays (tokens w : List Token) (list : List Outline) : Prop :=
  w ⊆ tokens → ∀ low high, Ordered low w high → Outline.Row tokens low high list

section

variable {tokens w v : List Token} {t : Token} {list rest : List Outline} {o : Outline} {span : Span}

theorem lays_nil : Lays tokens [] [] :=
  fun _ _ _ ho => .nil ho

theorem Lays.append (h : Lays tokens w list) (hrest : Lays tokens v rest) :
    Lays tokens (w ++ v) (list ++ rest) := by
  intro hsub low high ho
  obtain ⟨hw, hv⟩ := Ordered.append.1 ho
  obtain ⟨hsubw, hsubv⟩ := List.append_subset.1 hsub
  exact (h hsubw _ _ hw).append (hrest hsubv _ _ hv)

/-- A token that is no node of its own. -/
theorem Lays.behind (t : Token) (h : Lays tokens w list) : Lays tokens (t :: w) list := by
  intro hsub low high ho
  obtain ⟨h₁, h₂, hw⟩ := ho
  exact (h (List.cons_subset.1 hsub).2 _ _ hw).lower (Nat.le_trans h₁ h₂)

theorem lays_token (t : Token) : Lays tokens [t] [] :=
  lays_nil.behind t

theorem Lays.before (h : Lays tokens w list) (t : Token) : Lays tokens (w ++ [t]) list := by
  have happend := h.append (lays_token t)
  rwa [List.append_nil] at happend

/-- The parts of a node stand where it stands. -/
theorem Lays.parts (h : Lays tokens w [.node span list]) : Lays tokens w list := by
  intro hsub low high ho
  cases h hsub low high ho with
  | cons hlow hnested hnil =>
    cases hnested with
    | node _ _ _ hparts => exact (hparts.lower hlow).raise hnil.le

theorem exists_stop_eq_endOf (low : Nat) (hne : w ≠ []) : ∃ t ∈ w, t.stop = endOf low w := by
  induction w generalizing low with
  | nil => exact absurd rfl hne
  | cons t w ih =>
    cases w with
    | nil => exact ⟨t, List.mem_cons_self, rfl⟩
    | cons u w =>
      obtain ⟨x, hx, hstop⟩ := ih t.stop (List.cons_ne_nil u w)
      exact ⟨x, List.mem_cons_of_mem t hx, hstop⟩

/-- A node that starts with its first part. -/
theorem Lays.led (hs : Placing.tight o.span.start (w ++ v) span) (hne : w ≠ [])
    (h : Lays tokens w [o]) (hrest : Lays tokens v rest) :
    Lays tokens (w ++ v) [.node span (o :: rest)] := by
  subst hs
  intro hsub low high ho
  obtain ⟨hsubw, hsubv⟩ := List.append_subset.1 hsub
  obtain ⟨hw, hv⟩ := Ordered.append.1 ho
  obtain ⟨u, hu, hstop⟩ := exists_stop_eq_endOf 0 (List.append_ne_nil_of_left_ne_nil hne v)
  have hend : endOf 0 (w ++ v) = endOf (endOf low w) v := by
    rw [Parser.endOf_append, Parser.endOf_of_ne_nil hne 0 low]
  have hparts : Outline.Row tokens (endOf low w) (endOf 0 (w ++ v)) rest :=
    hend ▸ hrest hsubv _ _ (Ordered.append.1 (v.append_nil.symm ▸ hv)).1
  cases h hsubw _ _ hw with
  | cons hlow hnested hnil =>
    have hle := hnil.le
    have hlt := hnested.lt
    have hle' := hparts.le
    refine .cons hlow (.node (by dsimp only; omega) ?_ ⟨u, hsub hu, hstop⟩
      (.cons (Nat.le_refl _) hnested (hparts.lower hle))) (.nil ?_)
    · cases hnested with
      | node _ hstart => exact hstart
    · change endOf 0 (w ++ v) ≤ high
      exact hend ▸ hv.endOf_le.2

variable (hsolid : ∀ t ∈ tokens, t.start < t.stop)
include hsolid

/-- A node that a token opens. -/
theorem Lays.opened (hs : Placing.tight t.start (t :: w) span) (h : Lays tokens (t :: w) list) :
    Lays tokens (t :: w) [.node span list] := by
  subst hs
  intro hsub low high ho
  obtain ⟨hlow, hle, hw⟩ := ho
  have hlt := hsolid t (hsub List.mem_cons_self)
  obtain ⟨hend, hhigh⟩ := hw.endOf_le
  obtain ⟨u, hu, hstop⟩ := exists_stop_eq_endOf 0 (List.cons_ne_nil t w)
  have hparts : Outline.Row tokens t.start (endOf t.stop w) list :=
    h hsub _ _ ⟨Nat.le_refl _, hle, (Ordered.append.1 (w.append_nil.symm ▸ hw)).1⟩
  exact .cons hlow (.node (by dsimp only [endOf]; omega) ⟨t, hsub List.mem_cons_self, rfl⟩
    ⟨u, hsub hu, hstop⟩ hparts) (.nil hhigh)

/-- The outlines of a derived phrase stand in a row where its tokens stand. -/
theorem Derives.lays {phrase : Phrase} (h : Derives .tight w phrase) :
    Lays tokens w phrase.outlines := by
  induction h with
  | noParameters | noArguments | absent | noInit | atEnd | noStmts => exact lays_nil
  | semi => exact lays_token _
  | oneIdent _ ih | parameters _ ih | name _ ih | paren _ ih | atom _ ih | ofCall _ ih
  | ofOperand _ ih | ofOr _ ih | oneExpr _ ih | arguments _ ih | present _ ih | oneDeclaration _ ih
  | initVariables _ ih | initExpr _ ih | blockStmt _ ih => exact ih
  | ident _ hs | emptyStmt _ hs | number _ _ hs | string _ hs | word _ _ hs =>
    exact (lays_token _).opened hsolid hs
  | moreIdents _ _ _ ih ihl | moreExprs _ _ _ ih ihl | moreDeclarations _ _ _ ih ihl =>
    exact ih.append (ihl.behind _)
  | moreStmts _ _ ih ihl => exact ih.append ihl
  | condition _ _ _ ih => exact (ih.before _).behind _
  | unary _ _ _ hs ih => exact (ih.behind _).opened hsolid hs
  | call h _ _ _ hs ih iha =>
    rw [← Expr.span_outline] at hs
    rw [Phrase.outlines, Expr.outline, Expr.outlines_eq_map]
    exact ih.led hs h.expr_opens.ne_nil ((iha.before _).behind _)
  | binary h _ _ _ hs ihl ihr | logical h _ _ _ hs ihl ihr =>
    rw [← Expr.span_outline] at hs
    exact ihl.led hs h.expr_opens.ne_nil (ihr.behind _)
  | assign h _ _ _ hs ihl ihr => exact ihl.led hs h.expr_opens.ne_nil (ihr.behind _)
  | @bare w id span h hs ih =>
    rw [← w.append_nil] at hs ⊢
    exact ih.led hs (h.opens _ rfl).ne_nil lays_nil
  | initialized h _ _ hs ih ihe => exact ih.led hs (h.opens _ rfl).ne_nil (ihe.behind _)
  | declared _ _ hs ih => exact (ih.behind _).opened hsolid hs
  | exprStmt h he hs ih ihe =>
    obtain ⟨t, u, rfl, -⟩ := h.expr_opens
    exact (ih.append ihe).opened hsolid hs
  | variableStmt h _ hs ih ihe =>
    obtain ⟨t, u, rfl, -⟩ := h.opens _ rfl
    have hlist := ih.parts.append ihe
    rw [Phrase.outlines, List.append_nil] at hlist
    exact hlist.opened hsolid hs
  | ifThen _ _ _ _ hs ih ihb | whileLoop _ _ _ hs ih ihb =>
    exact ((ih.append ihb).behind _).opened hsolid hs
  | ifElse _ _ _ _ _ hs ih ihb iho =>
    exact ((ih.append (ihb.append (iho.behind _))).behind _).opened hsolid hs
  | doLoop _ _ _ _ _ hs ihb ih ihe =>
    exact ((ihb.append ((ih.append ihe).behind _)).behind _).opened hsolid hs
  | forLoop _ _ _ _ _ _ _ _ _ hs ihi ih ihu ihx =>
    exact (((ihi.append ((ih.append ((ihu.append (ihx.behind _)).behind _)).behind _)).behind _).behind
      _).opened hsolid hs
  | function _ _ _ _ _ _ hs ih ihp ihx =>
    exact ((ih.append ((ihp.append (ihx.behind _)).behind _)).behind _).opened hsolid hs
  | ret _ _ _ hs ih ihe =>
    have hvalue := ih.append ihe
    rw [Phrase.outlines, Phrase.outlines, List.append_nil] at hvalue
    exact (hvalue.behind _).opened hsolid hs
  | block _ _ _ hs ih =>
    rw [Phrase.outlines, Stmt.outlines_eq_map]
    exact ((ih.before _).behind _).opened hsolid hs

end

/-- The tokens of a text have some text each. -/
theorem Lexer.Scans.solid {rules : List Lexer.Rule} {c c' : Lexer.Cursor} {w : List Token}
    (h : Lexer.Scans rules c w c') : ∀ t ∈ w, t.start < t.stop := by
  induction h with
  | stop => exact fun t ht => absurd ht List.not_mem_nil
  | drop _ _ ih => exact ih
  | token hn _ _ ih => exact List.forall_mem_cons.2 ⟨Nat.lt_add_of_pos_right hn, ih⟩

theorem span_of_parse {table : KeywordTable} {source : String} {p : Program} {eof : Token}
    (heof : (Lexer.scan (Lexer.rules table) source).ending = .ok eof)
    (h : parse table source = .ok p) : p.span = ⟨0, source.length⟩ := by
  rw [parse, Parser.parseTokens_eq heof] at h
  revert h
  generalize Parser.statements _ _ _ = result
  intro h
  cases result with
  | error e => cases h
  | ok q =>
    cases h
    rfl

/-- The outlines of the statements of a text stand in a row. -/
theorem row_of_parse {table : KeywordTable} {source : String} {p : Program}
    (htable : ∀ k, "" ∉ table.spellings k) (h : parse table source = .ok p) :
    p.span = ⟨0, source.length⟩ ∧ Outline.Row (Lexer.scan (Lexer.rules table) source).tokens 0
      source.length (Stmt.outlines p.body) := by
  obtain ⟨eof, heof, htype⟩ := exists_end_of_parse htable h
  obtain ⟨c, hs, hend⟩ := Lexer.scans_of_scan heof htype
  rw [Stmt.outlines_eq_map]
  exact ⟨span_of_parse heof h, (derives_of_parse heof htype h).lays hs.solid (List.Subset.refl _) 0
    source.length (hs.offset_of_end hend ▸ hs.ordered)⟩

/-- The outline of a program that is parsed from a text has the nodes of its tree. All of them but the program
reach over some of the text, from the start of a token to the end of a token. A node lies inside the one it
is a part of, and the parts of a node stand one behind the other. -/
theorem outline_orderly_of_parse (table : KeywordTable) (htable : ∀ k, "" ∉ table.spellings k)
    (source : String) (p : Program) (h : parse table source = .ok p) :
    p.toTree.places = p.outline.nodes.map Outline.place ∧
      ∀ node ∈ p.outline.nodes,
        node.Orderly (Lexer.scan (Lexer.rules table) source).tokens source.length := by
  obtain ⟨hspan, hrow⟩ := row_of_parse htable h
  refine ⟨p.places_toTree, ?_⟩
  rw [Program.outline, hspan, Outline.nodes]
  refine List.forall_mem_cons.2 ⟨hrow.orderly (Nat.le_refl _), fun node hnode => ?_⟩
  obtain ⟨hnested, hstop⟩ := hrow.nodesAll node hnode
  exact hnested.orderly hstop

/-- A sum whose first operand is in parentheses, as the argument of a call. -/
theorem outline_orderly_of_parse_grouped :
    ∃ p, parse .default "f((a) + b, 1);" = .ok p ∧ p.outline.nodes.length = 8 ∧
      ∀ node ∈ p.outline.nodes,
        node.Orderly (Lexer.scan (Lexer.rules .default) "f((a) + b, 1);").tokens
          "f((a) + b, 1);".length := by
  obtain ⟨p, hp, hcount⟩ := exists_ok_of_map (by decide +kernel :
    (parse .default "f((a) + b, 1);").map (·.outline.nodes.length) = .ok 8)
  have htable : ∀ k, "" ∉ KeywordTable.default.spellings k := by decide
  exact ⟨p, hp, hcount, (outline_orderly_of_parse .default htable _ p hp).2⟩

end Scriptlet
