import Scriptlet.Proofs.Braces
import Scriptlet.Proofs.KindredRules

/-!
Kinships of runs of the trees of programs. The trees of programs that are alike have parts that are
alike, so they belong together if what else is asked of them holds of their parts. Nothing has to be
said of trees that are not well formed, as none are met. Braces that only one of the programs has are
left to the kinship: they open a scope that the other run does not open.
-/

namespace Scriptlet

/-! ## Likeness -/

theorem Expr.like_refl (e : Expr) : e.Like e :=
  like_of_erase rfl

theorem Expr.rel_like_refl (e : Option Expr) : Option.Rel Expr.Like e e :=
  rel_of_erase like_of_erase rfl

mutual

theorem Stmt.like_refl (s : Stmt) : s.Like s := by
  cases s with
  | expr e => exact .expr e.like_refl
  | «variables» => exact .variables (forall₂_of_erase Declaration.like_of_erase rfl)
  | block body => exact .block (Stmt.like_reflAll body)
  | empty => exact .empty _ _
  | ifThen test body => exact .ifThen test.like_refl body.like_refl
  | ifElse test body other => exact .ifElse test.like_refl body.like_refl other.like_refl
  | whileLoop test body => exact .whileLoop test.like_refl body.like_refl
  | doLoop body test => exact .doLoop body.like_refl test.like_refl
  | forLoop init test update body =>
    exact .forLoop (rel_of_erase ForInit.like_of_erase rfl) (Expr.rel_like_refl test)
      (Expr.rel_like_refl update) body.like_refl
  | function name params body =>
    exact .function rfl (List.forall₂_same.2 fun _ _ => rfl) (Stmt.like_reflAll body)
  | ret e => exact .ret (Expr.rel_like_refl e)

theorem Stmt.like_reflAll (list : List Stmt) : List.Forall₂ Stmt.Like list list := by
  cases list with
  | nil => exact .nil
  | cons s rest => exact .cons s.like_refl (Stmt.like_reflAll rest)

end

/-! ## Trees that belong together -/

namespace Kinship

/-- Trees of expressions that are alike. -/
def ExprTrees (ok : Tree → Tree → Prop) (t t' : Tree) : Prop :=
  ∃ e e' : Expr, t = e.toTree ∧ t' = e'.toTree ∧ e.Like e' ∧ ok t t'

/-- Trees of statements that are alike, in scopes for statements that may bind names or do not. -/
def StmtTrees (ok : Tree → Tree → Prop) (stands : Bool → Nat → Nat → Prop) (s s' : Nat)
    (t t' : Tree) : Prop :=
  ∃ x x' : Stmt, t = x.toTree ∧ t' = x'.toTree ∧ x.Like x' ∧ ok t t' ∧ stands x.binds s s'

def BodyTrees (ok : Tree → Tree → Prop) (stands : Bool → Nat → Nat → Prop) (s s' : Nat)
    (t t' : Tree) : Prop :=
  ∃ body body' : List Stmt, t = .list (Stmt.toTrees body) ∧ t' = .list (Stmt.toTrees body') ∧
    List.Forall₂ Stmt.Like body body' ∧ ok t t' ∧ stands (body.any Stmt.binds) s s'

variable {W : Type} [Preorder W] {α : Type}

/-- What belongs together are trees of programs that are alike. -/
structure ProgramTrees (K : Kinship W) (ok : Tree → Tree → Prop)
    (stands : W → Bool → Nat → Nat → Prop) : Prop where
  exprs : K.Exprs = ExprTrees ok
  stmts : K.Stmts w = StmtTrees ok (stands w)
  bodies : K.Bodies w = BodyTrees ok (stands w)
  nodes : ok (.node kind start stop fields) (.node kind start' stop' fields') →
    K.Nodes (.node kind start stop fields) (.node kind start' stop' fields')
  parts : ok (.node kind start stop fields) (.node kind start' stop' fields') →
    fields.length = fields'.length → List.Forall₂ ok fields fields'
  items : ok (.list list) (.list list') → list.length = list'.length → List.Forall₂ ok list list'
  names : K.Names (.text word)
  targets : K.Targets (.text word)
  binds : stands w true s s' → K.Binds w s s' (.text word)
  opened : K.Opened w s s' → stands w b s s'
  views : stands w b s s' → K.Views w s s'
  weaken : stands w b s s' → (c = true → b = true) → stands w c s s'
  function {params params' : List Ident} {body body' : List Stmt} {inner inner' : Span} :
    stands w true s s' → w ≤ w' → K.Numbers w' n n' →
    List.Forall₂ (fun id id' : Ident => id.name = id'.name) params params' →
    List.Forall₂ Stmt.Like body body' →
    ok (.list (params.map Ident.toTree)) (.list (params'.map Ident.toTree)) →
    ok (inner.node .blockStatement [.list (Stmt.toTrees body)])
      (inner'.node .blockStatement [.list (Stmt.toTrees body')]) →
    K.Values w' (.closure ⟨n, .text word, .list (params.map Ident.toTree),
        inner.node .blockStatement [.list (Stmt.toTrees body)], s⟩)
      (.closure ⟨n', .text word, .list (params'.map Ident.toTree),
        inner'.node .blockStatement [.list (Stmt.toTrees body')], s'⟩)

/-- Items that belong together in lists that are alike. -/
theorem forall₂_map {β : Type} {like : β → β → Prop} {ok R : Tree → Tree → Prop} {f : β → Tree}
    {list list' : List β} (h : List.Forall₂ like list list')
    (hok : (list.map f).length = (list'.map f).length → List.Forall₂ ok (list.map f) (list'.map f))
    (hR : ∀ b b', like b b' → ok (f b) (f b') → R (f b) (f b')) :
    List.Forall₂ R (list.map f) (list'.map f) := by
  replace hok := hok (by rw [List.length_map, List.length_map, h.length_eq])
  induction h with
  | nil => exact .nil
  | cons hb _ ih =>
    cases hok with
    | cons hfirst hrest => exact .cons (hR _ _ hb hfirst) (ih hrest)

theorem Optional.ofOption {β : Type} {like : β → β → Prop} {ok R : Tree → Tree → Prop} {f : β → Tree}
    (hf : ∀ b, f b ≠ .null) {o o' : Option β} (h : Option.Rel like o o')
    (hok : ok (.ofOption f o) (.ofOption f o')) (hR : ∀ b b', like b b' → ok (f b) (f b') → R (f b) (f b')) :
    Optional R (.ofOption f o) (.ofOption f o') := by
  cases h with
  | none => exact .null
  | some h => exact .some (hf _) (hf _) (hR _ _ h hok)

omit [Preorder W] in
theorem Named.ident {K : Kinship W} {R : Tree → Prop} {id id' : Ident} (h : id.name = id'.name)
    (hR : R (.text id'.name)) : K.Named R id.toTree id'.toTree :=
  ⟨congrArg Tree.text h, h ▸ hR⟩

theorem Basics.symbol {K : Kinship W} (hB : K.Basics) {t t' : Tree} (ht : K.Nodes t t')
    (op : BinaryOp) : K.Applies t t' (.text op.symbol) := by
  refine hB.applies ht fun hop => ?_
  rw [BinaryOp.ofTree?_symbol] at hop
  cases hop

namespace ProgramTrees

variable {K : Kinship W} {ok : Tree → Tree → Prop} {stands : W → Bool → Nat → Nat → Prop}
  (hK : K.ProgramTrees ok stands) {w : W} {s s' : Nat} {t t' : Tree}
include hK

theorem expr {e e' : Expr} (h : e.Like e') (hok : ok e.toTree e'.toTree) :
    K.Exprs e.toTree e'.toTree := by
  rw [hK.exprs]
  exact ⟨e, e', rfl, rfl, h, hok⟩

theorem optional {e e' : Option Expr} (h : Option.Rel Expr.Like e e')
    (hok : ok (.ofOption Expr.toTree e) (.ofOption Expr.toTree e')) :
    Optional K.Exprs (.ofOption Expr.toTree e) (.ofOption Expr.toTree e') :=
  .ofOption Expr.toTree_ne_null h hok fun _ _ => hK.expr

theorem stmt {x x' : Stmt} (h : x.Like x') (hok : ok x.toTree x'.toTree)
    (hs : stands w x.binds s s') : K.Stmts w s s' x.toTree x'.toTree := by
  rw [hK.stmts]
  exact ⟨x, x', rfl, rfl, h, hok, hs⟩

theorem body {body body' : List Stmt} (h : List.Forall₂ Stmt.Like body body')
    (hok : ok (.list (Stmt.toTrees body)) (.list (Stmt.toTrees body')))
    (hs : stands w (body.any Stmt.binds) s s') :
    K.Bodies w s s' (.list (Stmt.toTrees body)) (.list (Stmt.toTrees body')) := by
  rw [hK.bodies]
  exact ⟨body, body', rfl, rfl, h, hok, hs⟩

theorem declares {d d' : Declaration} (h : d.Like d') (hok : ok d.toTree d'.toTree)
    (hs : stands w true s s') : K.Declares w s s' d.toTree d'.toTree := by
  have hparts := hK.parts hok rfl
  simp only [List.forall₂_cons] at hparts
  have hname : K.Named (fun name => K.Names name ∧ K.Binds w s s' name) d.id.toTree d'.id.toTree :=
    .ident h.1 ⟨hK.names, hK.binds hs⟩
  exact ⟨hK.optional h.2 hparts.2.1, hname⟩

theorem «variables» {list list' : List Declaration} {span span' : Span}
    (h : List.Forall₂ Declaration.Like list list')
    (hok : ok (Declaration.listToTree list span) (Declaration.listToTree list' span'))
    (hs : stands w true s s') :
    K.StmtParts w s s' (Declaration.listToTree list span) (Declaration.listToTree list' span') := by
  have hparts := hK.parts hok rfl
  simp only [List.forall₂_cons] at hparts
  refine .node (.variables (forall₂_map h (hK.items hparts.1) fun d d' hd hokd => ?_))
  exact hK.declares hd hokd hs

theorem exprParts (hB : K.Basics) (h : K.Exprs t t') : K.ExprParts t t' := by
  rw [hK.exprs] at h
  obtain ⟨e, e', rfl, rfl, he, hok⟩ := h
  cases he with
  | literal value span span' =>
    cases value <;> exact .node (hK.nodes hok) (.literal (by simp) fun _ => hB.scalar)
  | @ident id id' hname =>
    obtain ⟨name, span⟩ := id
    obtain ⟨name', span'⟩ := id'
    obtain rfl : name = name' := hname
    exact .node (hK.nodes hok) (.ident hK.names)
  | @unary op e e' span span' he =>
    have hparts := hK.parts hok rfl
    simp only [List.forall₂_cons] at hparts
    have hop : Tree.text op.symbol ∈ [.text "!", .text "-", .text "+"] := by
      cases op <;> simp [UnaryOp.symbol]
    exact .node (hK.nodes hok) (.unary (hK.expr he hparts.2.1) (hB.unaryAt (hK.nodes hok) (.inl hop)))
  | @binary op a a' b b' span span' ha hb =>
    have hparts := hK.parts hok rfl
    simp only [List.forall₂_cons] at hparts
    exact .node (hK.nodes hok) (.binary (hK.expr ha hparts.2.1) (hK.expr hb hparts.2.2.1)
      (hB.symbol (hK.nodes hok) op))
  | @logical op a a' b b' span span' ha hb =>
    have hparts := hK.parts hok rfl
    simp only [List.forall₂_cons] at hparts
    refine .node (hK.nodes hok) (.logical (hK.expr ha hparts.2.1) (hK.expr hb hparts.2.2.1) ?_)
    cases op with
    | and => exact .inl rfl
    | or => exact .inr (.inl rfl)
  | @assign op id id' e e' span span' hid he =>
    have hparts := hK.parts hok rfl
    simp only [List.forall₂_cons] at hparts
    have hnode := hK.nodes hok
    refine .node hnode (.assign (Named.ident hid ⟨hK.names, hK.targets⟩) (hK.expr he hparts.2.2.1) ?_)
    cases op with
    | set => exact .inl rfl
    | add => exact .inr ⟨rfl, hB.symbol hnode .add⟩
    | sub => exact .inr ⟨rfl, hB.symbol hnode .sub⟩
    | mul => exact .inr ⟨rfl, hB.symbol hnode .mul⟩
    | div => exact .inr ⟨rfl, hB.symbol hnode .div⟩
  | @call e e' args args' span span' he hargs =>
    have hparts := hK.parts hok rfl
    simp only [List.forall₂_cons, Expr.toTrees_eq_map] at hparts
    refine .node (hK.nodes hok) (.call (hK.expr he hparts.1) ?_)
    rw [Expr.toTrees_eq_map, Expr.toTrees_eq_map]
    exact forall₂_map hargs (hK.items hparts.2.1) fun _ _ => hK.expr

theorem forInit {init init' : Option ForInit} (h : Option.Rel ForInit.Like init init')
    (hok : ok (.ofOption ForInit.toTree init) (.ofOption ForInit.toTree init'))
    (hs : ∀ {b}, stands w b s s') :
    K.Match (fun _ _ _ => True) w (Plan.forInit s (.ofOption ForInit.toTree init))
      (Plan.forInit s' (.ofOption ForInit.toTree init')) := by
  cases h with
  | none => exact .give trivial
  | some h =>
    cases h with
    | @«variables» list list' span span' hlist =>
      have hstmt : K.Stmts w s s' (Stmt.variables list span).toTree (Stmt.variables list' span').toTree :=
        hK.stmt (.variables hlist) hok hs
      exact (Match.execute hstmt).bind fun _ _ _ _ _ => .give trivial
    | @expr e e' he =>
      have hevaluate : ∀ (k : Nat) (e : Expr), Plan.forInit k (.ofOption ForInit.toTree (some (.expr e))) =
          (do let _ ← Plan.evaluate k e.toTree) := by
        intro k e
        unfold Plan.forInit
        split
        · exact absurd ‹_› e.toTree_ne_null
        · exact absurd ‹_› (e.toTree_ne_variables _ _ _)
        · rfl
      rw [hevaluate, hevaluate]
      exact (Match.evaluate (hK.views (b := false) hs) (hK.expr he hok)).bind fun _ _ _ _ _ =>
        .give trivial

theorem bodyParts (h : K.Bodies w s s' t t') :
    K.Comes (List.Forall₂ (K.Stmts w s s')) (Eval.items t) (Eval.items t') := by
  rw [hK.bodies] at h
  obtain ⟨body, body', rfl, rfl, hbody, hok, hs⟩ := h
  rw [Stmt.toTrees_eq_map, Stmt.toTrees_eq_map] at hok ⊢
  have hitems := hK.items hok (by rw [List.length_map, List.length_map, hbody.length_eq])
  show List.Forall₂ (K.Stmts w s s') (body.map Stmt.toTree) (body'.map Stmt.toTree)
  clear hok
  induction hbody with
  | nil => exact .nil
  | @cons x x' rest rest' hx _ ih =>
    cases hitems with
    | cons hfirst hrest =>
      refine .cons (hK.stmt hx hfirst (hK.weaken hs fun hb => ?_)) (ih (hK.weaken hs fun hb => ?_) hrest)
      · rw [List.any_cons, hb, Bool.true_or]
      · rw [List.any_cons, hb, Bool.or_true]

/-- Statements that are alike have parts that are, apart from braces that only the second has. -/
theorem stmtParts {x x' : Stmt} (h : x.Like x') (hok : ok x.toTree x'.toTree)
    (hs : stands w x.binds s s')
    (hbraces : ∀ y span, x' = .block [y] span → x.Like y → x.binds = false →
      K.StmtParts w s s' x.toTree x'.toTree) : K.StmtParts w s s' x.toTree x'.toTree := by
  cases h with
  | «variables» hlist => exact hK.variables hlist hok hs
  | empty => exact .node .empty
  | braces hb hx => exact hbraces _ _ rfl hx hb
  | expr he =>
    have hparts := hK.parts hok rfl
    simp only [List.forall₂_cons] at hparts
    exact .node (.expr (hK.expr he hparts.1))
  | block hbody =>
    have hparts := hK.parts hok rfl
    simp only [List.forall₂_cons] at hparts
    exact .node (.block fun _ hk => hK.body hbody hparts.1 (hK.opened hk))
  | ifThen ht hx =>
    have hparts := hK.parts hok rfl
    simp only [List.forall₂_cons] at hparts
    exact .node (.cond (hK.expr ht hparts.1) (hK.stmt hx hparts.2.1 hs) .null)
  | @ifElse test test' x x' other other' span span' ht hx ho =>
    have hparts := hK.parts hok rfl
    simp only [List.forall₂_cons] at hparts
    refine .node (.cond (hK.expr ht hparts.1) (hK.stmt hx hparts.2.1 (hK.weaken hs fun hb => ?_))
      (.some other.toTree_ne_null other'.toTree_ne_null
        (hK.stmt ho hparts.2.2.1 (hK.weaken hs fun hb => ?_))))
    · rw [Stmt.binds, hb, Bool.true_or]
    · rw [Stmt.binds, hb, Bool.or_true]
  | whileLoop ht hx =>
    have hparts := hK.parts hok rfl
    simp only [List.forall₂_cons] at hparts
    exact .node (.whileLoop (hK.expr ht hparts.1) (hK.stmt hx hparts.2.1 hs))
  | doLoop hx ht =>
    have hparts := hK.parts hok rfl
    simp only [List.forall₂_cons] at hparts
    exact .node (.doLoop (hK.stmt hx hparts.1 hs) (hK.expr ht hparts.2.1))
  | forLoop hi ht hu hx =>
    have hparts := hK.parts hok rfl
    simp only [List.forall₂_cons] at hparts
    exact .node (.forLoop (fun _ hk => hK.forInit hi hparts.1 (hK.opened hk))
      (hK.optional ht hparts.2.1) (hK.optional hu hparts.2.2.1)
      fun _ hk => hK.stmt hx hparts.2.2.2.1 (hK.opened hk))
  | function hn hp hb =>
    have hparts := hK.parts hok rfl
    simp only [List.forall₂_cons] at hparts
    refine .node (.function (Named.ident hn ⟨hK.names, hK.binds hs, fun hle hid => ?_⟩))
    exact hK.function hs hle hid hp hb hparts.2.1 hparts.2.2.1
  | ret he =>
    have hparts := hK.parts hok rfl
    simp only [List.forall₂_cons] at hparts
    exact .node (.ret (hK.optional he hparts.1) (hK.nodes hok))

/-- Functions whose code is that of programs. -/
theorem codeParts {f f' : Closure} {params params' : List Ident} {body body' : List Stmt}
    {span span' : Span} (hscope : K.Views w f.scope f'.scope)
    (hparams : f.params = .list (params.map Ident.toTree))
    (hparams' : f'.params = .list (params'.map Ident.toTree))
    (hnames : List.Forall₂ (fun id id' : Ident => id.name = id'.name) params params')
    (hbody : f.body = span.node .blockStatement [.list (Stmt.toTrees body)])
    (hbody' : f'.body = span'.node .blockStatement [.list (Stmt.toTrees body')])
    (hlike : List.Forall₂ Stmt.Like body body')
    (hok : ok (.list (Stmt.toTrees body)) (.list (Stmt.toTrees body'))) : K.CodeParts w f f' where
  scope := hscope
  params := by
    rw [hparams, hparams']
    show List.Forall₂ _ (params.map Ident.toTree) (params'.map Ident.toTree)
    rw [List.forall₂_map_left_iff, List.forall₂_map_right_iff]
    exact hnames.imp fun _ _ h => Named.ident h hK.names
  body _ hk := by
    rw [hbody, hbody']
    exact hK.body hlike hok (hK.opened hk)

end ProgramTrees

end Kinship

end Scriptlet
