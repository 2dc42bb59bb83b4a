import Scriptlet.Proofs.Kinships

/-!
The rules on parts that belong together. Trees and values are taken apart as far as the rules look at them:
a kinship is lawful if what belongs together has parts that belong together, and if programs cannot tell
values apart that do. Then the plans of the rules match, so in any room the rules end alike.
-/

namespace Scriptlet

variable {α α' β β' : Type}

namespace Kinship

variable {W : Type} [Preorder W] (K : Kinship W)

/-! ## Parts -/

/-- Computations that have nothing to do with the machine come to the same. -/
def Comes (R : α → α' → Prop) (x : Eval α) (x' : Eval α') : Prop :=
  match Plan.quiet x, Plan.quiet x' with
  | .give a, .give a' => R a a'
  | .stop i, .stop i' => K.Stops i i'
  | _, _ => False

/-- Nodes with the same name. -/
def Named (R : Tree → Prop) (t t' : Tree) : Prop :=
  K.Comes (fun name name' => name = name' ∧ R name) (Eval.need t.name?) (Eval.need t'.name?)

/-- An operator gives values that belong together at two nodes. -/
def Applies (t t' operator : Tree) : Prop :=
  ∀ {w a a' b b'}, K.Values w a a' → K.Values w b b' →
    K.Comes (K.Values w) (Eval.applyAt t operator a b) (Eval.applyAt t' operator a' b')

/-- Parts that may be left out. -/
inductive Optional (R : Tree → Tree → Prop) : Tree → Tree → Prop
  | null : Optional R .null .null
  | some (ht : t ≠ .null) (ht' : t' ≠ .null) (h : R t t') : Optional R t t'

/-- The kind and the fields of two expressions. -/
inductive ExprFields (t t' : Tree) : NodeKind → List Tree → List Tree → Prop
  | literal (hkind : kind ∈ [.numericLiteral, .stringLiteral, .booleanLiteral, .nullLiteral])
      (hv : ∀ w, K.Values w (.ofTree v) (.ofTree v')) : ExprFields t t' kind [v] [v']
  | ident (hname : K.Names name) : ExprFields t t' .identifier [name] [name]
  | logical (hleft : K.Exprs left left') (hright : K.Exprs right right')
      (hop : operator = .text "&&" ∨ operator = .text "||" ∨ ∀ f, K.Stops (.fault f) (.fault f)) :
      ExprFields t t' .logicalExpression [operator, left, right] [operator, left', right']
  | binary (hleft : K.Exprs left left') (hright : K.Exprs right right')
      (hop : K.Applies t t' operator) :
      ExprFields t t' .binaryExpression [operator, left, right] [operator, left', right']
  | unary (hargument : K.Exprs argument argument')
      (hop : ∀ {w v v'}, K.Values w v v' →
        K.Comes (K.Values w) (Eval.unaryAt t operator v) (Eval.unaryAt t' operator v')) :
      ExprFields t t' .unaryExpression [operator, argument] [operator, argument']
  | assign (hname : K.Named (fun name => K.Names name ∧ K.Targets name) left left')
      (hright : K.Exprs right right')
      (hop : operator = .text "=" ∨ K.Comes
        (fun first first' => first = first' ∧ K.Applies t t' first) (Eval.firstOf operator)
        (Eval.firstOf operator)) :
      ExprFields t t' .assignmentExpression [operator, left, right] [operator, left', right']
  | call (hcallee : K.Exprs callee callee')
      (harguments : K.Comes (List.Forall₂ K.Exprs) (Eval.items arguments) (Eval.items arguments')) :
      ExprFields t t' .callExpression [callee, arguments] [callee', arguments']

inductive ExprParts : Tree → Tree → Prop
  | node (hnode : K.Nodes (.node kind start stop fields) (.node kind start' stop' fields'))
      (h : K.ExprFields (.node kind start stop fields) (.node kind start' stop' fields') kind fields
        fields') : ExprParts (.node kind start stop fields) (.node kind start' stop' fields')
  | other (h : ∀ s, Plan.evaluating s t = .stop i) (h' : ∀ s, Plan.evaluating s t' = .stop i')
      (hstops : K.Stops i i') : ExprParts t t'

/-- Declarations of one variable. -/
structure Declares (w : W) (s s' : Nat) (d d' : Tree) : Prop where
  init : K.Comes (Optional K.Exprs) (Eval.need d.init?) (Eval.need d'.init?)
  name : K.Comes (K.Named fun name => K.Names name ∧ K.Binds w s s' name) (Eval.need d.id?)
    (Eval.need d'.id?)

/-- The kind and the fields of two statements. -/
inductive StmtFields (w : W) (s s' : Nat) (t t' : Tree) : NodeKind → List Tree → List Tree → Prop
  | expr (he : K.Exprs e e') : StmtFields w s s' t t' .expressionStatement [e] [e']
  | «variables» (h : K.Comes (List.Forall₂ (K.Declares w s s')) (Eval.items list)
        (Eval.items list')) : StmtFields w s s' t t' .variableStatement [list] [list']
  | block (h : ∀ {w' k k'}, w ≤ w' → K.Opened w' k k' → K.Bodies w' k k' body body') :
      StmtFields w s s' t t' .blockStatement [body] [body']
  | empty : StmtFields w s s' t t' .emptyStatement [] []
  | cond (htest : K.Exprs test test') (hbody : K.Stmts w s s' body body')
      (hother : Optional (K.Stmts w s s') other other') :
      StmtFields w s s' t t' .ifStatement [test, body, other] [test', body', other']
  | whileLoop (htest : K.Exprs test test') (hbody : K.Stmts w s s' body body') :
      StmtFields w s s' t t' .whileStatement [test, body] [test', body']
  | doLoop (hbody : K.Stmts w s s' body body') (htest : K.Exprs test test') :
      StmtFields w s s' t t' .doWhileStatement [body, test] [body', test']
  | forLoop (hinit : ∀ {w' k k'}, w ≤ w' → K.Opened w' k k' →
        K.Match (fun _ _ _ => True) w' (Plan.forInit k init) (Plan.forInit k' init'))
      (htest : Optional K.Exprs test test') (hupdate : Optional K.Exprs update update')
      (hbody : ∀ {w' k k'}, w ≤ w' → K.Opened w' k k' → K.Stmts w' k k' body body') :
      StmtFields w s s' t t' .forStatement [init, test, update, body] [init', test', update', body']
  | function (hname : K.Named (fun name => K.Names name ∧ K.Binds w s s' name ∧
        ∀ {w' id id'}, w ≤ w' → K.Numbers w' id id' →
          K.Values w' (.closure ⟨id, name, params, body, s⟩)
            (.closure ⟨id', name, params', body', s'⟩)) name name') :
      StmtFields w s s' t t' .functionDeclaration [name, params, body] [name', params', body']
  | ret (hargument : Optional K.Exprs argument argument') (hnode : K.Nodes t t') :
      StmtFields w s s' t t' .returnStatement [argument] [argument']

inductive StmtParts (w : W) (s s' : Nat) : Tree → Tree → Prop
  | node (h : K.StmtFields w s s' (.node kind start stop fields) (.node kind start' stop' fields')
        kind fields fields') :
      StmtParts w s s' (.node kind start stop fields) (.node kind start' stop' fields')
  | other (h : ∀ fuel, Plan.executing fuel s t = .stop i)
      (h' : ∀ fuel, Plan.executing fuel s' t' = .stop i') (hstops : K.Stops i i') :
      StmtParts w s s' t t'

/-- Functions to be called. -/
structure CodeParts (w : W) (f f' : Closure) : Prop where
  scope : K.Views w f.scope f'.scope
  params : K.Comes (List.Forall₂ (K.Named K.Names)) (Eval.items f.params) (Eval.items f'.params)
  body : ∀ {w' s s'}, w ≤ w' → K.Opened w' s s' →
    K.Comes (K.Bodies w' s s') (Eval.need f.body.body?) (Eval.need f'.body.body?)

/-! ## Laws -/

/-- What belongs together has parts that belong together. -/
structure Lawful : Prop extends K.Basics where
  exprs : K.Exprs t t' → K.ExprParts t t'
  bodies : K.Bodies w s s' t t' →
    K.Comes (List.Forall₂ (K.Stmts w s s')) (Eval.items t) (Eval.items t')
  code : K.Values w (.closure f) (.closure f') → K.CodeParts w f f'

variable {K} {w : W} {s s' : Nat} {t t' test test' update update' body body' name : Tree}
  {v v' f f' : Value} {args args' : List Value} {list list' : List Tree} {R : α → α' → Prop}
  {S : W → β → β' → Prop}

/-! ## Operators -/

namespace Basics

variable (hK : K.Basics) (ht : K.Nodes t t')
include hK ht

/-- Operators that are not known go wrong on both sides. -/
theorem applies {operator : Tree}
    (h : BinaryOp.ofTree? operator = none → ∀ f, K.Stops (.fault f) (.fault f)) :
    K.Applies t t' operator := by
  intro w a a' b b' ha hb
  unfold Eval.applyAt
  cases hop : BinaryOp.ofTree? operator with
  | none => exact h hop _
  | some op =>
    dsimp only
    rw [(hK.twin ha).apply (hK.twin hb) op]
    have hplain := op.apply_plain a' b'
    cases hr : op.apply a' b' with
    | error cause =>
      rw [hr] at hplain
      exact hK.raised ht hplain
    | ok v =>
      rw [hr] at hplain
      obtain ⟨s, rfl⟩ := hplain
      exact hK.scalar

theorem unaryAt {operator : Tree} (h : operator ∈ [.text "!", .text "-", .text "+"] ∨
      ∀ f, K.Stops (.fault f) (.fault f)) (hv : K.Values w v v') :
    K.Comes (K.Values w) (Eval.unaryAt t operator v) (Eval.unaryAt t' operator v') := by
  unfold Eval.unaryAt
  split
  · rw [(hK.twin hv).isTruthy]
    exact hK.scalar
  · cases hK.twin hv with
    | closure => exact hK.raised ht trivial
    | same =>
      split
      · exact hK.scalar
      · exact hK.raised ht trivial
  · exact hv
  · refine h.resolve_left (fun hmem => ?_) _
    simp only [List.mem_cons, List.not_mem_nil, or_false] at hmem
    rcases hmem with rfl | rfl | rfl <;> contradiction

end Basics

/-! ## Requests -/

theorem Comes.bind {x : Eval α} {x' : Eval α'} {f : α → Plan β} {f' : α' → Plan β'}
    (h : K.Comes R x x') (hf : ∀ {a a'}, R a a' → K.Match S w (f a) (f' a')) :
    K.Match S w (Plan.quiet x >>= f) (Plan.quiet x' >>= f') := by
  unfold Comes at h
  split at h
  · rename_i hx hx'
    rw [hx, hx']
    exact hf h
  · rename_i hx hx'
    rw [hx, hx']
    exact .stop h
  · exact h.elim

theorem Comes.plan {x x' : Eval β} {S : W → β → β → Prop} (h : K.Comes (S w) x x') :
    K.Match S w (Plan.quiet x) (Plan.quiet x') := by
  unfold Comes at h
  split at h
  · rename_i hx hx'
    rw [hx, hx']
    exact .give h
  · rename_i hx hx'
    rw [hx, hx']
    exact .stop h
  · exact h.elim

theorem Comes.ends {x : Eval α} {x' : Eval α'} (h : K.Comes R x x') (hx : x.Quiet) (hx' : x'.Quiet)
    {m m' : Machine} (hm : K.Sound w m m') : K.Ends K.Stops (fun _ => R) w (x m) (x' m') := by
  rcases hx.eq_pure_or_throw with ⟨a, rfl⟩ | ⟨i, rfl⟩
  · rcases hx'.eq_pure_or_throw with ⟨a', rfl⟩ | ⟨i', rfl⟩
    · exact .ok le_rfl hm h
    · exact h.elim
  · rcases hx'.eq_pure_or_throw with ⟨a', rfl⟩ | ⟨i', rfl⟩
    · exact h.elim
    · exact .error le_rfl hm h

namespace Match

theorem evaluate (hs : K.Views w s s') (ht : K.Exprs t t') :
    K.Match K.Values w (.evaluate s t) (.evaluate s' t') :=
  .ask (.evaluate hs ht) fun _ _ _ _ hv => .give hv

theorem execute (h : K.Stmts w s s' t t') :
    K.Match K.Completes w (.execute s t) (.execute s' t') :=
  .ask (.execute h) fun _ _ _ _ hdone => .give hdone

theorem executeAll (h : K.Bodies w s s' t t') :
    K.Match K.Completes w (.executeAll s t) (.executeAll s' t') :=
  .ask (.executeAll h) fun _ _ _ _ hdone => .give hdone

theorem openScope (hs : K.Views w s s') : K.Match K.Opened w (.openScope s) (.openScope s') :=
  .act (.openScope hs) fun _ _ _ _ hk => .give hk

theorem define (hname : K.Names name) (hs : K.Binds w s s' name) (hv : K.Values w v v') :
    K.Match (fun _ _ _ => True) w (.define s name v) (.define s' name v') :=
  .act (.define hname hs hv) fun _ _ _ _ _ => .give trivial

theorem debug (topic : Topic) (text : String) :
    K.Match (fun _ _ _ => True) w (.debug topic text) (.debug topic text) :=
  .act (.debug topic text) fun _ _ _ _ _ => .give trivial

end Match

/-- The way a loop ends after a round, if it does. -/
abbrev Rounds (K : Kinship W) (w : W) : Option Completion → Option Completion → Prop :=
  Option.Rel (K.Completes w)

namespace Lawful

variable (hK : K.Lawful)
include hK

/-! ## Parts of rules -/

theorem iterate {once once' : Plan (Option Completion)}
    (h : ∀ {w'}, w ≤ w' → K.Match K.Rounds w' once once') (n : Nat) :
    K.Match K.Completes w (Plan.iterate once n) (Plan.iterate once' n) := by
  induction n generalizing w with
  | zero => exact .stop hK.noFuel
  | succ n ih =>
    refine (h le_rfl).bind fun w₁ r r' hle hr => ?_
    cases hr with
    | none => exact ih fun hle' => h (hle.trans hle')
    | some hdone => exact .give hdone

theorem evaluateAll (hs : K.Views w s s') (h : List.Forall₂ K.Exprs list list') :
    K.Match (fun w => List.Forall₂ (K.Values w)) w (Plan.evaluateAll s list)
      (Plan.evaluateAll s' list') := by
  induction h generalizing w with
  | nil => exact .give .nil
  | cons ht _ ih =>
    refine (Match.evaluate hs ht).bind fun w₁ v v' hle hv => ?_
    refine (ih (hK.views_mono hle hs)).bind fun w₂ rest rest' hle' hrest => ?_
    exact .give (.cons (hK.values_mono hle' hv) hrest)

theorem runAll {w' : W} (hle : w ≤ w') (h : List.Forall₂ (K.Stmts w s s') list list') :
    K.Match K.Completes w' (Plan.runAll s list) (Plan.runAll s' list') := by
  induction h generalizing w' with
  | nil => exact .give .normal
  | cons ht _ ih =>
    refine (Match.execute (hK.stmts_mono hle ht)).bind fun w₁ done done' hle' hdone => ?_
    cases hdone with
    | normal => exact ih (hle.trans hle')
    | returned hv hnode => exact .give (.returned hv hnode)

theorem bindParams {params params' : List Tree}
    (hparams : List.Forall₂ (K.Named K.Names) params params') (hs : K.Opened w s s')
    (hargs : List.Forall₂ (K.Values w) args args') :
    K.Match (fun _ _ _ => True) w (Plan.bindParams s params args)
      (Plan.bindParams s' params' args') := by
  induction hparams generalizing w args args' with
  | nil => exact .give trivial
  | cons hp _ ih =>
    cases hargs with
    | nil => exact .give trivial
    | cons hv hargs =>
      refine Comes.bind hp fun hname => ?_
      obtain ⟨rfl, hname⟩ := hname
      refine (Match.define hname (hK.opened_binds hs hname) hv).bind fun w₁ _ _ hle _ => ?_
      exact ih (hK.opened_mono hle hs) (hargs.imp fun _ _ => hK.values_mono hle)

theorem declare {w' : W} {d d' : Tree} (hle : w ≤ w') (hs : K.Views w s s')
    (h : K.Declares w s s' d d') :
    K.Match (fun _ _ _ => True) w' (Plan.declare s d) (Plan.declare s' d') := by
  have hbind : ∀ w₁ value value', w' ≤ w₁ → K.Values w₁ value value' →
      K.Match (fun _ _ _ => True) w₁
        (do let name ← Plan.quiet (Eval.need (← Plan.quiet (Eval.need d.id?)).name?)
            Plan.define s name value
            Plan.debug .declaration
              ("declare " ++ name.display ++ ": " ++ value.typeName ++ " = " ++ value.shown))
        (do let name ← Plan.quiet (Eval.need (← Plan.quiet (Eval.need d'.id?)).name?)
            Plan.define s' name value'
            Plan.debug .declaration
              ("declare " ++ name.display ++ ": " ++ value'.typeName ++ " = " ++ value'.shown)) := by
    intro w₁ value value' hle' hvalue
    rw [(hK.twin hvalue).typeName, (hK.twin hvalue).shown]
    refine h.name.bind fun hid => Comes.bind hid fun hname => ?_
    obtain ⟨rfl, hname, hbinds⟩ := hname
    exact (Match.define hname (hK.binds_mono (hle.trans hle') hbinds) hvalue).bind fun _ _ _ _ _ =>
      .debug _ _
  refine h.init.bind fun hinit => ?_
  cases hinit with
  | null => exact hbind w' _ _ le_rfl hK.scalar
  | some ht ht' he =>
    dsimp only
    split
    · exact absurd rfl ht
    · exact (Match.evaluate (hK.views_mono hle hs) he).bind hbind

theorem declareAll {w' : W} (hle : w ≤ w') (hs : K.Views w s s')
    (h : List.Forall₂ (K.Declares w s s') list list') :
    K.Match (fun _ _ _ => True) w' (Plan.declareAll s list) (Plan.declareAll s' list') := by
  induction h generalizing w' with
  | nil => exact .give trivial
  | cons hd _ ih =>
    exact (hK.declare hle hs hd).bind fun _ _ _ hle' _ => ih (hle.trans hle')

/-! ## Expressions -/

theorem assignAt {operator : Tree} (hs : K.Views w s s') (ht : K.Nodes t t')
    (hname : K.Names name ∧ K.Targets name) (hv : K.Values w v v')
    (hop : operator = .text "=" ∨ K.Comes (fun first first' => first = first' ∧ K.Applies t t' first)
      (Eval.firstOf operator) (Eval.firstOf operator)) :
    K.Match K.Values w (Plan.assignAt s t operator name v)
      (Plan.assignAt s' t' operator name v') := by
  have hassign : ∀ {w v v'}, K.Views w s s' → K.Values w v v' →
      K.Match K.Values w (.assign t s name v) (.assign t' s' name v') :=
    fun hs hv => .act (.assign ht hs hname.1 hname.2 hv) fun _ _ _ _ hv => .give hv
  have hlookup : K.Match K.Values w (.lookup t s name) (.lookup t' s' name) :=
    .act (.lookup ht hs hname.1) fun _ _ _ _ hv => .give hv
  unfold Plan.assignAt
  split
  · exact hassign hs hv
  · refine hlookup.bind fun w₁ current current' hle hcurrent => ?_
    have hfirst := hop.resolve_left (by assumption)
    refine hfirst.bind fun happly => ?_
    obtain ⟨rfl, happly⟩ := happly
    refine (happly hcurrent (hK.values_mono hle hv)).bind fun hvalue => ?_
    exact hassign (hK.views_mono hle hs) hvalue

theorem evaluating (hs : K.Views w s s') (h : K.ExprParts t t') :
    K.Match K.Values w (Plan.evaluating s t) (Plan.evaluating s' t') := by
  rcases h with ⟨hnode, h⟩ | ⟨h, h', hstops⟩
  · cases h with
    | literal hkind hv =>
      simp only [List.mem_cons, List.not_mem_nil, or_false] at hkind
      rcases hkind with rfl | rfl | rfl | rfl <;> exact .give (hv w)
    | ident hname => exact .act (.lookup hnode hs hname) fun _ _ _ _ hv => .give hv
    | logical hleft hright hop =>
      refine (Match.evaluate hs hleft).bind fun w₁ v v' hle hv => ?_
      have hother := Match.evaluate (hK.views_mono hle hs) hright
      rw [(hK.twin hv).isTruthy]
      split
      · split
        · exact hother
        · exact .give hv
      · split
        · exact .give hv
        · exact hother
      · exact .stop (((hop.resolve_left (by assumption)).resolve_left (by assumption)) _)
    | binary hleft hright hop =>
      refine (Match.evaluate hs hleft).bind fun w₁ a a' hle ha => ?_
      refine (Match.evaluate (hK.views_mono hle hs) hright).bind fun w₂ b b' hle' hb => ?_
      exact (hop (hK.values_mono hle' ha) hb).plan
    | unary hargument hop =>
      exact (Match.evaluate hs hargument).bind fun _ _ _ _ hv => (hop hv).plan
    | assign hname hright hop =>
      refine Comes.bind hname fun hname => ?_
      obtain ⟨rfl, hname⟩ := hname
      refine (Match.evaluate hs hright).bind fun w₁ v v' hle hv => ?_
      exact hK.assignAt (hK.views_mono hle hs) hnode hname hv hop
    | call hcallee harguments =>
      refine (Match.evaluate hs hcallee).bind fun w₁ f f' hle hf => ?_
      refine harguments.bind fun hlist => ?_
      refine (hK.evaluateAll (hK.views_mono hle hs) hlist).bind fun w₂ args args' hle' hargs => ?_
      exact .ask (.call hnode (hK.values_mono hle' hf) hargs) fun _ _ _ _ hv => .give hv
  · rw [h s, h' s']
    exact .stop hstops

/-! ## Calls -/

/-- A call is carried out in a scope of its own within that of the function. -/
theorem calling (ht : K.Nodes t t') (hnative : ∀ g, f ≠ .native g) (hf : K.Values w f f')
    (hargs : List.Forall₂ (K.Values w) args args') :
    K.Match K.Values w (Plan.calling t f args) (Plan.calling t' f' args') := by
  have hstops : K.Stops (.error (.atNode { cause := .notCallable f.typeName } t))
      (.error (.atNode { cause := .notCallable f'.typeName } t')) := by
    rw [(hK.twin hf).typeName]
    exact hK.raised ht trivial
  have hclosure : ∀ g g', f = .closure g → f' = .closure g' →
      K.Match K.Values w (Plan.calling t f args) (Plan.calling t' f' args') := by
    rintro g g' rfl rfl
    obtain ⟨hscope, hparams, hbody⟩ := hK.code hf
    refine (Match.openScope hscope).bind fun w₁ s s' hle hs => hparams.bind fun hparams => ?_
    refine (hK.bindParams hparams hs (hargs.imp fun _ _ => hK.values_mono hle)).bind
      fun w₂ _ _ hle₂ _ => ?_
    refine (hbody (hle.trans hle₂) (hK.opened_mono hle₂ hs)).bind fun hbody => ?_
    refine (Match.executeAll hbody).bind fun w₃ done done' _ hdone => ?_
    cases hdone with
    | normal => exact .give hK.scalar
    | returned hv => exact .give hv
  cases hK.twin hf with
  | closure => exact hclosure _ _ rfl rfl
  | same =>
    cases f with
    | scalar | data => exact .stop hstops
    | native g => exact absurd rfl (hnative g)
    | closure g => exact hclosure g g rfl rfl

/-! ## Statements -/

theorem executingAll (h : K.Bodies w s s' t t') :
    K.Match K.Completes w (Plan.executingAll s t) (Plan.executingAll s' t') :=
  (hK.bodies h).bind fun hlist => hK.runAll le_rfl hlist

theorem whileRound (htest : K.Exprs test test') (hbody : K.Stmts w s s' body body') :
    K.Match K.Rounds w (Plan.whileRound s test body) (Plan.whileRound s' test' body') := by
  refine (Match.evaluate (hK.stmts_views hbody) htest).bind fun w₁ v v' hle hv => ?_
  rw [(hK.twin hv).isTruthy]
  split
  · refine (Match.execute (hK.stmts_mono hle hbody)).bind fun w₂ done done' _ hdone => ?_
    cases hdone with
    | normal => exact .give .none
    | returned hv hnode => exact .give (.some (.returned hv hnode))
  · exact .give (.some .normal)

theorem doRound (hbody : K.Stmts w s s' body body') (htest : K.Exprs test test') :
    K.Match K.Rounds w (Plan.doRound s body test) (Plan.doRound s' body' test') := by
  refine (Match.execute hbody).bind fun w₁ done done' hle hdone => ?_
  cases hdone with
  | returned hv hnode => exact .give (.some (.returned hv hnode))
  | normal =>
    have hs := hK.views_mono hle (hK.stmts_views hbody)
    refine (Match.evaluate hs htest).bind fun w₂ v v' _ hv => ?_
    rw [(hK.twin hv).isTruthy]
    split
    · exact .give .none
    · exact .give (.some .normal)

theorem forTest (hs : K.Views w s s') (htest : Optional K.Exprs test test') :
    K.Match (fun _ => Eq) w (Plan.forTest s test) (Plan.forTest s' test') := by
  cases htest with
  | null => exact .give rfl
  | some ht ht' he =>
    unfold Plan.forTest
    split
    · exact absurd rfl ht
    · refine (Match.evaluate hs he).bind fun w₁ v v' _ hv => ?_
      rw [(hK.twin hv).isTruthy, (hK.twin hv).shown]
      exact (Match.debug _ _).bind fun _ _ _ _ _ => .give rfl

theorem forRound (htest : Optional K.Exprs test test') (hupdate : Optional K.Exprs update update')
    (hbody : K.Stmts w s s' body body') :
    K.Match K.Rounds w (Plan.forRound s test update body)
      (Plan.forRound s' test' update' body') := by
  refine (hK.forTest (hK.stmts_views hbody) htest).bind fun w₁ go _ hle heq => ?_
  subst heq
  have hbody₁ := hK.stmts_mono hle hbody
  unfold Plan.forBody
  split
  · refine (Match.execute hbody₁).bind fun w₂ done done' hle₂ hdone => ?_
    cases hdone with
    | returned hv hnode => exact .give (.some (.returned hv hnode))
    | normal =>
      cases hupdate with
      | null => exact .give .none
      | some ht ht' he =>
        dsimp only
        split
        · exact absurd rfl ht
        · have hs := hK.views_mono hle₂ (hK.stmts_views hbody₁)
          exact (Match.evaluate hs he).bind fun _ _ _ _ _ => .give .none
  · exact .give (.some .normal)

theorem executing (fuel : Nat) (hs : K.Views w s s') (h : K.StmtParts w s s' t t') :
    K.Match K.Completes w (Plan.executing fuel s t) (Plan.executing fuel s' t') := by
  rcases h with ⟨h⟩ | ⟨h, h', hstops⟩
  · cases h with
    | expr he => exact (Match.evaluate hs he).bind fun _ _ _ _ _ => .give .normal
    | «variables» h =>
      exact h.bind fun hlist => (hK.declareAll le_rfl hs hlist).bind fun _ _ _ _ _ => .give .normal
    | block h => exact (Match.openScope hs).bind fun _ _ _ hle hk => .executeAll (h hle hk)
    | empty => exact .give .normal
    | cond htest hbody hother =>
      refine (Match.evaluate hs htest).bind fun w₁ v v' hle hv => ?_
      rw [(hK.twin hv).isTruthy, (hK.twin hv).shown]
      refine (Match.debug _ _).bind fun w₂ _ _ hle₂ _ => ?_
      have hle' := hle.trans hle₂
      split
      · exact .execute (hK.stmts_mono hle' hbody)
      · cases hother with
        | null => exact .give .normal
        | some ht ht' h =>
          split
          · exact absurd rfl ht
          · exact .execute (hK.stmts_mono hle' h)
    | whileLoop htest hbody =>
      exact hK.iterate (fun hle => hK.whileRound htest (hK.stmts_mono hle hbody)) fuel
    | doLoop hbody htest =>
      exact hK.iterate (fun hle => hK.doRound (hK.stmts_mono hle hbody) htest) fuel
    | forLoop hinit htest hupdate hbody =>
      refine (Match.openScope hs).bind fun w₁ k k' hle hk => ?_
      refine (hinit hle hk).bind fun w₂ _ _ hle₂ _ => ?_
      refine hK.iterate (fun hle₃ => hK.forRound htest hupdate ?_) fuel
      exact hK.stmts_mono (hle₂.trans hle₃) (hbody hle hk)
    | function hname =>
      refine Match.bind (R := fun _ _ _ => True) (Comes.bind hname fun hname => ?_)
        fun _ _ _ _ _ => .give .normal
      obtain ⟨rfl, hname, hbinds, hclosure⟩ := hname
      refine .act .number fun w₁ id id' hle hid => ?_
      exact (Match.define hname (hK.binds_mono hle hbinds) (hclosure hle hid)).bind
        fun _ _ _ _ _ => .debug _ _
    | ret hargument hnode =>
      cases hargument with
      | null => exact .give (.returned hK.scalar hnode)
      | some ht ht' he =>
        unfold Plan.executing
        dsimp only
        split
        · exact absurd rfl ht
        · exact (Match.evaluate hs he).bind fun _ _ _ _ hv => .give (.returned hv hnode)
  · rw [h fuel, h' fuel]
    exact .stop hstops

/-! ## The checks before a call -/

theorem signature (ht : K.Nodes t t') (hf : K.Values w f f') :
    K.Comes (fun p p' => p = p' ∧ ∀ g, f = .native g → p.2 = g.arity?) (Eval.signature t f)
      (Eval.signature t' f') := by
  have hclosure : ∀ g g', f = .closure g → f' = .closure g' → g.name = g'.name →
      K.Comes (fun p p' => p = p' ∧ ∀ g, f = .native g → p.2 = g.arity?) (Eval.signature t f)
        (Eval.signature t' f') := by
    rintro g g' rfl rfl hname
    have hparams := (hK.code hf).params
    unfold Eval.signature
    rcases (Eval.Quiet.items g.params).eq_pure_or_throw with ⟨list, hlist⟩ | ⟨i, hlist⟩ <;>
    rcases (Eval.Quiet.items g'.params).eq_pure_or_throw with ⟨list', hlist'⟩ | ⟨i', hlist'⟩ <;>
    rw [hlist, hlist'] at hparams <;> dsimp only <;> rw [hlist, hlist']
    · refine ⟨?_, ?_⟩
      · rw [hname, List.Forall₂.length_eq hparams]
      · rintro _ ⟨⟩
    · exact hparams.elim
    · exact hparams.elim
    · exact hparams
  cases hK.twin hf with
  | closure _ hname => exact hclosure _ _ rfl rfl hname
  | same =>
    cases f with
    | scalar | data => exact hK.raised ht trivial
    | closure g => exact hclosure g g rfl rfl rfl
    | native g =>
      refine ⟨rfl, ?_⟩
      rintro _ ⟨⟩
      rfl

variable {cfg : Config} (hcalls : K.Calls) {m m' : Machine}
include hcalls

theorem checkDepth (cfg : Config) (ht : K.Nodes t t') (name : String)
    (hargs : List.Forall₂ (K.Values w) args args') (hm : K.Sound w m m') :
    K.Ends K.Stops (fun _ _ _ => True) w (Eval.checkDepth cfg t name args m)
      (Eval.checkDepth cfg t' name args' m') := by
  obtain ⟨scopes, rfl⟩ := hcalls.others hm
  unfold Eval.checkDepth
  rw [Value.Twin.map_shown (hargs.imp fun _ _ => hK.twin)]
  cases cfg.maxCallDepth with
  | none => exact hcalls.debug .call _ hm
  | some limit =>
    dsimp only
    rw [Eval.depthCheck_eq, Eval.depthCheck_eq]
    split
    · exact .error le_rfl hm (hcalls.tooDeep ht)
    · exact hcalls.debug .call _ hm

theorem checkCall (ht : K.Nodes t t') (hf : K.Values w f f')
    (hargs : List.Forall₂ (K.Values w) args args') (hm : K.Sound w m m') :
    K.Ends K.Stops (fun _ _ _ => ∀ g, f = .native g → g.Takes args) w
      (Eval.checkCall cfg t f args m) (Eval.checkCall cfg t' f' args' m') := by
  refine ((hK.signature ht hf).ends (.signature t f) (.signature t' f') hm).bind
    fun w₁ p _ n n' hle hn hp => ?_
  obtain ⟨rfl, hp⟩ := hp
  obtain ⟨name, arity⟩ := p
  have hdepth := hK.checkDepth hcalls cfg ht name (hargs.imp fun _ _ => hK.values_mono hle) hn
  cases arity with
  | none =>
    refine hdepth.imp le_rfl id fun _ g hg expected hexpected => ?_
    cases (hp g hg).trans hexpected
  | some expected =>
    dsimp only
    rw [hargs.length_eq]
    split
    · exact .error le_rfl hn (hK.raised ht trivial)
    · refine hdepth.imp le_rfl id fun _ g hg n hexpected => ?_
      cases (hp g hg).trans hexpected
      exact hargs.length_eq.trans (Decidable.not_not.1 (by assumption))

/-! ## Rules -/

/-- In room for one more, rules that are applied to parts that belong together end alike. -/
theorem succ {room room' : Nat} (hrules : K.Runs cfg room room') {job job' : Job}
    (hm : K.Sound w m m') (hfits : K.Fits w job job')
    (hstmts : ∀ s s' t t', job = .execute s t → job' = .execute s' t' → K.StmtParts w s s' t t') :
    K.Ends K.Stops (K.Yields · job job') w (job.run cfg (room + 1) m)
      (job'.run cfg (room' + 1) m') := by
  have hbasics := hK.toBasics
  rw [Job.run_succ, Job.run_succ]
  cases hfits with
  | evaluate hs ht => exact hcalls.plan hbasics hrules (hK.evaluating hs (hK.exprs ht)) hm
  | executeAll h => exact hcalls.plan hbasics hrules (hK.executingAll h) hm
  | execute h =>
    have hparts := hstmts _ _ _ _ rfl rfl
    exact hcalls.plan hbasics hrules (hK.executing _ (hK.stmts_views h) hparts) hm
  | @call t t' f f' args args' ht hf hargs =>
    refine (hK.checkCall hcalls ht hf hargs hm).bind fun w₁ _ _ n n' hle hn htakes => ?_
    refine hcalls.deeper hbasics ht hn fun hk => ?_
    have hf₁ := hK.values_mono hle hf
    have hargs₁ := hargs.imp fun _ _ => hK.values_mono hle
    by_cases hnative : ∃ g, f = .native g
    · obtain ⟨g, rfl⟩ := hnative
      cases hK.twin hf
      have hcall := hcalls.native hbasics cfg hk hargs₁ (htakes g rfl)
      rwa [← Plan.run_native cfg room, ← Plan.run_native cfg room'] at hcall
    · have hplan := hK.calling ht (fun g hg => hnative ⟨g, hg⟩) hf₁ hargs₁
      exact (hcalls.plan hbasics hrules hplan hk).imp le_rfl .inl id

/-- In any room. -/
theorem runs (hroom : K.Stops .noRoom .noRoom)
    (hstmts : ∀ {w s s' t t'}, K.Stmts w s s' t t' → K.StmtParts w s s' t t') (room : Nat) :
    K.Runs cfg room room := by
  induction room with
  | zero =>
    intro w m m' job job' hm hfits
    rw [Job.run_zero, Job.run_zero]
    exact .error le_rfl hm hroom
  | succ room ih =>
    intro w m m' job job' hm hfits
    refine hK.succ hcalls ih hm hfits ?_
    rintro s s' t t' rfl rfl
    cases hfits with
    | execute h => exact hstmts h

end Lawful

end Kinship

end Scriptlet
