import Scriptlet.Proofs.KindredRules

/-!
Kinships of runs of the same trees. Any tree may be run, well formed or not: what is asked of expressions
holds of their parts, and what is asked of a statement in a scope holds of the statements within it that
are carried out in the same scope. Then equal trees have parts that belong together.
-/

namespace Scriptlet

/-- A statement within another that is carried out in the same scope. -/
inductive Tree.Branch : Tree → Tree → Prop
  | item {t u : Tree} {list : List Tree} (h : t.items? = some list) (hu : u ∈ list) : Branch t u
  | consequent : Branch (.node .ifStatement start stop [test, body, other]) body
  | alternate : Branch (.node .ifStatement start stop [test, body, other]) other
  | whileBody : Branch (.node .whileStatement start stop [test, body]) body
  | doBody : Branch (.node .doWhileStatement start stop [body, test]) body

/-- A name that a statement itself binds. -/
inductive Tree.Introduces : Tree → Tree → Prop
  | declaration {declarations d id name : Tree} {list : List Tree}
      (hlist : declarations.items? = some list) (hd : d ∈ list) (hid : d.id? = some id)
      (hname : id.name? = some name) :
      Introduces (.node .variableStatement start stop [declarations]) name
  | function {id name : Tree} (hname : id.name? = some name) :
      Introduces (.node .functionDeclaration start stop [id, params, body]) name

namespace Kinship

variable {W : Type} [Preorder W] {α : Type}

/-- What belongs together is equal and as it should be. -/
structure SameTrees (K : Kinship W) (E : Tree → Prop) (S : W → Nat → Nat → Tree → Prop) : Prop where
  exprs : K.Exprs t t' ↔ t = t' ∧ E t
  stmts : K.Stmts w s s' t t' ↔ t = t' ∧ S w s s' t
  bodies : K.Bodies w s s' t t' ↔ t = t' ∧ S w s s' t
  nodes : K.Nodes t t
  names : K.Names name
  faults : K.Stops (.fault f) (.fault f)
  data : K.Values w (.data t) (.data t)
  part : E (.node kind start stop fields) → u ∈ fields → E u
  item {t u : Tree} {list : List Tree} : E t → t.items? = some list → u ∈ list → E u
  init {d u : Tree} : E d → d.init? = some u → E u
  target {operator left right name : Tree} :
    E (.node .assignmentExpression start stop [operator, left, right]) → left.name? = some name →
    K.Targets name
  expr : S w s s' t → E t
  branch {t u : Tree} : S w s s' t → t.Branch u → S w s s' u
  opened : K.Opened w s s' → E t → S w s s' t
  introduces {t name : Tree} : S w s s' t → t.Introduces name → K.Binds w s s' name
  function {id params body : Tree} :
    S w s s' (.node .functionDeclaration start stop [id, params, body]) → w ≤ w' → K.Numbers w' n n' →
    K.Values w' (.closure ⟨n, name, params, body, s⟩) (.closure ⟨n', name, params, body, s'⟩)

theorem Optional.same {R : Tree → Tree → Prop} {t : Tree} (h : R t t) : Optional R t t := by
  by_cases ht : t = .null
  · rw [ht]
    exact .null
  · exact .some ht ht h

namespace SameTrees

variable {K : Kinship W} {E : Tree → Prop} {S : W → Nat → Nat → Tree → Prop}
  (hK : K.SameTrees E S) {w : W} {s s' : Nat} {t d : Tree}
include hK

theorem need {R : α → α → Prop} {a : Option α} (h : ∀ b, a = some b → R b b) :
    K.Comes R (Eval.need a) (Eval.need a) := by
  cases a with
  | none => exact hK.faults
  | some b => exact h b rfl

theorem items {R : Tree → Tree → Prop} (h : ∀ list, t.items? = some list → ∀ u ∈ list, R u u) :
    K.Comes (List.Forall₂ R) (Eval.items t) (Eval.items t) := by
  unfold Eval.items
  cases ht : t.items? with
  | none => exact hK.faults
  | some list => exact List.forall₂_same.2 (h list ht)

theorem named {R : Tree → Prop} (h : ∀ name, t.name? = some name → R name) : K.Named R t t :=
  hK.need fun name hname => ⟨rfl, h name hname⟩

theorem expr_self (h : E t) : K.Exprs t t :=
  hK.exprs.2 ⟨rfl, h⟩

theorem stmt_self (h : S w s s' t) : K.Stmts w s s' t t :=
  hK.stmts.2 ⟨rfl, h⟩

theorem declares (hd : E d) (h : ∀ id name, d.id? = some id → id.name? = some name →
    K.Binds w s s' name) : K.Declares w s s' d d where
  init := hK.need fun _ hinit => .same (hK.expr_self (hK.init hd hinit))
  name := hK.need fun id hid => hK.named fun name hname => ⟨hK.names, h id name hid hname⟩

variable (hB : K.Basics)
include hB

theorem ofTree (t : Tree) : K.Values w (.ofTree t) (.ofTree t) := by
  unfold Value.ofTree
  split
  · exact hB.scalar
  · exact hB.scalar
  · exact hK.data

theorem applies (t operator : Tree) : K.Applies t t operator :=
  hB.applies hK.nodes fun _ _ => hK.faults

theorem firstOf (t operator : Tree) : K.Comes (fun first first' => first = first' ∧ K.Applies t t first)
    (Eval.firstOf operator) (Eval.firstOf operator) := by
  unfold Eval.firstOf
  split
  · split
    · exact ⟨rfl, hK.applies hB t _⟩
    · exact hK.faults
  · exact ⟨rfl, hK.applies hB t _⟩
  · exact hK.faults
  · exact hK.faults

theorem exprParts (h : E t) : K.ExprParts t t := by
  have hpart : ∀ {kind start stop fields u}, E (.node kind start stop fields) → u ∈ fields →
      K.Exprs u u := fun h hu => hK.expr_self (hK.part h hu)
  fun_cases Plan.evaluating 0 t with
  | case1 | case2 | case3 | case4 =>
    exact .node hK.nodes (.literal (by simp) fun _ => hK.ofTree hB _)
  | case5 => exact .node hK.nodes (.ident hK.names)
  | case6 => exact .node hK.nodes (.logical (hpart h (by simp)) (hpart h (by simp))
      (.inr (.inr fun _ => hK.faults)))
  | case7 => exact .node hK.nodes (.binary (hpart h (by simp)) (hpart h (by simp)) (hK.applies hB _ _))
  | case8 => exact .node hK.nodes (.unary (hpart h (by simp))
      (hB.unaryAt hK.nodes (.inr fun _ => hK.faults)))
  | case9 =>
    refine .node hK.nodes (.assign (hK.named fun name hname => ?_) (hpart h (by simp))
      (.inr (hK.firstOf hB _ _)))
    exact ⟨hK.names, hK.target h hname⟩
  | case10 =>
    refine .node hK.nodes (.call (hpart h (by simp)) (hK.items fun list hlist u hu => ?_))
    exact hK.expr_self (hK.item (hK.part h (by simp)) hlist hu)
  | case11 =>
    refine .other (fun s => ?_) (fun s => ?_) (hK.faults (f := .unexpectedExpression t.kindName))
    all_goals
    · rw [Plan.evaluating]
      all_goals assumption

theorem stmtParts (h : S w s s' t) : K.StmtParts w s s' t t := by
  have hE := hK.expr h
  have hpart : ∀ {kind start stop fields u}, E (.node kind start stop fields) → u ∈ fields →
      K.Exprs u u := fun h hu => hK.expr_self (hK.part h hu)
  have hbranch : ∀ {u}, t.Branch u → K.Stmts w s s' u u := fun hu => hK.stmt_self (hK.branch h hu)
  fun_cases Plan.executing 0 s t with
  | case1 => exact .node (.expr (hpart hE (by simp)))
  | case2 =>
    refine .node (.variables (hK.items fun list hlist d hd => ?_))
    refine hK.declares (hK.item (hK.part hE (by simp)) hlist hd) fun id name hid hname => ?_
    exact hK.introduces h (.declaration hlist hd hid hname)
  | case3 =>
    refine .node (.block fun _ hk => hK.bodies.2 ⟨rfl, hK.opened hk (hK.part hE (by simp))⟩)
  | case4 => exact .node .empty
  | case5 => exact .node (.cond (hpart hE (by simp)) (hbranch .consequent) (.same (hbranch .alternate)))
  | case6 => exact .node (.whileLoop (hpart hE (by simp)) (hbranch .whileBody))
  | case7 => exact .node (.doLoop (hbranch .doBody) (hpart hE (by simp)))
  | case8 =>
    refine .node (.forLoop (fun _ hk => ?_) (.same (hpart hE (by simp))) (.same (hpart hE (by simp)))
      fun _ hk => hK.stmt_self (hK.opened hk (hK.part hE (by simp))))
    unfold Plan.forInit
    split
    · exact .give trivial
    · refine (Match.execute (hK.stmt_self (hK.opened hk (hK.part hE (by simp))))).bind ?_
      exact fun _ _ _ _ _ => .give trivial
    · have hview := hB.stmts_views (hK.stmt_self (hK.opened hk (hK.part hE List.mem_cons_self)))
      exact (Match.evaluate hview (hpart hE (by simp))).bind fun _ _ _ _ _ => .give trivial
  | case9 =>
    refine .node (.function (hK.named fun name hname => ⟨hK.names, ?_, hK.function h⟩))
    exact hK.introduces h (.function hname)
  | case10 => exact .node (.ret (.same (hpart hE (by simp))) hK.nodes)
  | case11 => exact .node (.ret (.same (hpart hE (by simp))) hK.nodes)
  | case12 =>
    refine .other (fun n => ?_) (fun n => ?_) (hK.faults (f := .unexpectedStatement t.kindName))
    all_goals
    · rw [Plan.executing]
      all_goals assumption

/-- The plans of rules match themselves. -/
theorem lawful (hcode : ∀ {w f f'}, K.Values w (.closure f) (.closure f') → K.CodeParts w f f') :
    K.Lawful where
  toBasics := hB
  exprs h := by
    obtain ⟨rfl, ht⟩ := hK.exprs.1 h
    exact hK.exprParts hB ht
  bodies h := by
    obtain ⟨rfl, ht⟩ := hK.bodies.1 h
    exact hK.items fun list hlist u hu => hK.stmt_self (hK.branch ht (.item hlist hu))
  code := hcode

omit hB in
/-- The rules belong together with themselves in any room. -/
theorem runs (hlawful : K.Lawful) (hcalls : K.Calls) (hroom : K.Stops .noRoom .noRoom) (cfg : Config)
    (room : Nat) : K.Runs cfg room room := by
  refine hlawful.runs hcalls hroom (fun h => ?_) room
  obtain ⟨rfl, ht⟩ := hK.stmts.1 h
  exact hK.stmtParts hlawful.toBasics ht

end SameTrees

end Kinship

end Scriptlet
