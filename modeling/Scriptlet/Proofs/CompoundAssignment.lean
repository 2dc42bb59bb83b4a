import Scriptlet.Proofs.MoreRoom

/-!
Compound assignment and its expansion. `x op= e` evaluates `e` and then looks the name up, while
`x = x op e` looks the name up first, so the two can part only where `e` gives the name another value. If
it does not, they give the same value or fail for the same reason, and leave the same machine: an error of
the operator is raised before anything is assigned, and an error of `e` before the operator is applied.

The expansion nests deeper by one. In one more room it does as the compound assignment does in all
respects, and in the same room it can at most run out of it.
-/

namespace Scriptlet

/-! ## The two forms

Each node has its own place, as trees may come from anywhere. -/

/-- A name as an expression. -/
def Tree.named (place : Tree × Tree) (x : String) : Tree :=
  .node .identifier place.1 place.2 [.text x]

/-- `x op= e` -/
def Tree.compound (place target : Tree × Tree) (op : BinaryOp) (x : String) (e : Tree) : Tree :=
  .node .assignmentExpression place.1 place.2 [.text (op.symbol ++ "="), .named target x, e]

/-- `x op e` -/
def Tree.applied (place operand : Tree × Tree) (op : BinaryOp) (x : String) (e : Tree) : Tree :=
  .node .binaryExpression place.1 place.2 [.text op.symbol, .named operand x, e]

/-- `x = value` -/
def Tree.assignment (place target : Tree × Tree) (x : String) (value : Tree) : Tree :=
  .node .assignmentExpression place.1 place.2 [.text "=", .named target x, value]

/-- The operators that can stand before `=`. -/
def BinaryOp.arithmetic : List BinaryOp :=
  [.add, .sub, .mul, .div]

/-! ## Evaluation -/

namespace Eval

variable {cfg : Config} {room s : Nat} {m m' : Machine} {op : BinaryOp} {x : String} {e : Tree}
  {v w : Value} {i : Interrupt}

theorem assignAt_compound (hop : op ∈ BinaryOp.arithmetic) (t name : Tree) :
    assignAt s t (.text (op.symbol ++ "=")) name w = located t (do
      let current ← lookup s name
      assign s name (← applyAt t (.text op.symbol) current w)) := by
  simp only [BinaryOp.arithmetic, List.mem_cons, List.not_mem_nil, or_false] at hop
  rcases hop with rfl | rfl | rfl | rfl <;> rfl

theorem located_of_ok {α : Type} {y : Eval α} {a : α} (h : y m = .ok a m') (t : Tree) :
    located t y m = .ok a m' := by
  unfold located
  rw [h]

theorem bind_of_eq {α β : Type} {y z : Eval α} (h : y m = z m') (f : α → Eval β) :
    (y >>= f) m = (z >>= f) m' := by
  cases hz : z m' with
  | ok a n => rw [bind_of_ok hz, bind_of_ok (h.trans hz)]
  | error i n => rw [bind_of_error hz, bind_of_error (h.trans hz)]

theorem evaluate_named (place : Tree × Tree) (hx : m.scopes.get? s (.word x) = some v) :
    evaluate cfg (room + 1) s (.named place x) m = .ok v m := by
  rw [Tree.named, evaluate]
  exact located_of_ok (lookup_of_some rfl hx) _

/-- A name that has a value is bound in some scope, so assigning to it raises no error. -/
theorem located_assign (hx : m.scopes.get? s (.word x) = some v) (t : Tree) (w : Value) :
    located t (assign s (.text x) w) m = assign s (.text x) w m := by
  unfold Scopes.get? at hx
  obtain ⟨found, hfound, -⟩ := Option.bind_eq_some_iff.1 hx
  have hassign : assign s (.text x) w m = .ok w _ := assign_of_some rfl hfound w
  rw [located_of_ok hassign, hassign]

/-- Assigns what an operator gives. An error of the operator is placed at a node. -/
def store (t : Tree) (s : Nat) (x : String) : Except Cause Value → Eval Value
  | .ok value => assign s (.text x) value
  | .error cause => raiseAt t cause

/-- Once the name has a value, only the operator can fail. -/
theorem applyAt_assign (hx : m.scopes.get? s (.word x) = some v) (t u : Tree) (a b : Value) :
    (applyAt t (.text op.symbol) a b >>= fun value => located u (assign s (.text x) value)) m =
      store t s x (op.apply a b) m := by
  unfold applyAt
  rw [BinaryOp.ofTree?_symbol]
  dsimp only
  cases op.apply a b with
  | ok value => exact located_assign hx u value
  | error cause => rfl

section Forms

variable (place target : Tree × Tree)

theorem evaluate_compound (hop : op ∈ BinaryOp.arithmetic) :
    evaluate cfg (room + 1) s (.compound place target op x e) =
      evaluate cfg room s e >>= fun w => located (.compound place target op x e) (do
        let current ← lookup s (.text x)
        assign s (.text x) (← applyAt (.compound place target op x e) (.text op.symbol) current w)) := by
  simp only [← assignAt_compound hop]
  rw [Tree.compound, evaluate]
  rfl

theorem evaluate_assignment (value : Tree) :
    evaluate cfg (room + 1) s (.assignment place target x value) =
      evaluate cfg room s value >>= fun w =>
        located (.assignment place target x value) (assign s (.text x) w) := by
  rw [Tree.assignment, evaluate]
  rfl

theorem evaluate_applied_zero :
    evaluate cfg 1 s (.applied place target op x e) m = .error .noRoom m := by
  rw [Tree.applied, evaluate]
  exact bind_of_error (Job.run_zero cfg (.evaluate s (.named target x)) m)

theorem evaluate_applied (hx : m.scopes.get? s (.word x) = some v) :
    evaluate cfg (room + 2) s (.applied place target op x e) m =
      (evaluate cfg (room + 1) s e >>=
        applyAt (.applied place target op x e) (.text op.symbol) v) m := by
  rw [Tree.applied, evaluate]
  exact Eval.bind_of_ok (evaluate_named target hx)

/-- If the value of the name is the same before and after, both forms assign what the operator gives. -/
theorem evaluate_compound_of_ok (hop : op ∈ BinaryOp.arithmetic) (hr : evaluate cfg room s e m = .ok w m')
    (hx : m'.scopes.get? s (.word x) = some v) :
    evaluate cfg (room + 1) s (.compound place target op x e) m =
      store (.compound place target op x e) s x (op.apply v w) m' := by
  have hlookup : located (.compound place target op x e) (lookup s (.text x)) m' = .ok v m' :=
    located_of_ok (lookup_of_some rfl hx) _
  rw [evaluate_compound place target hop, Eval.bind_of_ok hr, Plan.located_bind, Eval.bind_of_ok hlookup,
    Plan.located_bind, Plan.located_applyAt]
  exact applyAt_assign hx _ _ v w

theorem evaluate_expanded_of_ok (inner operand : Tree × Tree)
    (hr : evaluate cfg (room + 1) s e m = .ok w m') (hx : m.scopes.get? s (.word x) = some v)
    (hx' : m'.scopes.get? s (.word x) = some v) :
    evaluate cfg (room + 3) s (.assignment place target x (.applied inner operand op x e)) m =
      store (.applied inner operand op x e) s x (op.apply v w) m' := by
  have happlied : evaluate cfg (room + 2) s (.applied inner operand op x e) m =
      applyAt (.applied inner operand op x e) (.text op.symbol) v w m' := by
    rw [evaluate_applied inner operand hx, bind_of_ok hr]
  rw [evaluate_assignment, bind_of_eq happlied]
  exact applyAt_assign hx' _ _ v w

end Forms

end Eval

/-! ## Agreement -/

/-- The same result on the same machine; errors may have different places. -/
inductive SameButPlace {α : Type} :
    EStateM.Result Interrupt Machine α → EStateM.Result Interrupt Machine α → Prop
  | refl (r : EStateM.Result Interrupt Machine α) : SameButPlace r r
  | error {e e' : RuntimeError} (h : e.cause = e'.cause) (m : Machine) :
      SameButPlace (.error (.error e) m) (.error (.error e') m)

theorem SameButPlace.runsOut {α : Type} {r r' : EStateM.Result Interrupt Machine α}
    (h : SameButPlace r r') (hout : RunsOut r) : RunsOut r' := by
  cases h with
  | refl => exact hout
  | error h m => simpa [RunsOut, Interrupt.OutOfRoom, h] using hout

/-- It does not matter which node an error of the operator is placed at. -/
theorem SameButPlace.store (t u : Tree) (s : Nat) (x : String) (r : Except Cause Value) (m : Machine) :
    SameButPlace (Eval.store t s x r m) (Eval.store u s x r m) := by
  cases r with
  | ok value => exact .refl _
  | error cause =>
    exact .error ((RuntimeError.atNode_cause { cause } t).trans (RuntimeError.atNode_cause _ u).symm) m

/-- `x op= e` and `x = x op e` give the same value and leave the same machine, or fail for the same
reason, unless `e` gives the name another value. The expansion needs room for one more. -/
theorem evaluate_compound_expanded (cfg : Config) (room s : Nat) (m : Machine) (op : BinaryOp)
    (hop : op ∈ BinaryOp.arithmetic) (x : String) (e : Tree) (v : Value)
    (hx : m.scopes.get? s (.word x) = some v)
    (hkept : ∀ w m', Eval.evaluate cfg room s e m = .ok w m' → m'.scopes.get? s (.word x) = some v)
    (place target place' target' inner operand : Tree × Tree) :
    SameButPlace (Eval.evaluate cfg (room + 1) s (.compound place target op x e) m)
      (Eval.evaluate cfg (room + 2) s (.assignment place' target' x (.applied inner operand op x e)) m) ∧
    (SameButPlace (Eval.evaluate cfg (room + 2) s (.compound place target op x e) m)
      (Eval.evaluate cfg (room + 2) s (.assignment place' target' x (.applied inner operand op x e)) m) ∨
    RunsOut
      (Eval.evaluate cfg (room + 2) s (.assignment place' target' x (.applied inner operand op x e)) m)) := by
  have hsame : SameButPlace (Eval.evaluate cfg (room + 1) s (.compound place target op x e) m)
      (Eval.evaluate cfg (room + 2) s (.assignment place' target' x (.applied inner operand op x e)) m) := by
    cases room with
    | zero =>
      -- Neither `e` nor the name has any room.
      have hroom : Eval.evaluate cfg 0 s e m = .error .noRoom m := Job.run_zero cfg (.evaluate s e) m
      rw [Eval.evaluate_compound place target hop, Eval.bind_of_error hroom, Eval.evaluate_assignment,
        Eval.bind_of_error (Eval.evaluate_applied_zero inner operand)]
      exact .refl _
    | succ room =>
      cases hr : Eval.evaluate cfg (room + 1) s e m with
      | error i m' =>
        have happlied : Eval.evaluate cfg (room + 2) s (.applied inner operand op x e) m = .error i m' := by
          rw [Eval.evaluate_applied inner operand hx, Eval.bind_of_error hr]
        rw [Eval.evaluate_compound place target hop, Eval.bind_of_error hr, Eval.evaluate_assignment,
          Eval.bind_of_error happlied]
        exact .refl _
      | ok w m' =>
        rw [Eval.evaluate_compound_of_ok place target hop hr (hkept w m' hr),
          Eval.evaluate_expanded_of_ok place' target' inner operand hr hx (hkept w m' hr)]
        exact .store _ _ s x _ m'
  refine ⟨hsame, ?_⟩
  have hgrows : (Eval.evaluate cfg (room + 1) s (.compound place target op x e)).Grows
      (Eval.evaluate cfg (room + 2) s (.compound place target op x e)) :=
    Job.grows cfg (Nat.le_succ (room + 1)) (.evaluate s (.compound place target op x e))
  rcases hgrows m with hout | heq
  · exact .inr (hsame.runsOut hout)
  · rw [heq] at hsame
    exact .inl hsame

/-- `let x = 6; def f() { print(x); return 2; }` -/
def halving : Program :=
  { body :=
      [.variables [⟨⟨"x", .nowhere⟩, some (.literal (.number (.int 6)) .nowhere), .nowhere⟩] .nowhere,
       .function ⟨"f", .nowhere⟩ []
        [.expr (.call (.ident ⟨"print", .nowhere⟩) [.ident ⟨"x", .nowhere⟩] .nowhere) .nowhere,
         .ret (some (.literal (.number (.int 2)) .nowhere)) .nowhere] .nowhere .nowhere]
    span := .nowhere }

/-- The machine on which the name has a value and the function is declared. -/
def halved : Machine :=
  ((Machine.initial "").run { fuel := 1 } halving.toTree 0).2

/-- `f()` -/
def callF : Tree :=
  (Expr.call (.ident ⟨"f", .nowhere⟩) [] .nowhere).toTree

/-- `x /= f()` and `x = x / f()`, where the function shows the name and leaves it alone. -/
theorem evaluate_compound_expanded_call :
    halved.scopes.get? 0 (.word "x") = some (.number (.int 6)) ∧
      (∀ w m', Eval.evaluate { fuel := 1 } 20 0 callF halved = .ok w m' →
        m'.scopes.get? 0 (.word "x") = some (.number (.int 6))) ∧
      SameButPlace
        (Eval.evaluate { fuel := 1 } 21 0
          (.compound (.ofNat 0, .ofNat 8) (.ofNat 0, .ofNat 1) .div "x" callF) halved)
        (Eval.evaluate { fuel := 1 } 22 0
          (.assignment (.ofNat 0, .ofNat 11) (.ofNat 0, .ofNat 1) "x"
            (.applied (.ofNat 4, .ofNat 11) (.ofNat 4, .ofNat 5) .div "x" callF)) halved) := by
  have hx : halved.scopes.get? 0 (.word "x") = some (.number (.int 6)) := rfl
  have hkept : ∀ w m', Eval.evaluate { fuel := 1 } 20 0 callF halved = .ok w m' →
      m'.scopes.get? 0 (.word "x") = some (.number (.int 6)) := by
    intro w m' h
    have hleft : ((Eval.evaluate { fuel := 1 } 20 0 callF).left halved).scopes.get? 0 (.word "x") =
        some (.number (.int 6)) := rfl
    rw [Eval.left_of_ok h] at hleft
    exact hleft
  exact ⟨hx, hkept, (evaluate_compound_expanded { fuel := 1 } 20 0 halved .div (by decide) "x" callF _ hx
    hkept _ _ _ _ _ _).1⟩

end Scriptlet
