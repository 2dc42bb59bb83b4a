import Scriptlet.Proofs.Computations

/-!
Rules as plans. A plan says what a rule does one request at a time: it asks for another rule, or it
accesses the machine, and goes on with what it gets. Plans hold no machine, so the requests that a rule
can make are found without running anything; run in some room, the plan of a rule is the rule in room for
one more (`Job.run_succ`).

Calls are the only rules that do something around their plan: the checks before it, and the depth.
-/

namespace Scriptlet

/-! ## Parts of statements -/

namespace Eval

/-- A round of a `for` loop once it is known whether there is one. -/
def forBody (cfg : Config) (room s : Nat) (update body : Tree) (go : Bool) :
    Eval (Option Completion) := do
  if go then
    match ← execute cfg room s body with
    | .normal =>
      match update with
      | .null => return none
      | update =>
        let _ ← evaluate cfg room s update
        return none
    | done => return some done
  else return some .normal

/-- One declaration of a statement. -/
def declare (cfg : Config) (room s : Nat) (d : Tree) : Eval Unit := do
  let value ← match ← need d.init? with
    | .null => pure .null
    | init => evaluate cfg room s init
  let name ← need (← need d.id?).name?
  define s name value
  debug cfg .declaration fun _ =>
    "declare " ++ name.display ++ ": " ++ value.typeName ++ " = " ++ value.shown

/-- One round of a `for` loop, which gives the way the loop ends if it does. -/
def forRound (cfg : Config) (room s : Nat) (test update body : Tree) : Eval (Option Completion) := do
  let go ← match test with
    | .null => pure true
    | test => do
      let v ← evaluate cfg room s test
      debug cfg .condition fun _ => "for condition " ++ v.shown
      pure v.isTruthy
  if go then
    match ← execute cfg room s body with
    | .normal =>
      match update with
      | .null => return none
      | update =>
        let _ ← evaluate cfg room s update
        return none
    | done => return some done
  else return some .normal

theorem execute_variables (cfg : Config) (room s : Nat) (start stop declarations : Tree) :
    execute cfg (room + 1) s (.node .variableStatement start stop [declarations]) = do
      (← items declarations).forM (declare cfg room s)
      return .normal := by
  rw [execute]
  rfl

theorem execute_for (cfg : Config) (room s : Nat) (start stop init test update body : Tree) :
    execute cfg (room + 1) s (.node .forStatement start stop [init, test, update, body]) = (do
      let s ← openScope s
      match init with
      | .null => pure ()
      | .node .variableStatement .. => do
        let _ ← execute cfg room s init
      | init => do
        let _ ← evaluate cfg room s init
      iterate (forRound cfg room s test update body) cfg.fuel) := by
  rw [execute]
  rfl

end Eval

/-! ## Requests -/

/-- A rule with what it is applied to. -/
inductive Job where
  | evaluate (s : Nat) (t : Tree)
  | call (t : Tree) (f : Value) (args : List Value)
  | executeAll (s : Nat) (body : Tree)
  | execute (s : Nat) (t : Tree)

abbrev Job.Result : Job → Type
  | .evaluate .. | .call .. => Value
  | .executeAll .. | .execute .. => Completion

def Job.run (cfg : Config) (room : Nat) : (job : Job) → Eval job.Result
  | .evaluate s t => Eval.evaluate cfg room s t
  | .call t f args => Eval.call cfg room t f args
  | .executeAll s body => Eval.executeAll cfg room s body
  | .execute s t => Eval.execute cfg room s t

/-- A single access to the machine. Names are looked up and assigned to at a node. -/
inductive Access where
  | openScope (parent : Nat)
  | define (s : Nat) (name : Tree) (value : Value)
  | lookup (t : Tree) (s : Nat) (name : Tree)
  | assign (t : Tree) (s : Nat) (name : Tree) (value : Value)
  /-- The number for a new function. -/
  | number
  | native (f : Native) (args : List Value)
  | debug (topic : Topic) (text : String)

abbrev Access.Result : Access → Type
  | .openScope _ | .number => Nat
  | .define .. | .debug .. => Unit
  | .lookup .. | .assign .. | .native .. => Value

def Access.run (cfg : Config) : (access : Access) → Eval access.Result
  | .openScope parent => Eval.openScope parent
  | .define s name value => Eval.define s name value
  | .lookup t s name => Eval.located t (Eval.lookup s name)
  | .assign t s name value => Eval.located t (Eval.assign s name value)
  | .number => fun m => .ok m.nextClosure { m with nextClosure := m.nextClosure + 1 }
  | .native f args => Native.call cfg f args
  | .debug topic text => Eval.debug cfg topic fun _ => text

/-! ## Plans -/

inductive Plan (α : Type) where
  | give (a : α)
  | stop (i : Interrupt)
  | ask (job : Job) (next : job.Result → Plan α)
  | act (access : Access) (next : access.Result → Plan α)

variable {α β : Type}

namespace Plan

def bind : Plan α → (α → Plan β) → Plan β
  | .give a, f => f a
  | .stop i, _ => .stop i
  | .ask job next, f => .ask job fun r => (next r).bind f
  | .act access next, f => .act access fun r => (next r).bind f

instance : Monad Plan where
  pure := .give
  bind := Plan.bind

/-- Carries out a plan with all rules in some room. -/
def run (cfg : Config) (room : Nat) : Plan α → Eval α
  | .give a => pure a
  | .stop i => throw i
  | .ask job next => do (next (← job.run cfg room)).run cfg room
  | .act access next => do (next (← access.run cfg)).run cfg room

theorem run_pure (cfg : Config) (room : Nat) (a : α) : (pure a : Plan α).run cfg room = pure a :=
  rfl

theorem run_bind (cfg : Config) (room : Nat) (plan : Plan α) (f : α → Plan β) :
    (plan >>= f).run cfg room = plan.run cfg room >>= fun a => (f a).run cfg room := by
  induction plan with
  | give a => rfl
  | stop i => rfl
  | ask job next ih =>
    show (job.run cfg room >>= fun r => (next r >>= f).run cfg room) = _
    simp only [ih, run, bind_assoc]
  | act access next ih =>
    show (access.run cfg >>= fun r => (next r >>= f).run cfg room) = _
    simp only [ih, run, bind_assoc]

/-! ### Requests as plans -/

def evaluate (s : Nat) (t : Tree) : Plan Value := .ask (.evaluate s t) .give
def call (t : Tree) (f : Value) (args : List Value) : Plan Value := .ask (.call t f args) .give
def executeAll (s : Nat) (body : Tree) : Plan Completion := .ask (.executeAll s body) .give
def execute (s : Nat) (t : Tree) : Plan Completion := .ask (.execute s t) .give
def openScope (parent : Nat) : Plan Nat := .act (.openScope parent) .give
def define (s : Nat) (name : Tree) (value : Value) : Plan Unit := .act (.define s name value) .give
def lookup (t : Tree) (s : Nat) (name : Tree) : Plan Value := .act (.lookup t s name) .give
def assign (t : Tree) (s : Nat) (name : Tree) (value : Value) : Plan Value :=
  .act (.assign t s name value) .give
def number : Plan Nat := .act .number .give
def native (f : Native) (args : List Value) : Plan Value := .act (.native f args) .give
def debug (topic : Topic) (text : String) : Plan Unit := .act (.debug topic text) .give

/-- What a computation gives that has nothing to do with the machine. -/
def quiet (x : Eval α) : Plan α :=
  match x { scopes := .root } with
  | .ok a _ => .give a
  | .error i _ => .stop i

/-! ## Rules

Each definition reads like the part of the evaluator that it stands for. -/

/-- Repeats a plan until it gives a result. -/
def iterate (once : Plan (Option α)) : Nat → Plan α
  | 0 => .stop .noFuel
  | n + 1 => do
    match ← once with
    | none => iterate once n
    | some a => return a

def evaluateAll (s : Nat) : List Tree → Plan (List Value)
  | [] => return []
  | t :: rest => do
    let v ← evaluate s t
    return v :: (← evaluateAll s rest)

def runAll (s : Nat) : List Tree → Plan Completion
  | [] => return .normal
  | t :: rest => do
    match ← execute s t with
    | .normal => runAll s rest
    | done => return done

def bindParams (s : Nat) : List Tree → List Value → Plan Unit
  | p :: params, v :: values => do
    define s (← quiet (Eval.need p.name?)) v
    bindParams s params values
  | _, _ => return ()

def declare (s : Nat) (d : Tree) : Plan Unit := do
  let value ← match ← quiet (Eval.need d.init?) with
    | .null => pure .null
    | init => evaluate s init
  let name ← quiet (Eval.need (← quiet (Eval.need d.id?)).name?)
  define s name value
  debug .declaration ("declare " ++ name.display ++ ": " ++ value.typeName ++ " = " ++ value.shown)

def declareAll (s : Nat) : List Tree → Plan Unit
  | [] => return ()
  | d :: rest => do
    declare s d
    declareAll s rest

def defineFunction (s : Nat) (name params body : Tree) : Plan Unit := do
  let name ← quiet (Eval.need name.name?)
  let id ← number
  define s name (.closure ⟨id, name, params, body, s⟩)
  debug .declaration ("define function " ++ name.display)

def assignAt (s : Nat) (t operator name : Tree) (value : Value) : Plan Value :=
  match operator with
  | .text "=" => assign t s name value
  | operator => do
    let current ← lookup t s name
    assign t s name (← quiet (Eval.applyAt t (← quiet (Eval.firstOf operator)) current value))

def evaluating (s : Nat) (t : Tree) : Plan Value :=
  match t with
  | .node .numericLiteral _ _ [value] | .node .stringLiteral _ _ [value]
  | .node .booleanLiteral _ _ [value] | .node .nullLiteral _ _ [value] =>
    return Value.ofTree value
  | .node .identifier _ _ [name] => lookup t s name
  | .node .logicalExpression _ _ [operator, left, right] => do
    let v ← evaluate s left
    match operator with
    | .text "&&" => if v.isTruthy then evaluate s right else return v
    | .text "||" => if v.isTruthy then return v else evaluate s right
    | other => .stop (.fault (.unknownLogical other.display))
  | .node .binaryExpression _ _ [operator, left, right] => do
    let a ← evaluate s left
    let b ← evaluate s right
    quiet (Eval.applyAt t operator a b)
  | .node .unaryExpression _ _ [operator, argument] => do
    quiet (Eval.unaryAt t operator (← evaluate s argument))
  | .node .assignmentExpression _ _ [operator, left, right] => do
    let name ← quiet (Eval.need left.name?)
    let value ← evaluate s right
    assignAt s t operator name value
  | .node .callExpression _ _ [callee, arguments] => do
    let f ← evaluate s callee
    let args ← evaluateAll s (← quiet (Eval.items arguments))
    call t f args
  | other => .stop (.fault (.unexpectedExpression other.kindName))

/-- What a call does once the checks are passed. -/
def calling (t : Tree) (f : Value) (args : List Value) : Plan Value :=
  match f with
  | .native f => native f args
  | .closure f => do
    let s ← openScope f.scope
    bindParams s (← quiet (Eval.items f.params)) args
    match ← executeAll s (← quiet (Eval.need f.body.body?)) with
    | .returned value _ => return value
    | .normal => return .null
  | v => quiet (Eval.raiseAt t (.notCallable v.typeName))

def executingAll (s : Nat) (body : Tree) : Plan Completion := do
  runAll s (← quiet (Eval.items body))

def whileRound (s : Nat) (test body : Tree) : Plan (Option Completion) := do
  if (← evaluate s test).isTruthy then
    match ← execute s body with
    | .normal => return none
    | done => return some done
  else return some .normal

def doRound (s : Nat) (body test : Tree) : Plan (Option Completion) := do
  match ← execute s body with
  | .normal => if (← evaluate s test).isTruthy then return none else return some .normal
  | done => return some done

/-- Whether a `for` loop goes on. -/
def forTest (s : Nat) (test : Tree) : Plan Bool :=
  match test with
  | .null => return true
  | test => do
    let v ← evaluate s test
    debug .condition ("for condition " ++ v.shown)
    return v.isTruthy

def forBody (s : Nat) (update body : Tree) (go : Bool) : Plan (Option Completion) := do
  if go then
    match ← execute s body with
    | .normal =>
      match update with
      | .null => return none
      | update =>
        let _ ← evaluate s update
        return none
    | done => return some done
  else return some .normal

def forRound (s : Nat) (test update body : Tree) : Plan (Option Completion) := do
  forBody s update body (← forTest s test)

/-- The first clause of a `for` loop. -/
def forInit (s : Nat) (init : Tree) : Plan Unit :=
  match init with
  | .null => return ()
  | .node .variableStatement .. => do
    let _ ← execute s init
  | init => do
    let _ ← evaluate s init

def executing (fuel s : Nat) (t : Tree) : Plan Completion :=
  match t with
  | .node .expressionStatement _ _ [e] => do
    let _ ← evaluate s e
    return .normal
  | .node .variableStatement _ _ [declarations] => do
    declareAll s (← quiet (Eval.items declarations))
    return .normal
  | .node .blockStatement _ _ [body] => do executeAll (← openScope s) body
  | .node .emptyStatement _ _ [] => return .normal
  | .node .ifStatement _ _ [test, consequent, alternate] => do
    let v ← evaluate s test
    debug .condition
      ("if condition " ++ v.shown ++ " -> " ++ (if v.isTruthy then "True" else "False"))
    if v.isTruthy then execute s consequent
    else
      match alternate with
      | .null => return .normal
      | alternate => execute s alternate
  | .node .whileStatement _ _ [test, body] => iterate (whileRound s test body) fuel
  | .node .doWhileStatement _ _ [body, test] => iterate (doRound s body test) fuel
  | .node .forStatement _ _ [init, test, update, body] => do
    let s ← openScope s
    forInit s init
    iterate (forRound s test update body) fuel
  | .node .functionDeclaration _ _ [name, params, body] => do
    defineFunction s name params body
    return .normal
  | .node .returnStatement _ _ [argument] => do
    let value ← match argument with
      | .null => pure .null
      | argument => evaluate s argument
    return .returned value t
  | other => .stop (.fault (.unexpectedStatement other.kindName))

end Plan

/-- The plan of a rule; that of a call comes after the checks. -/
def Job.plan (cfg : Config) : (job : Job) → Plan job.Result
  | .evaluate s t => .evaluating s t
  | .call t f args => .calling t f args
  | .executeAll s body => .executingAll s body
  | .execute s t => .executing cfg.fuel s t

/-- The machine that the plan of a rule is carried out on, unless the checks before it fail. -/
def Job.enter (cfg : Config) (job : Job) (m : Machine) : Option Machine :=
  match job with
  | .call t f args =>
    match Eval.checkCall cfg t f args m with
    | .ok _ m' => some { m' with callDepth := m'.callDepth + 1 }
    | .error _ _ => none
  | _ => some m

/-- What a rule does around its plan. -/
def Job.around (cfg : Config) : (job : Job) → Eval job.Result → Eval job.Result
  | .call t f args, x => do
    Eval.checkCall cfg t f args
    Eval.deeper t x
  | .evaluate .., x | .executeAll .., x | .execute .., x => x

/-! ## Plans and rules -/

namespace Plan

variable (cfg : Config) (room : Nat)

theorem run_quiet {x : Eval α} (h : x.Quiet) : (quiet x).run cfg room = x := by
  funext m
  rw [h m]
  unfold quiet
  cases x { scopes := .root } <;> rfl

theorem run_need (a : Option α) : (quiet (Eval.need a)).run cfg room = Eval.need a :=
  run_quiet cfg room (.need a)

theorem run_items (t : Tree) : (quiet (Eval.items t)).run cfg room = Eval.items t :=
  run_quiet cfg room (.items t)

theorem run_firstOf (t : Tree) : (quiet (Eval.firstOf t)).run cfg room = Eval.firstOf t :=
  run_quiet cfg room (.firstOf t)

theorem run_applyAt (t operator : Tree) (a b : Value) :
    (quiet (Eval.applyAt t operator a b)).run cfg room = Eval.applyAt t operator a b :=
  run_quiet cfg room (.applyAt t operator a b)

theorem run_unaryAt (t operator : Tree) (v : Value) :
    (quiet (Eval.unaryAt t operator v)).run cfg room = Eval.unaryAt t operator v :=
  run_quiet cfg room (.unaryAt t operator v)

theorem run_evaluate (s : Nat) (t : Tree) :
    (evaluate s t).run cfg room = Eval.evaluate cfg room s t :=
  bind_pure _

theorem run_call (t : Tree) (f : Value) (args : List Value) :
    (call t f args).run cfg room = Eval.call cfg room t f args :=
  bind_pure _

theorem run_executeAll (s : Nat) (body : Tree) :
    (executeAll s body).run cfg room = Eval.executeAll cfg room s body :=
  bind_pure _

theorem run_execute (s : Nat) (t : Tree) :
    (execute s t).run cfg room = Eval.execute cfg room s t :=
  bind_pure _

theorem run_openScope (parent : Nat) : (openScope parent).run cfg room = Eval.openScope parent :=
  bind_pure _

theorem run_define (s : Nat) (name : Tree) (value : Value) :
    (define s name value).run cfg room = Eval.define s name value :=
  bind_pure _

theorem run_lookup (t : Tree) (s : Nat) (name : Tree) :
    (lookup t s name).run cfg room = Eval.located t (Eval.lookup s name) :=
  bind_pure _

theorem run_assign (t : Tree) (s : Nat) (name : Tree) (value : Value) :
    (assign t s name value).run cfg room = Eval.located t (Eval.assign s name value) :=
  bind_pure _

theorem run_native (f : Native) (args : List Value) :
    (native f args).run cfg room = Native.call cfg f args :=
  bind_pure _

theorem run_debug (topic : Topic) (text : String) :
    (debug topic text).run cfg room = Eval.debug cfg topic fun _ => text :=
  bind_pure _

/-! ### Parts of rules -/

theorem run_iterate (once : Plan (Option α)) (n : Nat) :
    (iterate once n).run cfg room = Eval.iterate (once.run cfg room) n := by
  induction n with
  | zero => rfl
  | succ n ih =>
    funext m
    rw [iterate, run_bind, Eval.iterate]
    cases hr : once.run cfg room m with
    | error i m' => exact Eval.bind_of_error hr
    | ok r m' =>
      rw [Eval.bind_of_ok hr]
      cases r with
      | none => exact congrFun ih m'
      | some a => rfl

theorem run_evaluateAll (s : Nat) (list : List Tree) :
    (evaluateAll s list).run cfg room = list.mapM (Eval.evaluate cfg room s) := by
  induction list with
  | nil => rfl
  | cons t rest ih =>
    rw [evaluateAll, List.mapM_cons]
    simp only [run_bind, run_evaluate, run_pure, ih]

theorem run_runAll (s : Nat) (list : List Tree) :
    (runAll s list).run cfg room = Eval.runAll (Eval.execute cfg room s) list := by
  induction list with
  | nil => rfl
  | cons t rest ih =>
    rw [runAll, Eval.runAll, run_bind, run_execute]
    refine bind_congr fun done => ?_
    cases done with
    | normal => exact ih
    | returned => rfl

theorem run_bindParams (s : Nat) (params : List Tree) (values : List Value) :
    (bindParams s params values).run cfg room = Eval.bindParams s params values := by
  induction params generalizing values with
  | nil => rfl
  | cons p params ih =>
    cases values with
    | nil => rfl
    | cons v values =>
      rw [bindParams, Eval.bindParams]
      simp only [run_bind, run_need, run_define, ih]

theorem run_declare (s : Nat) (d : Tree) :
    (declare s d).run cfg room = Eval.declare cfg room s d := by
  unfold declare Eval.declare
  simp only [run_bind, run_need]
  refine bind_congr fun init => ?_
  split
  · simp only [run_bind, run_pure, run_need, run_define, run_debug]
  · simp only [run_bind, run_evaluate, run_need, run_define, run_debug]

theorem run_declareAll (s : Nat) (list : List Tree) :
    (declareAll s list).run cfg room = list.forM (Eval.declare cfg room s) := by
  induction list with
  | nil => rfl
  | cons d rest ih =>
    rw [declareAll, run_bind, run_declare]
    simp only [ih]
    rfl

theorem run_defineFunction (s : Nat) (name params body : Tree) :
    (defineFunction s name params body).run cfg room = Eval.defineFunction cfg s name params body := by
  unfold defineFunction Eval.defineFunction
  simp only [run_bind, run_need, run_define, run_debug]
  rfl

/-- Errors of each part get the place that errors of the whole get. -/
theorem located_bind (t : Tree) (x : Eval α) (f : α → Eval β) :
    Eval.located t (x >>= f) = Eval.located t x >>= fun a => Eval.located t (f a) := by
  funext m
  show _ = EStateM.bind (Eval.located t x) _ m
  unfold EStateM.bind Eval.located
  cases hr : x m with
  | ok a m' => rw [Eval.bind_of_ok hr]
  | error i m' =>
    rw [Eval.bind_of_error hr]
    cases i <;> rfl

/-- Errors that have their place keep it. -/
theorem located_applyAt (t operator : Tree) (a b : Value) :
    Eval.located t (Eval.applyAt t operator a b) = Eval.applyAt t operator a b := by
  unfold Eval.applyAt
  split
  · rfl
  · split
    · rfl
    · funext m
      cases t <;> rfl

theorem located_firstOf (t operator : Tree) :
    Eval.located t (Eval.firstOf operator) = Eval.firstOf operator := by
  unfold Eval.firstOf
  split
  · split <;> rfl
  · rfl
  · rfl
  · rfl

theorem run_assignAt (s : Nat) (t operator name : Tree) (value : Value) :
    (assignAt s t operator name value).run cfg room = Eval.assignAt s t operator name value := by
  unfold assignAt Eval.assignAt
  split
  · exact run_assign cfg room t s name value
  · simp only [run_bind, run_lookup, run_assign, run_firstOf, run_applyAt, located_bind,
      located_applyAt, located_firstOf]

/-! ### The four rules -/

theorem run_evaluating (s : Nat) (t : Tree) :
    (evaluating s t).run cfg room = Eval.evaluate cfg (room + 1) s t := by
  unfold evaluating
  split
  -- Literals of the four kinds come first.
  · rw [Eval.evaluate]
    rfl
  · rw [Eval.evaluate]
    rfl
  · rw [Eval.evaluate]
    rfl
  · rw [Eval.evaluate]
    rfl
  · rw [Eval.evaluate]
    exact run_lookup cfg room _ s _
  · rw [Eval.evaluate]
    simp only [run_bind, run_evaluate]
    refine bind_congr fun v => ?_
    split
    · split
      · exact run_evaluate cfg room s _
      · rfl
    · split
      · rfl
      · exact run_evaluate cfg room s _
    · simp only [run, Eval.fault]
  · rw [Eval.evaluate]
    simp only [run_bind, run_evaluate, run_applyAt]
  · rw [Eval.evaluate]
    simp only [run_bind, run_evaluate, run_unaryAt]
  · rw [Eval.evaluate]
    simp only [run_bind, run_evaluate, run_need, run_assignAt]
  · rw [Eval.evaluate]
    simp only [run_bind, run_evaluate, run_items, run_evaluateAll, run_call]
  · -- The last equation asks that no other applies.
    rw [Eval.evaluate]
    · rfl
    all_goals assumption

theorem run_calling (t : Tree) (f : Value) (args : List Value) :
    Eval.call cfg (room + 1) t f args = (do
      Eval.checkCall cfg t f args
      Eval.deeper t ((calling t f args).run cfg room)) := by
  rw [Eval.call.eq_def]
  dsimp only
  refine bind_congr fun _ => congrArg (Eval.deeper t) ?_
  cases f with
  | scalar | data => exact (run_quiet cfg room (.raiseAt t _)).symm
  | native f => exact (run_native cfg room f args).symm
  | closure f =>
    unfold calling
    simp only [run_bind, run_openScope, run_items, run_bindParams, run_need, run_executeAll]
    refine bind_congr fun s => bind_congr fun params => bind_congr fun _ => bind_congr fun body => ?_
    refine bind_congr fun done => ?_
    cases done <;> rfl

theorem run_executingAll (s : Nat) (body : Tree) :
    (executingAll s body).run cfg room = Eval.executeAll cfg (room + 1) s body := by
  rw [Eval.executeAll, executingAll]
  simp only [run_bind, run_items, run_runAll]

theorem run_forBody (s : Nat) (update body : Tree) (go : Bool) :
    (forBody s update body go).run cfg room = Eval.forBody cfg room s update body go := by
  unfold forBody Eval.forBody
  split
  · rw [run_bind, run_execute]
    refine bind_congr fun done => ?_
    cases done with
    | returned => rfl
    | normal =>
      dsimp only
      split
      · rfl
      · simp only [run_bind, run_evaluate, run_pure]
  · rfl

theorem run_forRound (s : Nat) (test update body : Tree) :
    (forRound s test update body).run cfg room = Eval.forRound cfg room s test update body := by
  unfold forRound forTest Eval.forRound
  split
  · rw [run_bind, run_pure]
    exact bind_congr fun go => run_forBody cfg room s update body go
  · simp only [run_bind, run_pure, run_evaluate, run_debug, bind_assoc]
    refine bind_congr fun v => bind_congr fun _ => bind_congr fun go => ?_
    exact run_forBody cfg room s update body go

theorem run_whileRound (s : Nat) (test body : Tree) :
    (whileRound s test body).run cfg room = (do
      if (← Eval.evaluate cfg room s test).isTruthy then
        match ← Eval.execute cfg room s body with
        | .normal => return none
        | done => return some done
      else return some .normal) := by
  unfold whileRound
  rw [run_bind, run_evaluate]
  refine bind_congr fun v => ?_
  split
  · rw [run_bind, run_execute]
    refine bind_congr fun done => ?_
    cases done <;> rfl
  · rfl

theorem run_doRound (s : Nat) (body test : Tree) :
    (doRound s body test).run cfg room = (do
      match ← Eval.execute cfg room s body with
      | .normal =>
        if (← Eval.evaluate cfg room s test).isTruthy then return none else return some .normal
      | done => return some done) := by
  unfold doRound
  rw [run_bind, run_execute]
  refine bind_congr fun done => ?_
  cases done with
  | returned => rfl
  | normal =>
    simp only [run_bind, run_evaluate]
    refine bind_congr fun v => ?_
    split <;> rfl

theorem run_executing (s : Nat) (t : Tree) :
    (executing cfg.fuel s t).run cfg room = Eval.execute cfg (room + 1) s t := by
  unfold executing
  split
  · rw [Eval.execute]
    simp only [run_bind, run_evaluate, run_pure]
  · rw [Eval.execute_variables]
    simp only [run_bind, run_items, run_declareAll, run_pure]
  · rw [Eval.execute]
    simp only [run_bind, run_openScope, run_executeAll]
  · rw [Eval.execute]
    rfl
  · unfold Eval.execute
    simp only [run_bind, run_evaluate, run_debug]
    refine bind_congr fun v => bind_congr fun _ => ?_
    split
    · exact run_execute cfg room s _
    · split
      · rfl
      · simp only [run_execute]
  · rw [Eval.execute, run_iterate]
    exact congrArg (Eval.iterate · cfg.fuel) (run_whileRound cfg room s _ _)
  · rw [Eval.execute, run_iterate]
    exact congrArg (Eval.iterate · cfg.fuel) (run_doRound cfg room s _ _)
  · rw [Eval.execute_for]
    simp only [run_bind, run_openScope, run_iterate, run_forRound]
    refine bind_congr fun s => ?_
    unfold forInit
    split
    · rfl
    · simp only [run_bind, run_execute, run_pure, bind_assoc, pure_bind]
    · simp only [run_bind, run_evaluate, run_pure, bind_assoc, pure_bind]
  · rw [Eval.execute]
    simp only [run_bind, run_defineFunction, run_pure]
  · unfold Eval.execute
    dsimp only
    split
    · rfl
    · simp only [run_bind, run_evaluate, run_pure]
  · rw [Eval.execute]
    · rfl
    all_goals assumption

end Plan

theorem Job.run_zero (cfg : Config) (job : Job) (m : Machine) :
    job.run cfg 0 m = .error .noRoom m := by
  cases job <;> simp only [Job.run, Eval.evaluate, Eval.call, Eval.executeAll, Eval.execute] <;> rfl

/-- In room for one more, a rule carries out its plan. -/
theorem Job.run_succ (cfg : Config) (room : Nat) (job : Job) :
    job.run cfg (room + 1) = job.around cfg ((job.plan cfg).run cfg room) := by
  cases job with
  | evaluate s t => exact (Plan.run_evaluating cfg room s t).symm
  | call t f args => exact Plan.run_calling cfg room t f args
  | executeAll s body => exact (Plan.run_executingAll cfg room s body).symm
  | execute s t => exact (Plan.run_executing cfg room s t).symm

end Scriptlet
