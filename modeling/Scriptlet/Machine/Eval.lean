import Scriptlet.Machine.Native
import Scriptlet.Machine.Operator

/-!
Running trees. `evaluate` gives the value of an expression and `execute` carries out a statement;
both work in a scope. A block, a `for` loop and a call open scopes of their own. A `return` is no
error: it ends every statement around it up to the call that it belongs to.

`room` bounds the nesting: every rule hands one less to the rules that it calls, so that a run ends
in good order where it would nest too deeply. Loops go round as often as the fuel allows.
-/

namespace Scriptlet

/-- How a statement ended. -/
inductive Completion where
  | normal
  /-- By the given `return` statement with a value. -/
  | returned (value : Value) (statement : Tree)

/-- A completion as it is shown inside other things. -/
def Completion.quoted : Completion → String
  | .normal => Scalar.null.quoted
  | .returned value _ => "<return " ++ value.quoted ++ ">"

namespace Eval

/-- Carries out statements in turn up to the first that returns. -/
def runAll (step : Tree → Eval Completion) : List Tree → Eval Completion
  | [] => return .normal
  | t :: rest => do
    match ← step t with
    | .normal => runAll step rest
    | done => return done

/-- The value of an operator at a node. -/
def applyAt (t operator : Tree) (a b : Value) : Eval Value :=
  match BinaryOp.ofTree? operator with
  | none => fault (.unknownOperator operator.display)
  | some op =>
    match op.apply a b with
    | .ok v => pure v
    | .error cause => raiseAt t cause

/-- The operator that a compound assignment begins with. -/
def firstOf : Tree → Eval Tree
  | .text s =>
    match s.toList with
    | c :: _ => pure (.text c.toString)
    | [] => fault .nothingFirst
  | .list (first :: _) => pure first
  | .list [] => fault .nothingFirst
  | _ => fault .wrongKind

def unaryAt (t operator : Tree) (v : Value) : Eval Value :=
  match operator with
  | .text "!" => return .bool (!v.isTruthy)
  | .text "-" =>
    match v with
    | .number n => return .number n.neg
    | v => raiseAt t (.operandNotNumber v.typeName)
  | .text "+" => return v
  | other => fault (.unknownUnary other.display)

/-- Assigns to a name, with an operator other than `=` on its present value. -/
def assignAt (s : Nat) (t operator name : Tree) (value : Value) : Eval Value :=
  located t do
    match operator with
    | .text "=" => assign s name value
    | operator =>
      let current ← lookup s name
      assign s name (← applyAt t (← firstOf operator) current value)

/-- Binds parameters to arguments, as many as there are of both. -/
def bindParams (s : Nat) : List Tree → List Value → Eval Unit
  | p :: params, v :: values => do
    define s (← need p.name?) v
    bindParams s params values
  | _, _ => pure ()

/-- The name of a function, as messages show it, and the number of its arguments. -/
def signature (t : Tree) (f : Value) : Eval (String × Option Nat) :=
  match f with
  | .native f => return (f.name, f.arity?)
  | .closure f => return (f.name.display, some (← items f.params).length)
  | v => raiseAt t (.notCallable v.typeName)

/-- The checks before a call. -/
def checkCall (cfg : Config) (t : Tree) (f : Value) (args : List Value) : Eval Unit := do
  let (name, arity) ← signature t f
  match arity with
  | some expected =>
    if args.length ≠ expected then raiseAt t (.wrongCount name expected args.length)
  | none => pure ()
  match cfg.maxCallDepth with
  | some limit => if limit ≤ (← get).callDepth then raiseAt t (.callDepth limit)
  | none => pure ()
  debug cfg .call fun _ => "call " ++ name ++ "(" ++ ", ".intercalate (args.map Value.shown) ++ ")"

/-- Runs a call one level deeper. Errors without a place get the place of the call, and nesting
without room becomes an error there. -/
def deeper {α : Type} (t : Tree) (x : Eval α) : Eval α := fun m =>
  match x { m with callDepth := m.callDepth + 1 } with
  | .ok a m' => .ok a { m' with callDepth := m'.callDepth - 1 }
  | .error i m' =>
    let i := match i with
      | .error e => .error (e.atNode t)
      | .noRoom => .error ({ cause := .callRoom : RuntimeError }.atNode t)
      | other => other
    .error i { m' with callDepth := m'.callDepth - 1 }

/-- Declares a function of the program. -/
def defineFunction (cfg : Config) (s : Nat) (name params body : Tree) : Eval Unit := do
  let name ← need name.name?
  let id := (← get).nextClosure
  modify fun m => { m with nextClosure := id + 1 }
  define s name (.closure ⟨id, name, params, body, s⟩)
  debug cfg .declaration fun _ => "define function " ++ name.display

mutual

/-- The value of an expression in a scope. -/
def evaluate (cfg : Config) : Nat → Nat → Tree → Eval Value
  | 0, _, _ => throw .noRoom
  | room + 1, s, t =>
    match t with
    | .node .numericLiteral _ _ [value] | .node .stringLiteral _ _ [value]
    | .node .booleanLiteral _ _ [value] | .node .nullLiteral _ _ [value] =>
      return Value.ofTree value
    | .node .identifier _ _ [name] => located t (lookup s name)
    | .node .logicalExpression _ _ [operator, left, right] => do
      let v ← evaluate cfg room s left
      match operator with
      | .text "&&" => if v.isTruthy then evaluate cfg room s right else return v
      | .text "||" => if v.isTruthy then return v else evaluate cfg room s right
      | other => fault (.unknownLogical other.display)
    | .node .binaryExpression _ _ [operator, left, right] => do
      let a ← evaluate cfg room s left
      let b ← evaluate cfg room s right
      applyAt t operator a b
    | .node .unaryExpression _ _ [operator, argument] => do
      unaryAt t operator (← evaluate cfg room s argument)
    | .node .assignmentExpression _ _ [operator, left, right] => do
      let name ← need left.name?
      let value ← evaluate cfg room s right
      assignAt s t operator name value
    | .node .callExpression _ _ [callee, arguments] => do
      let f ← evaluate cfg room s callee
      let args ← (← items arguments).mapM (evaluate cfg room s)
      call cfg room t f args
    | other => fault (.unexpectedExpression other.kindName)

/-- Calls a function with evaluated arguments, for a call at a node. -/
def call (cfg : Config) : Nat → Tree → Value → List Value → Eval Value
  | 0, _, _, _ => throw .noRoom
  | room + 1, t, f, args => do
    checkCall cfg t f args
    deeper t do
      match f with
      | .native f => Native.call cfg f args
      | .closure f =>
        let s ← openScope f.scope
        bindParams s (← items f.params) args
        match ← executeAll cfg room s (← need f.body.body?) with
        | .returned value _ => return value
        | .normal => return .null
      | v => raiseAt t (.notCallable v.typeName)

/-- Carries out the statements of a body in a scope. -/
def executeAll (cfg : Config) : Nat → Nat → Tree → Eval Completion
  | 0, _, _ => throw .noRoom
  | room + 1, s, body => do runAll (execute cfg room s) (← items body)

/-- Carries out a statement in a scope. -/
def execute (cfg : Config) : Nat → Nat → Tree → Eval Completion
  | 0, _, _ => throw .noRoom
  | room + 1, s, t =>
    match t with
    | .node .expressionStatement _ _ [e] => do
      let _ ← evaluate cfg room s e
      return .normal
    | .node .variableStatement _ _ [declarations] => do
      (← items declarations).forM fun d => do
        let value ← match ← need d.init? with
          | .null => pure .null
          | init => evaluate cfg room s init
        let name ← need (← need d.id?).name?
        define s name value
        debug cfg .declaration fun _ =>
          "declare " ++ name.display ++ ": " ++ value.typeName ++ " = " ++ value.shown
      return .normal
    | .node .blockStatement _ _ [body] => do executeAll cfg room (← openScope s) body
    | .node .emptyStatement _ _ [] => return .normal
    | .node .ifStatement _ _ [test, consequent, alternate] => do
      let v ← evaluate cfg room s test
      debug cfg .condition fun _ =>
        "if condition " ++ v.shown ++ " -> " ++ (if v.isTruthy then "True" else "False")
      if v.isTruthy then execute cfg room s consequent
      else
        match alternate with
        | .null => return .normal
        | alternate => execute cfg room s alternate
    | .node .whileStatement _ _ [test, body] =>
      iterate (do
        if (← evaluate cfg room s test).isTruthy then
          match ← execute cfg room s body with
          | .normal => return none
          | done => return some done
        else return some .normal) cfg.fuel
    | .node .doWhileStatement _ _ [body, test] =>
      iterate (do
        match ← execute cfg room s body with
        | .normal =>
          if (← evaluate cfg room s test).isTruthy then return none else return some .normal
        | done => return some done) cfg.fuel
    | .node .forStatement _ _ [init, test, update, body] => do
      let s ← openScope s
      match init with
      | .null => pure ()
      | .node .variableStatement .. => do
        let _ ← execute cfg room s init
      | init => do
        let _ ← evaluate cfg room s init
      iterate (do
        let go ← match test with
          | .null => pure true
          | test => do
            let v ← evaluate cfg room s test
            debug cfg .condition fun _ => "for condition " ++ v.shown
            pure v.isTruthy
        if go then
          match ← execute cfg room s body with
          | .normal =>
            match update with
            | .null => return none
            | update =>
              let _ ← evaluate cfg room s update
              return none
          | done => return some done
        else return some .normal) cfg.fuel
    | .node .functionDeclaration _ _ [name, params, body] => do
      defineFunction cfg s name params body
      return .normal
    | .node .returnStatement _ _ [argument] => do
      let value ← match argument with
        | .null => pure .null
        | argument => evaluate cfg room s argument
      return .returned value t
    | other => fault (.unexpectedStatement other.kindName)

end

/-- Runs a whole program in a scope. However it ends, the file of messages is closed. -/
def program (cfg : Config) (s : Nat) (t : Tree) : Eval Unit := fun m =>
  match (do executeAll cfg cfg.room s (← need t.body?)) m with
  | .ok .normal m' => .ok () m'.endTrace
  | .ok (.returned _ statement) m' => raiseAt statement .returnOutside m'.endTrace
  | .error .noRoom m' => raiseAt t .programRoom m'.endTrace
  | .error i m' => .error i m'.endTrace

end Eval

/-- The outcome of a run. -/
inductive Outcome where
  | finished
  | stopped (i : Interrupt)

/-- Runs a program on a machine. -/
def Machine.run (m : Machine) (cfg : Config) (t : Tree) (s : Nat := globalScope) :
    Outcome × Machine :=
  match Eval.program cfg s t m with
  | .ok () m' => (.finished, m')
  | .error i m' => (.stopped i, m')

end Scriptlet
