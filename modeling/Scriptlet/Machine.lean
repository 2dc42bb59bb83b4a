import Scriptlet.Nesting
import Scriptlet.RuntimeError
import Scriptlet.Scopes
import Scriptlet.Trace

/-!
The machine that programs run on: the scopes, the text written and the text still to be read, the
messages of tracing, and the depth of calls. A computation changes the machine and either gives a
result or is interrupted; what it did before stays done.
-/

namespace Scriptlet

/-- How a program is run. -/
structure Config where
  /-- How much is traced: calls from one, declarations from two, conditions from three on. -/
  debugLevel : Int := 0
  maxCallDepth : Option Int := none
  /-- How deep evaluation may nest. -/
  room : Nat := nestingLimit
  /-- How often a loop may go round before the run is given up. -/
  fuel : Nat
  /-- Whether prompts stand among the output. -/
  showPrompts : Bool := true
  /-- What the clock shows each time it is read. -/
  clock : Nat → Float := fun _ => 1.0

structure Machine where
  scopes : Scopes Value
  output : String := ""
  input : List Char := []
  /-- How many lines were asked for. -/
  linesRead : Nat := 0
  /-- How often the clock was read. -/
  clockReads : Nat := 0
  /-- The messages of tracing. -/
  messages : Array Message := #[]
  /-- The file that they were written to. -/
  traceFile : TraceFile := {}
  callDepth : Nat := 0
  /-- The number that the next function gets. -/
  nextClosure : Nat := 0

/-- Why a computation has no result. -/
inductive Interrupt where
  | error (e : RuntimeError)
  | fault (f : Fault)
  /-- There is no room for deeper nesting. -/
  | noRoom
  /-- A loop went round too often. -/
  | noFuel

abbrev Eval := EStateM Interrupt Machine

namespace Machine

/-- The number of the outermost scope. -/
def globalScope : Nat := 0

/-- A machine on which only the standard library is defined. -/
def initial (input : String := "") : Machine :=
  { scopes := Native.all.foldl
      (fun scopes f => scopes.define globalScope (.word f.name) (.native f)) .root
    input := input.toList }

/-- The text of the file with the messages of tracing. -/
def trace (m : Machine) : Option String :=
  m.traceFile.content

/-- Traces a message. -/
def record (m : Machine) (message : Message) : Machine :=
  { m with
    messages := m.messages.push message
    traceFile := m.traceFile.write message }

/-- Closes the file with the messages. -/
def endTrace (m : Machine) : Machine :=
  { m with traceFile := m.traceFile.closed }

/-- Whether a binding is one of the standard library, unchanged. -/
def isInitial (binding : Name × Value) : Bool :=
  match binding with
  | (.word name, .native f) => name = f.name
  | _ => false

/-- The global bindings apart from the standard library. -/
def globals (m : Machine) : List (Name × Value) :=
  (m.scopes.bindings globalScope).filter fun binding => !isInitial binding

end Machine

namespace Eval

def raise {α : Type} (cause : Cause) : Eval α :=
  throw (.error { cause })

def fault {α : Type} (f : Fault) : Eval α :=
  throw (.fault f)

/-- Places errors without a place at a node. -/
def located {α : Type} (t : Tree) (x : Eval α) : Eval α := fun m =>
  match x m with
  | .error (.error e) m' => .error (.error (e.atNode t)) m'
  | r => r

def raiseAt {α : Type} (t : Tree) (cause : Cause) : Eval α :=
  located t (raise cause)

def need {α : Type} : Option α → Eval α
  | some a => pure a
  | none => fault .missingPart

/-- What can be gone through part by part. -/
def items (t : Tree) : Eval (List Tree) :=
  match t.items? with
  | some list => pure list
  | none => fault .wrongKind

/-- The name that a tree stands for. -/
def nameOf (t : Tree) : Eval Name :=
  match Name.ofTree? t with
  | some name => pure name
  | none => fault .wrongKind

def write (s : String) : Eval Unit :=
  modify fun m => { m with output := m.output ++ s }

/-- The next line of the input, empty at its end. -/
def readLine : Eval String := do
  let m ← get
  let line := m.input.takeWhile (· != '\n')
  set { m with
    input := (m.input.dropWhile (· != '\n')).drop 1
    linesRead := m.linesRead + 1 }
  return String.ofList line

def readClock (cfg : Config) : Eval Float :=
  modifyGet fun m => (cfg.clock m.clockReads, { m with clockReads := m.clockReads + 1 })

/-- Traces a message if tracing is at least at the level of its topic. -/
def debug (cfg : Config) (topic : Topic) (text : Unit → String) : Eval Unit :=
  if 0 < cfg.debugLevel ∧ topic.level ≤ cfg.debugLevel then
    modify fun m => m.record ⟨topic, text ()⟩
  else pure ()

def openScope (parent : Nat) : Eval Nat :=
  modifyGet fun m =>
    let (s, scopes) := m.scopes.push (some parent)
    (s, { m with scopes })

def define (s : Nat) (name : Tree) (value : Value) : Eval Unit := do
  let name ← nameOf name
  modify fun m => { m with scopes := m.scopes.define s name value }

def lookup (s : Nat) (name : Tree) : Eval Value := do
  let key ← nameOf name
  match (← get).scopes.get? s key with
  | some value => return value
  | none => raise (.undefinedVariable name.display)

def assign (s : Nat) (name : Tree) (value : Value) : Eval Value := do
  let key ← nameOf name
  match (← get).scopes.find? s key with
  | some found =>
    modify fun m => { m with scopes := m.scopes.define found key value }
    return value
  | none => raise (.undefinedVariable name.display)

/-- Repeats a computation until it gives a result. -/
def iterate {α : Type} (once : Eval (Option α)) : Nat → Eval α
  | 0, m => .error .noFuel m
  | n + 1, m =>
    match once m with
    | .ok none m' => iterate once n m'
    | .ok (some a) m' => .ok a m'
    | .error e m' => .error e m'

end Eval

end Scriptlet
