import Scriptlet.CommandLine.Options
import Scriptlet.Grammar.Parse
import Scriptlet.Json.Reader
import Scriptlet.Json.Writer
import Scriptlet.Machine.Eval
import Scriptlet.Tree.Codec

/-!
What the command line does with a file: run a program, write its tree to a file, or run a tree. All
effects are reported as data, for the caller to carry out.
-/

namespace Scriptlet.CommandLine

/-- What is found under a path. -/
inductive Found where
  | nothing
  | directory
  | text (s : String)

/-- A failure that ends the program without a message of its own. -/
inductive Crash where
  | isDirectory
  | badJson (e : Json.ReadError)
  /-- A literal that is no number within the limits, met by either parser. -/
  | badNumber (byTable : Bool)
  | treeTooDeep
  | fault (f : Fault)
  | noFuel
deriving DecidableEq, Repr

inductive Exit where
  | code (n : Nat)
  | crash (c : Crash)
  /-- Not told: the file holds a text that is no sequence of characters. -/
  | untold
deriving DecidableEq, Repr

/-- What was written where. -/
structure Report where
  exit : Exit
  output : String := ""
  errors : String := ""
  files : List (String × String) := []
deriving DecidableEq, Repr

/-- What is to be done with which file. -/
inductive Task where
  | emit (path : String)
  | runTree (path : String)
  | runProgram (path : String)
deriving DecidableEq, Repr

def Task.path : Task → String
  | .emit path | .runTree path | .runProgram path => path

/-- An option's value, if there is one that is not empty. -/
def given (value : Option String) : Option String :=
  value.filter (· != "")

/-- Paths without empty and `.` steps. -/
def normalizePath (path : String) : String :=
  let steps := (path.splitOn "/").filter fun step => step != "" && step != "."
  let joined := "/".intercalate steps
  if path.startsWith "///" then "/" ++ joined
  else if path.startsWith "//" then "//" ++ joined
  else if path.startsWith "/" then "/" ++ joined
  else if joined = "" then "." else joined

def Options.task (o : Options) : Except UsageError Task :=
  match given o.emitAst, given o.ast, given o.program with
  | some path, _, _ => .ok (.emit (normalizePath path))
  | none, some path, _ => .ok (.runTree (normalizePath path))
  | none, none, some path => .ok (.runProgram (normalizePath path))
  | none, none, none => .error .missingProgram

/-- All line ends as one character. -/
def unifyLines : List Char → List Char
  | [] => []
  | '\r' :: '\n' :: rest => '\n' :: unifyLines rest
  | '\r' :: rest => '\n' :: unifyLines rest
  | c :: rest => c :: unifyLines rest

/-- A message with the place that it is about. -/
def withPlace (message : String) : Option (String × String) → String
  | none => message
  | some (start, stop) => message ++ " (at " ++ start ++ ":" ++ stop ++ ")"

def syntaxMessage (e : SyntaxError) : String :=
  withPlace e.message (e.span?.map fun s => (Decimal.digitsOf s.start, Decimal.digitsOf s.stop))

def runtimeMessage (e : RuntimeError) : String :=
  withPlace e.cause.message <|
    match e.place with
    | none | some (.null, _) => none
    | some (start, stop) => some (start.display, stop.display)

def failure (errors : String) : Report :=
  { exit := .code 1, errors := errors ++ "\n" }

/-- Reports arguments that are not understood. -/
def usage (e : UsageError) : Report :=
  { exit := .code 2, errors := "toylang: error: " ++ e.message ++ "\n" }

/-- Parses a program with the parser that was asked for. -/
def parseWith (o : Options) (source : String) : Except Report Program :=
  let parsed := if o.byTable then Grammar.parse .default source else parse .default source
  match parsed with
  | .ok p => .ok p
  | .error (.badNumber _) => .error { exit := .crash (.badNumber o.byTable) }
  | .error e => .error (failure ("Parse error: " ++ syntaxMessage e))

/-- Settings of a run that are not options. -/
structure Setting where
  input : String := ""
  fuel : Nat
  clock : Nat → Float := fun _ => 1.0

/-- Runs a tree; the second part of the result tells whether the program asked for input. -/
def runTree (o : Options) (setting : Setting) (t : Tree) : Report × Bool :=
  let cfg : Config :=
    { debugLevel := o.verbosity, maxCallDepth := o.maxDepth, fuel := setting.fuel
      clock := setting.clock }
  let (outcome, m) := (Machine.initial setting.input).run cfg t
  let files := (m.trace.map fun text => [("debug.txt", text)]).getD []
  let report : Report :=
    match outcome with
    | .finished => { exit := .code 0, output := m.output, files }
    | .stopped (.error e) =>
      { exit := .code 1, output := m.output, files
        errors := "Runtime error: " ++ runtimeMessage e ++ "\n" }
    | .stopped (.fault f) => { exit := .crash (.fault f), output := m.output, files }
    | .stopped .noRoom => { exit := .crash .treeTooDeep, output := m.output, files }
    | .stopped .noFuel => { exit := .crash .noFuel, output := m.output, files }
  (report, m.linesRead != 0)

/-- Writes the tree of a program next to it. -/
def emitTree (path : String) (p : Program) : Report :=
  let target := path ++ ".ast.json"
  match p.toTree.toJson with
  | .ok j => { exit := .code 0, output := target ++ "\n", files := [(target, j.render)] }
  | .error _ => { exit := .crash .treeTooDeep, files := [(target, "")] }

/-- Does a task with the text of its file. -/
def perform (o : Options) (setting : Setting) (task : Task) (source : String) : Report × Bool :=
  match task with
  | .emit path =>
    match parseWith o source with
    | .error report => (report, false)
    | .ok p => (emitTree path p, false)
  | .runProgram _ =>
    match parseWith o source with
    | .error report => (report, false)
    | .ok p => runTree o setting p.toTree
  | .runTree _ =>
    match Json.read source with
    | .error .loneHalf => ({ exit := .untold }, false)
    | .error e => ({ exit := .crash (.badJson e) }, false)
    | .ok j =>
      match Tree.decode j with
      | .ok t => runTree o setting t
      | .error e => (failure ("Error: invalid AST file: " ++ e.message), false)

/-- Does a task with what is found under its path. -/
def performFound (o : Options) (setting : Setting) (task : Task) : Found → Report × Bool
  | .nothing => (failure ("Error: file " ++ task.path ++ " not found"), false)
  | .directory => ({ exit := .crash .isDirectory }, false)
  | .text s => perform o setting task (String.ofList (unifyLines s.toList))

/-- What is shown when help is asked for. -/
def helpText : String :=
  "usage: toylang [-h] [-v] [--max-depth N] [--lark] [--emit-ast PROGRAM_FILE | --ast " ++
  "AST_JSON_FILE] [program]\n"

end Scriptlet.CommandLine
