import Scriptlet.Number.Read
import Scriptlet.Text.Quoted
import Scriptlet.Text.Digit

/-!
Arguments of the command line. Long options may be cut short as long as it is clear which is meant,
and may have their value behind an equals sign; short options may be run together; after `--` there
are no options. Arguments are taken from left to right and the first error counts.
-/

namespace Scriptlet.CommandLine

/-- The options that there are. -/
inductive Opt where
  | help | verbose | maxDepth | byTable | emitAst | ast
deriving DecidableEq, Repr

namespace Opt

def all : List Opt :=
  [.help, .verbose, .maxDepth, .byTable, .emitAst, .ast]

def spellings : Opt → List String
  | .help => ["-h", "--help"]
  | .verbose => ["-v"]
  | .maxDepth => ["--max-depth"]
  | .byTable => ["--lark"]
  | .emitAst => ["--emit-ast"]
  | .ast => ["--ast"]

/-- How messages name an option. -/
def name (o : Opt) : String :=
  "/".intercalate o.spellings

def takesValue : Opt → Bool
  | .maxDepth | .emitAst | .ast => true
  | .help | .verbose | .byTable => false

/-- All spellings with their options. -/
def table : List (String × Opt) :=
  all.flatMap fun o => o.spellings.map (·, o)

def ofSpelling? (s : String) : Option Opt :=
  table.lookup s

end Opt

/-- What is wrong with the arguments. -/
inductive UsageError where
  | ambiguous (arg : String) (candidates : List String)
  | expectedValue (o : Opt)
  | ignoredValue (o : Opt) (value : String)
  | invalidInt (o : Opt) (value : String)
  | conflict (o other : Opt)
  | unrecognized (args : List String)
  | missingProgram
deriving DecidableEq, Repr

def UsageError.message : UsageError → String
  | .ambiguous arg candidates =>
    "ambiguous option: " ++ arg ++ " could match " ++ ", ".intercalate candidates
  | .expectedValue o => "argument " ++ o.name ++ ": expected one argument"
  | .ignoredValue o value =>
    "argument " ++ o.name ++ ": ignored explicit argument " ++ Text.quoted value
  | .invalidInt o value => "argument " ++ o.name ++ ": invalid int value: " ++ Text.quoted value
  | .conflict o other => "argument " ++ o.name ++ ": not allowed with argument " ++ other.name
  | .unrecognized args => "unrecognized arguments: " ++ " ".intercalate args
  | .missingProgram => "missing program file; or use --emit-ast/--ast"

/-- What an argument looks like on its own. -/
inductive Arg where
  | word (text : String)
  | separator
  /-- An option in one of its spellings, perhaps with a value attached. -/
  | option (o : Opt) (spelling : String) (value : Option String)
  | unknown (text : String)
deriving DecidableEq, Repr

/-- Cuts a text at its first equals sign. -/
def cutAtEquals (cs : List Char) : Option (String × String) :=
  match cs.dropWhile (· != '=') with
  | _ :: value => some (String.ofList (cs.takeWhile (· != '=')), String.ofList value)
  | [] => none

/-- Whether a text is a negative number in digits: such an argument is no option. -/
def isNegativeNumber (s : String) : Bool :=
  match s.toList with
  | '-' :: rest =>
    let rest := if rest.getLast? = some '\n' then rest.dropLast else rest
    let whole := rest.takeWhile Text.isDigit
    match rest.dropWhile Text.isDigit with
    | [] => !whole.isEmpty
    | '.' :: fraction => !fraction.isEmpty && fraction.all Text.isDigit
    | _ => false
  | _ => false

/-- The options that an argument can be short for. -/
def candidates (cs : List Char) : List (Opt × String × Option String) :=
  match cs with
  | '-' :: '-' :: _ =>
    let (start, value) : String × Option String :=
      match cutAtEquals cs with
      | some (start, value) => (start, some value)
      | none => (String.ofList cs, none)
    Opt.table.filterMap fun (spelling, o) =>
      if start.toList.isPrefixOf spelling.toList then some (o, spelling, value) else none
  | '-' :: c :: rest =>
    Opt.table.filterMap fun (spelling, o) =>
      if spelling.toList = ['-', c] then some (o, spelling, some (String.ofList rest))
      else if cs.isPrefixOf spelling.toList then some (o, spelling, none)
      else none
  | _ => []

def classify (s : String) : Except UsageError Arg :=
  let cs := s.toList
  match cs with
  | '-' :: _ :: _ =>
    match Opt.ofSpelling? s with
    | some o => .ok (.option o s none)
    | none =>
      let attached := (cutAtEquals cs).bind fun (start, value) =>
        (Opt.ofSpelling? start).map fun o => Arg.option o start (some value)
      match attached with
      | some arg => .ok arg
      | none =>
        match candidates cs with
        | [(o, spelling, value)] => .ok (.option o spelling value)
        | [] =>
          if isNegativeNumber s || s.contains ' ' then .ok (.word s) else .ok (.unknown s)
        | several => .error (.ambiguous s (several.map (·.2.1)))
  | _ => .ok (.word s)

/-- Sorts arguments; behind a separator all are words. -/
def classifyAll : List String → Except UsageError (List Arg)
  | [] => .ok []
  | s :: rest =>
    if s = "--" then .ok (.separator :: rest.map .word)
    else do
      let first ← classify s
      let others ← classifyAll rest
      return first :: others

structure Options where
  verbosity : Nat := 0
  maxDepth : Option Int := none
  /-- Whether to parse with the tables of the grammar. -/
  byTable : Bool := false
  emitAst : Option String := none
  ast : Option String := none
  program : Option String := none
deriving DecidableEq, Repr, Inhabited

/-- What the arguments ask for. -/
inductive Request where
  | help
  | run (options : Options)
deriving DecidableEq, Repr

/-- Arguments in the course of being taken. -/
structure Progress where
  options : Options := {}
  /-- Whether the place of the program is used up. -/
  placed : Bool := false
  extras : List String := []
  help : Bool := false

/-- Options without a value. -/
def setFlag (o : Opt) (p : Progress) : Progress :=
  match o with
  | .verbose => { p with options.verbosity := p.options.verbosity + 1 }
  | .byTable => { p with options.byTable := true }
  | .help => { p with help := true }
  | _ => p

/-- Options with a value. -/
def setValue (o : Opt) (value : String) (p : Progress) : Except UsageError Progress :=
  match o with
  | .maxDepth =>
    match Decimal.readInt value with
    | .ok n => .ok { p with options.maxDepth := some n }
    | .error _ => .error (.invalidInt o value)
  | .emitAst =>
    if p.options.ast.isSome then .error (.conflict o .ast)
    else .ok { p with options.emitAst := some value }
  | .ast =>
    if p.options.emitAst.isSome then .error (.conflict o .emitAst)
    else .ok { p with options.ast := some value }
  | _ => .ok p

/-- Short options run together behind a first one: all must be options, and the last may have a
value. Nothing takes effect unless all are in order. -/
def setCluster (first : Opt) : List Char → Progress → Except UsageError Progress
  | [], p => .ok (setFlag first p)
  | c :: rest, p =>
    match Opt.ofSpelling? (String.ofList ['-', c]) with
    | some o => setCluster o rest (setFlag first p)
    | none => .error (.ignoredValue first (String.ofList (c :: rest)))

/-- Takes arguments from left to right. The first word is the program; words between options after
that are left over. -/
def take : List Arg → Progress → Except UsageError Progress
  | [], p => .ok p
  | .word s :: .separator :: rest, p =>
    if p.placed then take (.separator :: rest) { p with extras := p.extras ++ [s] }
    else take rest { p with placed := true, options.program := some s }
  | .word s :: rest, p =>
    if p.placed then take rest { p with extras := p.extras ++ [s] }
    else take rest { p with placed := true, options.program := some s }
  | .separator :: rest, p =>
    if p.placed then take rest { p with extras := p.extras ++ ["--"] } else take rest p
  | .unknown s :: rest, p => take rest { p with extras := p.extras ++ [s] }
  | .option o spelling (some value) :: rest, p =>
    if p.help then .ok p
    else if o.takesValue then do take rest (← setValue o value p)
    else if spelling.startsWith "--" || value = "" then .error (.ignoredValue o value)
    else do take rest (← setCluster o value.toList p)
  | .option o _ none :: rest, p =>
    if p.help then .ok p
    else if o.takesValue then
      match rest with
      | .word value :: rest => do take rest (← setValue o value p)
      | _ => .error (.expectedValue o)
    else take rest (setFlag o p)

/-- Reads the arguments. -/
def readArgs (args : List String) : Except UsageError Request := do
  let p ← take (← classifyAll args) {}
  if p.help then return .help
  else if p.extras.isEmpty then return .run p.options
  else .error (.unrecognized p.extras)

end Scriptlet.CommandLine
