import Scriptlet.Value

/-!
Errors of running programs. A cause says what went wrong and decides the error's name and text; the
place is that of the first node that the error passed.
-/

namespace Scriptlet

inductive Cause where
  | undefinedVariable (name : String)
  | notCallable (type : String)
  | wrongCount (name : String) (expected actual : Nat)
  | noArguments (name : String)
  | callDepth (limit : Int)
  /-- A call nests deeper than the machine has room for. -/
  | callRoom
  /-- The program nests deeper than the machine has room for. -/
  | programRoom
  | operandNotNumber (type : String)
  | operandsNotNumbers (operator : String) (left right : String)
  | cannotAdd (left right : String)
  | divisionByZero
  | tooLarge (operator : String)
  | argumentNotNumber (name type : String)
  | negativeRoot
  | resultTooLarge (name : String)
  | undefinedResult (name : String)
  | promptNotText (type : String)
  | argumentNotText (name type : String)
  | returnOutside
deriving DecidableEq, Repr

namespace Cause

/-- The class of the error. -/
def name : Cause → String
  | .undefinedVariable _ => "UndefinedVariable"
  | .notCallable _ => "NotCallable"
  | .wrongCount .. | .noArguments _ => "ArityMismatch"
  | .callDepth _ | .callRoom | .programRoom => "StackOverflow"
  | .operandNotNumber _ | .operandsNotNumbers .. | .argumentNotNumber .. | .negativeRoot
  | .undefinedResult _ => "OperandMustBeNumber"
  | .cannotAdd .. | .promptNotText _ | .argumentNotText .. => "TypeMismatch"
  | .divisionByZero => "DivisionByZero"
  | .tooLarge _ | .resultTooLarge _ => "NumericOverflow"
  | .returnOutside => "ReturnOutsideFunction"

def text : Cause → String
  | .undefinedVariable name => "Undefined variable \"" ++ name ++ "\""
  | .notCallable type => "Can only call functions, got " ++ type
  | .wrongCount name expected actual =>
    name ++ " expects " ++ Decimal.digitsOf expected ++ " arguments but got " ++
      Decimal.digitsOf actual
  | .noArguments name => name ++ " expects at least 1 argument"
  | .callDepth limit => "maximum call depth of " ++ Number.intText limit ++ " exceeded"
  | .callRoom => "host call stack exhausted"
  | .programRoom => "program nests too deeply"
  | .operandNotNumber type => "Operand must be a number, got " ++ type
  | .operandsNotNumbers operator left right =>
    "Operands of \"" ++ operator ++ "\" must be numbers, got " ++ left ++ " and " ++ right
  | .cannotAdd left right => "cannot apply \"+\" to " ++ left ++ " and " ++ right
  | .divisionByZero => "division by zero"
  | .tooLarge operator => "result of \"" ++ operator ++ "\" is too large for a number"
  | .argumentNotNumber name type => name ++ " expects numbers, got " ++ type
  | .negativeRoot => "sqrt of a negative number"
  | .resultTooLarge name => name ++ " result is too large for a number"
  | .undefinedResult name => name ++ " is undefined for these arguments"
  | .promptNotText type => "input prompt must be a string, got " ++ type
  | .argumentNotText name type => name ++ " expects a string, got " ++ type
  | .returnOutside => "return statement outside of a function"

/-- The message of an error with a name and a text. -/
def messageOf (name text : String) : String :=
  name ++ ": " ++ text

/-- An error as it is shown inside other things, by its name and text in quotes. -/
def quotedOf (name text : String) : String :=
  "Error(name=" ++ name ++ ", message=" ++ text ++ ")"

def message (c : Cause) : String :=
  messageOf c.name c.text

end Cause

/-- An error with the start and end of the node that it belongs to, once one is known. -/
structure RuntimeError where
  cause : Cause
  place : Option (Tree × Tree) := none

/-- Places an error at a node unless it has a place. -/
def RuntimeError.atNode (e : RuntimeError) (t : Tree) : RuntimeError :=
  match e.place, t with
  | none, .node _ start stop _ => { e with place := some (start, stop) }
  | _, _ => e

/-- What stops the run of a malformed tree. -/
inductive Fault where
  | unexpectedStatement (kind : String)
  | unexpectedExpression (kind : String)
  | unknownOperator (shown : String)
  | unknownLogical (shown : String)
  | unknownUnary (shown : String)
  /-- A part is used for a field that it does not have. -/
  | missingPart
  /-- A part is of a kind that cannot be used in its place. -/
  | wrongKind
  /-- An operator without a first character, or a call without a first argument. -/
  | nothingFirst
  /-- A function is called with too few or too many arguments behind the back of the check. -/
  | wrongNumber
deriving DecidableEq, Repr

def Fault.message : Fault → String
  | .unexpectedStatement kind => "execute: unexpected node type " ++ kind
  | .unexpectedExpression kind => "evaluate: unexpected node type " ++ kind
  | .unknownOperator shown => "unknown operator " ++ shown
  | .unknownLogical shown => "unknown logical operator " ++ shown
  | .unknownUnary shown => "unknown unary operator " ++ shown
  | .missingPart => "a part is missing"
  | .wrongKind => "a part is of the wrong kind"
  | .nothingFirst => "there is no first item"
  | .wrongNumber => "the number of arguments is wrong"

end Scriptlet
