import Scriptlet.Keyword
import Scriptlet.Nesting
import Scriptlet.Text.Blank
import Scriptlet.Tree

/-!
Trees as source text. Every operator stands in parentheses with its operands, so that precedence
never has to be worked out again, and every statement stands on lines of its own. An `if` without
an `else` gets braces where an `else` of an outer `if` would follow it.
-/

namespace Scriptlet

/-- Why a tree has no source text. -/
inductive PrintError where
  | unsupportedStatement (kind : String)
  | unsupportedExpression (kind : String)
  /-- A part is used for a field that it does not have. -/
  | missingPart
  /-- A part is of a kind that cannot be used in its place. -/
  | wrongKind
  /-- A literal whose value has no decimal form. -/
  | noDecimal
  | tooDeep
deriving DecidableEq, Repr

def PrintError.message : PrintError → String
  | .unsupportedStatement kind => "Unsupported statement for printing: " ++ kind
  | .unsupportedExpression kind => "Unsupported expression for printing: " ++ kind
  | .missingPart => "a part is missing"
  | .wrongKind => "a part is of the wrong kind"
  | .noDecimal => "a value has no decimal form"
  | .tooDeep => "tree nests too deeply"

namespace Printer

/-- How keywords are spelled. -/
abbrev Spelling := Keyword → String

abbrev Print (α : Type) := Except PrintError α

def indent (depth : Nat) : String :=
  String.ofList (List.replicate (4 * depth) ' ')

/-- A printed part, and whether it is text in the tree as well. Parts that are not cannot be
joined into a list. -/
structure Piece where
  shown : String
  isText : Bool := true

def Piece.ofName (name : Tree) : Piece :=
  match name with
  | .text s => { shown := s }
  | other => { shown := other.display, isText := false }

/-- Joins pieces with commas. -/
def join (pieces : List Piece) : Print String :=
  if pieces.all (·.isText) then .ok (", ".intercalate (pieces.map (·.shown)))
  else .error .wrongKind

def need {α : Type} : Option α → Print α
  | some a => .ok a
  | none => .error .missingPart

/-- What can be gone through part by part. -/
def items (t : Tree) : Print (List Tree) :=
  match t.items? with
  | some list => .ok list
  | none => .error .wrongKind

/-- The name in a part that should be a name. -/
def nameIn (t : Tree) : Print Tree :=
  need t.name?

/-- A number without an exponent, which literals do not have. -/
def numeral (value : Tree) : Print String :=
  match value with
  | .int n => if Number.isHuge n then .error .noDecimal else .ok (Number.intText n)
  | .bool b => .ok (Decimal.fixed 6 (if b then 1.0 else 0.0))
  | .scalar (.number (.float x)) =>
    let shown := Decimal.text x
    .ok (if shown.contains 'e' then Decimal.fixed 6 x else shown)
  | .text s => if (Text.quoted s).contains 'e' then .error .noDecimal else .ok (Text.quoted s)
  | other => if other.quoted.contains 'e' then .error .wrongKind else .ok other.quoted

/-- Text in the quotation marks that it does not contain. -/
def stringLiteral (value : Tree) : Print String :=
  match value with
  | .text s => .ok (if '"' ∈ s.toList then "'" ++ s ++ "'" else "\"" ++ s ++ "\"")
  | .list parts =>
    let quote := if parts.any (Tree.same (.text "\"")) then "'" else "\""
    .ok (quote ++ value.quoted ++ quote)
  | _ => .error .wrongKind

/-- An expression. -/
def expression (spell : Spelling) : Nat → Tree → Print String
  | 0, _ => .error .tooDeep
  | room + 1, t =>
    match t with
    | .node .identifier _ _ [name] => .ok name.display
    | .node .numericLiteral _ _ [value] => numeral value
    | .node .stringLiteral _ _ [value] => stringLiteral value
    | .node .booleanLiteral _ _ [value] => .ok (spell (if value.isPresent then .kwTrue else .kwFalse))
    | .node .nullLiteral _ _ [_] => .ok (spell .kwNull)
    | .node .unaryExpression _ _ [operator, argument] => do
      return "(" ++ operator.display ++ (← expression spell room argument) ++ ")"
    | .node .binaryExpression _ _ [operator, left, right]
    | .node .logicalExpression _ _ [operator, left, right]
    | .node .assignmentExpression _ _ [operator, left, right] => do
      let left ← expression spell room left
      let right ← expression spell room right
      return "(" ++ left ++ " " ++ operator.display ++ " " ++ right ++ ")"
    | .node .callExpression _ _ [callee, arguments] => do
      let pieces ← (← items arguments).mapM fun argument => do
        match argument with
        | .node .identifier _ _ [name] => return Piece.ofName name
        | other => return { shown := ← expression spell room other }
      let arguments ← join pieces
      return (← expression spell room callee) ++ "(" ++ arguments ++ ")"
    | other => .error (.unsupportedExpression other.kindName)

def declaration (spell : Spelling) (room : Nat) (d : Tree) : Print Piece := do
  let init ← need d.init?
  let name ← nameIn (← need d.id?)
  match init with
  | .null => return Piece.ofName name
  | init => return { shown := name.display ++ " = " ++ (← expression spell room init) }

/-- The word that opens declarations, and the declarations. -/
def declarations (spell : Spelling) (room : Nat) (list : Tree) : Print String := do
  let pieces ← (← items list).mapM (declaration spell room)
  return spell .kwLet ++ " " ++ (← join pieces)

/-- Whether a statement ends in an `if` that would take an `else` after it. -/
def dangles : Nat → Tree → Bool
  | 0, _ => false
  | room + 1, t =>
    match t with
    | .node .ifStatement _ _ [_, _, .null] => true
    | .node .ifStatement _ _ [_, _, alternate] => dangles room alternate
    | .node .whileStatement _ _ [_, body] => dangles room body
    | .node .forStatement _ _ [_, _, _, body] => dangles room body
    | _ => false

def trimLeft (s : String) : String :=
  String.ofList (s.toList.dropWhile Text.isBlank)

/-- A clause of a `for` loop, with a blank before it. -/
def clause (spell : Spelling) (room : Nat) : Tree → Print String
  | .null => .ok ""
  | t => do return " " ++ (← expression spell room t)

/-- The first clause of a `for` loop. -/
def initClause (spell : Spelling) (room : Nat) : Tree → Print String
  | .null => .ok ""
  | .node .variableStatement _ _ [list] => declarations spell room list
  | t => expression spell room t

mutual

/-- A statement at a depth of indentation. -/
def statement (spell : Spelling) : Nat → Nat → Tree → Print String
  | 0, _, _ => .error .tooDeep
  | room + 1, depth, t =>
    let pad := indent depth
    match t with
    | .node .expressionStatement _ _ [e] => do return pad ++ (← expression spell room e) ++ ";"
    | .node .variableStatement _ _ [list] => do
      return pad ++ (← declarations spell room list) ++ ";"
    | .node .blockStatement _ _ [body] => do return pad ++ (← block spell room depth body)
    | .node .emptyStatement _ _ [] => .ok (pad ++ ";")
    | .node .ifStatement _ _ [test, consequent, alternate] => do
      let test ← expression spell room test
      let opening := pad ++ spell .kwIf ++ " (" ++ test ++ ") "
      match alternate with
      | .null => return opening ++ (← body spell room depth consequent)
      | alternate =>
        let inner ← if dangles room consequent then
            block spell room depth (.list [consequent])
          else body spell room depth consequent
        return opening ++ inner ++ " " ++ spell .kwElse ++ " " ++
          (← body spell room depth alternate)
    | .node .whileStatement _ _ [test, inner] => do
      let test ← expression spell room test
      return pad ++ spell .kwWhile ++ " (" ++ test ++ ") " ++ (← body spell room depth inner)
    | .node .doWhileStatement _ _ [inner, test] => do
      let inner ← body spell room depth inner
      let test ← expression spell room test
      return pad ++ spell .kwDo ++ " " ++ inner ++ " " ++ spell .kwWhile ++ " (" ++ test ++ ");"
    | .node .forStatement _ _ [init, test, update, inner] => do
      let init ← initClause spell room init
      let test ← clause spell room test
      let update ← clause spell room update
      return pad ++ spell .kwFor ++ " (" ++ init ++ ";" ++ test ++ ";" ++ update ++ ") " ++
        (← body spell room depth inner)
    | .node .functionDeclaration _ _ [name, params, inner] => do
      let names ← (← items params).mapM fun p => do return Piece.ofName (← nameIn p)
      let params ← join names
      let name ← nameIn name
      let inner ← block spell room depth (← need inner.body?)
      return pad ++ spell .kwDef ++ " " ++ name.display ++ "(" ++ params ++ ") " ++ inner
    | .node .returnStatement _ _ [.null] => .ok (pad ++ spell .kwReturn ++ ";")
    | .node .returnStatement _ _ [argument] => do
      return pad ++ spell .kwReturn ++ " " ++ (← expression spell room argument) ++ ";"
    | other => .error (.unsupportedStatement other.kindName)

/-- A statement that is part of another, on the same line. -/
def body (spell : Spelling) : Nat → Nat → Tree → Print String
  | 0, _, _ => .error .tooDeep
  | room + 1, depth, t =>
    match t with
    | .node .blockStatement _ _ [inner] => block spell room depth inner
    | other => do return trimLeft (← statement spell room depth other)

/-- The statements of a block in braces. -/
def block (spell : Spelling) : Nat → Nat → Tree → Print String
  | 0, _, _ => .error .tooDeep
  | room + 1, depth, inner =>
    if !inner.isPresent then .ok "\x7b\x7d"
    else do
      let lines ← (← items inner).mapM (statement spell room (depth + 1))
      return "\x7b\n" ++ String.join (lines.map (· ++ "\n")) ++ indent depth ++ "\x7d"

end

/-- Whether a tree is printed as a statement. -/
def isStatement : Tree → Bool
  | .node kind .. =>
    match kind with
    | .expressionStatement | .variableStatement | .blockStatement | .emptyStatement | .ifStatement
    | .whileStatement | .doWhileStatement | .forStatement | .functionDeclaration
    | .returnStatement => true
    | _ => false
  | _ => false

/-- Statements one after the other, each with a line break behind it. -/
def program (spell : Spelling) (room : Nat) (inner : Tree) : Print String := do
  let lines ← (← items inner).mapM (statement spell room 0)
  return String.join (lines.map (· ++ "\n"))

end Printer

namespace Tree

/-- Prints a tree with the given spelling of keywords. The text of a name on its own is the name,
whatever it is. -/
def print (spell : Printer.Spelling) (t : Tree) : Except PrintError Tree :=
  match t with
  | .node .program _ _ [inner] => Tree.text <$> Printer.program spell nestingLimit inner
  | .node .identifier _ _ [name] => .ok name
  | t =>
    Tree.text <$>
      if Printer.isStatement t then Printer.statement spell nestingLimit 0 t
      else Printer.expression spell nestingLimit t

end Tree

end Scriptlet
