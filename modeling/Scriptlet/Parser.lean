import Scriptlet.Nesting
import Scriptlet.Syntax
import Scriptlet.SyntaxError
import Scriptlet.Token.Lexer

/-!
The recursive-descent parser. It looks one token ahead; binary operators are layered by precedence,
lowest first, and associate to the left, assignment associates to the right. A statement's
terminator may be left out at the end of the input. The first error ends parsing, and a failure to
cut out a token counts only when the parser gets there.

Two numbers bound the work. `room` is how deep constructs may nest: every rule hands one less to
the rules that it calls. `n` is how often a repetition may go round, for which the number of tokens
and one more is enough: each round takes a token, and no round takes a token without text and gets
through.
-/

namespace Scriptlet.Parser

/-- The token ahead, the tokens after it, what comes after these, and the end of the last token
taken. -/
structure State where
  lookahead : Token
  rest : List Token
  ending : Except LexError Token
  lastEnd : Nat

abbrev Parse := StateT State (Except SyntaxError)

def fail {α : Type} (e : SyntaxError) : Parse α :=
  throw e

def peek : Parse Token :=
  return (← get).lookahead

def lastEnd : Parse Nat :=
  return (← get).lastEnd

/-- Whether the token ahead has one of the given types. -/
def ahead (types : List TokenType) : Parse Bool :=
  return decide ((← get).lookahead.type ∈ types)

/-- Takes the token ahead. -/
def advance : Parse Token := do
  let s ← get
  match s.rest, s.ending with
  | t :: rest, _ => set { s with lookahead := t, rest := rest, lastEnd := s.lookahead.stop }
  | [], .ok t => set { s with lookahead := t, lastEnd := s.lookahead.stop }
  | [], .error e => fail (.lexical e)
  return s.lookahead

def expect (type : TokenType) : Parse Token := do
  let token ← peek
  if token.type = type then advance else fail (.unexpected token (.token type))

/-- A semicolon, which the end of the input replaces. -/
def terminator : Parse Unit := do
  unless ← ahead [.endOfInput] do
    let _ ← expect .semi

def tooDeep {α : Type} : Parse α := do
  fail (.tooDeep (← peek).span)

/-- Repeats an item while a condition on the token ahead holds. -/
def repeatWhile {α : Type} (go : Token → Bool) (item : Parse α) : Nat → Parse (List α)
  | 0 => return []
  | n + 1 => do
    if go (← peek) then
      let first ← item
      return first :: (← repeatWhile go item n)
    else return []

/-- One or more items with commas between them. -/
def commaList {α : Type} (n : Nat) (item : Parse α) : Parse (List α) := do
  let first ← item
  let others ← repeatWhile (·.type = .comma) (do let _ ← expect .comma; item) n
  return first :: others

def identifier : Parse Ident := do
  let token ← expect .identifier
  return ⟨token.text, token.span⟩

/-- Layers of binary operators, each with one type of token. -/
inductive Level where
  | or | and | equality | relational | additive | multiplicative
deriving DecidableEq, Repr

namespace Level

/-- All layers, lowest precedence first. -/
def all : List Level :=
  [.or, .and, .equality, .relational, .additive, .multiplicative]

def type : Level → TokenType
  | .or => .logicalOr
  | .and => .logicalAnd
  | .equality => .equality
  | .relational => .relational
  | .additive => .additive
  | .multiplicative => .multiplicative

/-- The node for an operator of a layer, given by its text. -/
def build (level : Level) (operator : String) (left right : Expr) (span : Span) : Expr :=
  match level with
  | .or => .logical .or left right span
  | .and => .logical .and left right span
  | .equality => .binary (if operator = "==" then .equal else .notEqual) left right span
  | .relational =>
    .binary (if operator = "<" then .less else if operator = ">" then .greater
      else if operator = "<=" then .lessEqual else .greaterEqual) left right span
  | .additive => .binary (if operator = "+" then .add else .sub) left right span
  | .multiplicative => .binary (if operator = "*" then .mul else .div) left right span

end Level

def assignOp (operator : String) : AssignOp :=
  if operator = "=" then .set else if operator = "+=" then .add else if operator = "-=" then .sub
  else if operator = "*=" then .mul else .div

def unaryOp (operator : String) : UnaryOp :=
  if operator = "!" then .not else if operator = "-" then .minus else .plus

/-- The kind of node that an expression is written as. -/
def kindOf : Expr → NodeKind
  | .literal (.number _) _ => .numericLiteral
  | .literal (.text _) _ => .stringLiteral
  | .literal (.bool _) _ => .booleanLiteral
  | .literal .null _ => .nullLiteral
  | .ident _ => .identifier
  | .unary .. => .unaryExpression
  | .binary .. => .binaryExpression
  | .logical .. => .logicalExpression
  | .assign .. => .assignmentExpression
  | .call .. => .callExpression

/-- Joins operands to the left as long as operators of the layer follow. -/
def chain (operand : Parse Expr) (level : Level) : Nat → Expr → Parse Expr
  | 0, left => return left
  | n + 1, left => do
    if ← ahead [level.type] then
      let operator ← advance
      let right ← operand
      chain operand level n
        (level.build operator.text left right ⟨left.span.start, ← lastEnd⟩)
    else return left

/-- Joins lists of arguments to a callee as long as they follow. -/
def calls (arguments : Parse (List Expr)) : Nat → Expr → Parse Expr
  | 0, callee => return callee
  | n + 1, callee => do
    if ← ahead [.parenStart] then
      let args ← arguments
      calls arguments n (.call callee args ⟨callee.span.start, ← lastEnd⟩)
    else return callee

/-- A literal that is one token. -/
def literalToken (value : Literal) : Parse Expr := do
  let token ← advance
  return .literal value token.span

def numberLiteral : Parse Expr := do
  let token ← advance
  match Number.read token.text with
  | .ok n => return .literal (.number n) token.span
  | .error e => fail (.badNumber e)

mutual

/-- An assignment or anything that binds tighter. -/
def expression (n : Nat) : Nat → Parse Expr
  | 0 => tooDeep
  | room + 1 => do
    let left ← ladder n room Level.all
    if ← ahead [.simpleAssignment, .complexAssignment] then
      let operator ← peek
      match left with
      | .ident target =>
        let _ ← advance
        let value ← expression n room
        return .assign (assignOp operator.text) target value ⟨target.span.start, ← lastEnd⟩
      | other => fail (.invalidTarget ⟨other.span.start, operator.stop⟩ (kindOf other))
    else return left

/-- Operators of the given layers, and what binds tighter than all of them. -/
def ladder (n : Nat) : Nat → List Level → Parse Expr
  | 0, _ => tooDeep
  | room + 1, [] => unary n room
  | room + 1, level :: tighter => do
    let left ← ladder n room tighter
    chain (ladder n room tighter) level n left

def unary (n : Nat) : Nat → Parse Expr
  | 0 => tooDeep
  | room + 1 => do
    if ← ahead [.additive, .logicalNot] then
      let operator ← advance
      let operand ← unary n room
      return .unary (unaryOp operator.text) operand ⟨operator.start, ← lastEnd⟩
    else
      let callee ← primary n room
      calls (arguments n room) n callee

def arguments (n : Nat) : Nat → Parse (List Expr)
  | 0 => tooDeep
  | room + 1 => do
    let _ ← expect .parenStart
    let args ← if ← ahead [.parenEnd] then pure [] else commaList n (expression n room)
    let _ ← expect .parenEnd
    return args

def primary (n : Nat) : Nat → Parse Expr
  | 0 => tooDeep
  | room + 1 => do
    let token ← peek
    match token.type with
    | .parenStart =>
      let _ ← advance
      let inner ← expression n room
      let _ ← expect .parenEnd
      return inner
    | .identifier => return .ident (← identifier)
    | .number => numberLiteral
    | .string => literalToken (.text (unquote token.text))
    | .keyword .kwTrue => literalToken (.bool true)
    | .keyword .kwFalse => literalToken (.bool false)
    | .keyword .kwNull => literalToken .null
    | _ => fail (.unexpected token .expression)

end

def declaration (n room : Nat) : Parse Declaration := do
  let id ← identifier
  let init ← if ← ahead [.simpleAssignment] then
      let _ ← advance
      some <$> expression n room
    else pure none
  return ⟨id, init, ⟨id.span.start, ← lastEnd⟩⟩

/-- The word that opens declarations, and the declarations, without a terminator. -/
def declarations (n room : Nat) : Parse (List Declaration × Span) := do
  let opening ← expect (.keyword .kwLet)
  let list ← commaList n (declaration n room)
  return (list, ⟨opening.start, ← lastEnd⟩)

/-- A condition in parentheses. -/
def condition (n room : Nat) : Parse Expr := do
  let _ ← expect .parenStart
  let test ← expression n room
  let _ ← expect .parenEnd
  return test

/-- An expression, unless a token of the given type stands in its place. -/
def optionalUnless (stop : TokenType) (n room : Nat) : Parse (Option Expr) := do
  if ← ahead [stop] then return none else some <$> expression n room

def forInit (n room : Nat) : Parse (Option ForInit) := do
  if ← ahead [.semi] then return none
  else if ← ahead [.keyword .kwLet] then
    let (list, span) ← declarations n room
    return some (.variables list span)
  else return some (.expr (← expression n room))

/-- Parameters up to the closing parenthesis. -/
def parameters (n : Nat) : Parse (List Ident) := do
  if ← ahead [.parenEnd] then return [] else commaList n identifier

def expressionStatement (n room : Nat) : Parse Stmt := do
  let start := (← peek).start
  let e ← expression n room
  terminator
  return .expr e ⟨start, ← lastEnd⟩

def variableStatement (n room : Nat) : Parse Stmt := do
  let (list, span) ← declarations n room
  terminator
  return .variables list ⟨span.start, ← lastEnd⟩

def returnStatement (n room : Nat) : Parse Stmt := do
  let opening ← advance
  let value ← if ← ahead [.semi, .endOfInput] then pure none else some <$> expression n room
  terminator
  return .ret value ⟨opening.start, ← lastEnd⟩

mutual

def statement (n : Nat) : Nat → Parse Stmt
  | 0 => tooDeep
  | room + 1 => do
    match (← peek).type with
    | .semi => return .empty (← advance).span
    | .curlyStart =>
      let (body, span) ← block n room
      return .block body span
    | .keyword .kwLet => variableStatement n room
    | .keyword .kwIf =>
      let opening ← advance
      let test ← condition n room
      let consequent ← statement n room
      if ← ahead [.keyword .kwElse] then
        let _ ← advance
        let alternate ← statement n room
        return .ifElse test consequent alternate ⟨opening.start, ← lastEnd⟩
      else return .ifThen test consequent ⟨opening.start, ← lastEnd⟩
    | .keyword .kwWhile =>
      let opening ← advance
      let test ← condition n room
      let body ← statement n room
      return .whileLoop test body ⟨opening.start, ← lastEnd⟩
    | .keyword .kwDo =>
      let opening ← advance
      let body ← statement n room
      let _ ← expect (.keyword .kwWhile)
      let test ← condition n room
      terminator
      return .doLoop body test ⟨opening.start, ← lastEnd⟩
    | .keyword .kwFor =>
      let opening ← advance
      let _ ← expect .parenStart
      let init ← forInit n room
      let _ ← expect .semi
      let test ← optionalUnless .semi n room
      let _ ← expect .semi
      let update ← optionalUnless .parenEnd n room
      let _ ← expect .parenEnd
      let body ← statement n room
      return .forLoop init test update body ⟨opening.start, ← lastEnd⟩
    | .keyword .kwDef =>
      let opening ← advance
      let name ← identifier
      let _ ← expect .parenStart
      let params ← parameters n
      let _ ← expect .parenEnd
      let (body, bodySpan) ← block n room
      return .function name params body bodySpan ⟨opening.start, ← lastEnd⟩
    | .keyword .kwReturn => returnStatement n room
    | _ => expressionStatement n room

/-- Statements in braces. -/
def block (n : Nat) : Nat → Parse (List Stmt × Span)
  | 0 => tooDeep
  | room + 1 => do
    let opening ← expect .curlyStart
    let body ← repeatWhile (fun t => t.type != .curlyEnd && t.type != .endOfInput)
      (statement n room) n
    let _ ← expect .curlyEnd
    return (body, ⟨opening.start, ← lastEnd⟩)

end

/-- Statements up to the end of the input. -/
def statements (n room : Nat) : Parse (List Stmt) :=
  repeatWhile (·.type != .endOfInput) (statement n room) n

/-- The state in front of the first token. -/
def start (tokens : Lexer.Tokens) : Except SyntaxError State :=
  match tokens.tokens, tokens.ending with
  | t :: rest, ending => .ok ⟨t, rest, ending, 0⟩
  | [], .ok t => .ok ⟨t, [], .ok t, 0⟩
  | [], .error e => .error (.lexical e)

/-- Parses the tokens of a text of the given length. -/
def parseTokens (room length : Nat) (tokens : Lexer.Tokens) : Except SyntaxError Program := do
  let s ← start tokens
  let (body, _) ← (statements (tokens.tokens.length + 1) room).run s
  return ⟨body, ⟨0, length⟩⟩

end Scriptlet.Parser

namespace Scriptlet

/-- Parses a source text with a table of keywords. -/
def parse (table : KeywordTable) (source : String) : Except SyntaxError Program :=
  Parser.parseTokens nestingLimit source.length (Lexer.scan (Lexer.rules table) source)

end Scriptlet
