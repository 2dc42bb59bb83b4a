import Scriptlet.Lr.Run
import Scriptlet.Parser

/-!
The grammar of the language, written down as productions. Each production has a form, which says
what to make of its parts.
-/

namespace Scriptlet

inductive Nonterminal where
  | root | start | statements | statement | finalStatement | block | emptyStatement
  | variableDeclarations | moreDeclarations | variableDeclaration
  | ifStatement | whileStatement | doWhileStatement | forStatement | forInit
  | functionDeclaration | parameters | moreParameters
  | expression | assignment
  /-- Operands of a layer of operators, and the operators with their operands after the first. -/
  | layer (level : Parser.Level) | moreOperands (level : Parser.Level)
  | unary | call | arguments | moreArguments | primary
deriving DecidableEq, Repr

inductive Symbol where
  | terminal (type : TokenType)
  | nonterminal (n : Nonterminal)
deriving DecidableEq, Repr

/-- What a production makes of its parts. -/
inductive Form where
  /-- Its only part, or the part in parentheses. -/
  | same
  | paren
  | program
  | statements
  | exprStatement | variableStatement | returnStatement
  | block | emptyStatement
  | variables | declarations | declaration
  | ifThen | ifElse | whileLoop | doLoop
  | forLoop (init test update : Bool)
  | initVariables | initExpr
  | function | parameters
  | assign
  | chain (level : Parser.Level) | operands
  | unary | call | arguments
  | number | string | bool (value : Bool) | null | name
deriving DecidableEq, Repr

structure Rule where
  left : Nonterminal
  right : List Symbol
  form : Form
deriving DecidableEq, Repr

namespace Nonterminal

def all : List Nonterminal :=
  [.root, .start, .statements, .statement, .finalStatement, .block, .emptyStatement,
   .variableDeclarations, .moreDeclarations, .variableDeclaration, .ifStatement, .whileStatement,
   .doWhileStatement, .forStatement, .forInit, .functionDeclaration, .parameters, .moreParameters,
   .expression, .assignment] ++
  Parser.Level.all.flatMap (fun level => [.layer level, .moreOperands level]) ++
  [.unary, .call, .arguments, .moreArguments, .primary]

end Nonterminal

namespace Symbol

/-- Terminals are numbered first, the end of input last among them; then nonterminals. -/
def number : Symbol → Nat
  | .terminal type => TokenType.all.idxOf type
  | .nonterminal n => TokenType.all.length + Nonterminal.all.idxOf n

end Symbol

namespace Grammar

open TokenType

abbrev t (type : TokenType) : Symbol := .terminal type
abbrev kw (k : Keyword) : Symbol := .terminal (.keyword k)
abbrev n (symbol : Nonterminal) : Symbol := .nonterminal symbol

def programRules : List Rule :=
  [⟨.root, [n .start], .same⟩,
   ⟨.start, [n .statements, n .finalStatement], .program⟩,
   ⟨.start, [n .statements], .program⟩,
   ⟨.start, [n .finalStatement], .program⟩,
   ⟨.start, [], .program⟩,
   ⟨.statements, [n .statement], .statements⟩,
   ⟨.statements, [n .statements, n .statement], .statements⟩]

def statementRules : List Rule :=
  [⟨.statement, [n .expression, t .semi], .exprStatement⟩,
   ⟨.statement, [n .variableDeclarations, t .semi], .variableStatement⟩,
   ⟨.statement, [kw .kwReturn, n .expression, t .semi], .returnStatement⟩,
   ⟨.statement, [kw .kwReturn, t .semi], .returnStatement⟩,
   ⟨.statement, [n .block], .same⟩,
   ⟨.statement, [n .emptyStatement], .same⟩,
   ⟨.statement, [n .ifStatement], .same⟩,
   ⟨.statement, [n .whileStatement], .same⟩,
   ⟨.statement, [n .doWhileStatement], .same⟩,
   ⟨.statement, [n .forStatement], .same⟩,
   ⟨.statement, [n .functionDeclaration], .same⟩,
   ⟨.finalStatement, [n .expression], .exprStatement⟩,
   ⟨.finalStatement, [n .variableDeclarations], .variableStatement⟩,
   ⟨.finalStatement, [kw .kwReturn, n .expression], .returnStatement⟩,
   ⟨.finalStatement, [kw .kwReturn], .returnStatement⟩,
   ⟨.block, [t .curlyStart, n .statements, t .curlyEnd], .block⟩,
   ⟨.block, [t .curlyStart, t .curlyEnd], .block⟩,
   ⟨.emptyStatement, [t .semi], .emptyStatement⟩]

def declarationRules : List Rule :=
  [⟨.variableDeclarations, [kw .kwLet, n .variableDeclaration, n .moreDeclarations], .variables⟩,
   ⟨.variableDeclarations, [kw .kwLet, n .variableDeclaration], .variables⟩,
   ⟨.moreDeclarations, [t .comma, n .variableDeclaration], .declarations⟩,
   ⟨.moreDeclarations, [n .moreDeclarations, t .comma, n .variableDeclaration], .declarations⟩,
   ⟨.variableDeclaration, [t .identifier, t .simpleAssignment, n .assignment], .declaration⟩,
   ⟨.variableDeclaration, [t .identifier], .declaration⟩]

/-- The production of a `for` loop with or without each of its three clauses. -/
def forRule (init test update : Bool) : Rule :=
  ⟨.forStatement,
   [kw .kwFor, t .parenStart] ++ (if init then [n .forInit] else []) ++ [t .semi] ++
     (if test then [n .expression] else []) ++ [t .semi] ++
     (if update then [n .expression] else []) ++ [t .parenEnd, n .statement],
   .forLoop init test update⟩

def compoundRules : List Rule :=
  [⟨.ifStatement, [kw .kwIf, t .parenStart, n .expression, t .parenEnd, n .statement, kw .kwElse,
     n .statement], .ifElse⟩,
   ⟨.ifStatement, [kw .kwIf, t .parenStart, n .expression, t .parenEnd, n .statement], .ifThen⟩,
   ⟨.whileStatement, [kw .kwWhile, t .parenStart, n .expression, t .parenEnd, n .statement],
     .whileLoop⟩,
   ⟨.doWhileStatement, [kw .kwDo, n .statement, kw .kwWhile, t .parenStart, n .expression,
     t .parenEnd, t .semi], .doLoop⟩,
   forRule true true true, forRule true true false, forRule true false true,
   forRule true false false, forRule false true true, forRule false true false,
   forRule false false true, forRule false false false,
   ⟨.forInit, [n .variableDeclarations], .initVariables⟩,
   ⟨.forInit, [n .expression], .initExpr⟩,
   ⟨.functionDeclaration, [kw .kwDef, t .identifier, t .parenStart, n .parameters, t .parenEnd,
     n .block], .function⟩,
   ⟨.functionDeclaration, [kw .kwDef, t .identifier, t .parenStart, t .parenEnd, n .block],
     .function⟩,
   ⟨.parameters, [t .identifier, n .moreParameters], .parameters⟩,
   ⟨.parameters, [t .identifier], .parameters⟩,
   ⟨.moreParameters, [t .comma, t .identifier], .parameters⟩,
   ⟨.moreParameters, [n .moreParameters, t .comma, t .identifier], .parameters⟩]

/-- The operands of a layer: the next tighter layer, and unary operators under the tightest. -/
def operandOf : Parser.Level → Nonterminal
  | .or => .layer .and
  | .and => .layer .equality
  | .equality => .layer .relational
  | .relational => .layer .additive
  | .additive => .layer .multiplicative
  | .multiplicative => .unary

def layerRules (level : Parser.Level) : List Rule :=
  [⟨.layer level, [n (operandOf level), n (.moreOperands level)], .chain level⟩,
   ⟨.layer level, [n (operandOf level)], .same⟩,
   ⟨.moreOperands level, [t level.type, n (operandOf level)], .operands⟩,
   ⟨.moreOperands level, [n (.moreOperands level), t level.type, n (operandOf level)], .operands⟩]

def expressionRules : List Rule :=
  [⟨.expression, [n .assignment], .same⟩,
   ⟨.assignment, [n (.layer .or)], .same⟩,
   ⟨.assignment, [n (.layer .or), t .simpleAssignment, n .assignment], .assign⟩,
   ⟨.assignment, [n (.layer .or), t .complexAssignment, n .assignment], .assign⟩] ++
  Parser.Level.all.flatMap layerRules ++
  [⟨.unary, [t .additive, n .unary], .unary⟩,
   ⟨.unary, [t .logicalNot, n .unary], .unary⟩,
   ⟨.unary, [n .call], .same⟩,
   ⟨.call, [n .primary], .same⟩,
   ⟨.call, [n .call, t .parenStart, n .arguments, t .parenEnd], .call⟩,
   ⟨.call, [n .call, t .parenStart, t .parenEnd], .call⟩,
   ⟨.arguments, [n .assignment, n .moreArguments], .arguments⟩,
   ⟨.arguments, [n .assignment], .arguments⟩,
   ⟨.moreArguments, [t .comma, n .assignment], .arguments⟩,
   ⟨.moreArguments, [n .moreArguments, t .comma, n .assignment], .arguments⟩,
   ⟨.primary, [t .number], .number⟩,
   ⟨.primary, [t .string], .string⟩,
   ⟨.primary, [kw .kwTrue], .bool true⟩,
   ⟨.primary, [kw .kwFalse], .bool false⟩,
   ⟨.primary, [kw .kwNull], .null⟩,
   ⟨.primary, [t .identifier], .name⟩,
   ⟨.primary, [t .parenStart, n .expression, t .parenEnd], .paren⟩]

/-- All productions; the first is for the root. -/
def rules : List Rule :=
  programRules ++ statementRules ++ declarationRules ++ compoundRules ++ expressionRules

/-- The grammar over numbered symbols. -/
def numbered : Lr.Grammar where
  terminals := TokenType.all.length
  symbols := TokenType.all.length + Nonterminal.all.length
  productions := rules.map fun r =>
    ⟨(Symbol.nonterminal r.left).number, r.right.map Symbol.number⟩

/-- The parsing tables of the language. -/
def tables : Lr.Tables :=
  .ofGrammar numbered

end Grammar

end Scriptlet
