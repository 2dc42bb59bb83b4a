/-!
Kinds of nodes in a tree, with the names of their fields. Every node also has a `start` and an `end`.
-/

namespace Scriptlet

inductive NodeKind where
  | program
  | identifier | numericLiteral | stringLiteral | booleanLiteral | nullLiteral
  | unaryExpression | binaryExpression | logicalExpression | assignmentExpression | callExpression
  | expressionStatement | variableDeclaration | variableStatement | blockStatement | emptyStatement
  | ifStatement | whileStatement | doWhileStatement | forStatement | functionDeclaration
  | returnStatement
deriving DecidableEq, Repr, Inhabited

namespace NodeKind

def all : List NodeKind :=
  [.program, .identifier, .numericLiteral, .stringLiteral, .booleanLiteral, .nullLiteral,
   .unaryExpression, .binaryExpression, .logicalExpression, .assignmentExpression, .callExpression,
   .expressionStatement, .variableDeclaration, .variableStatement, .blockStatement,
   .emptyStatement, .ifStatement, .whileStatement, .doWhileStatement, .forStatement,
   .functionDeclaration, .returnStatement]

def name : NodeKind → String
  | .program => "Program"
  | .identifier => "Identifier"
  | .numericLiteral => "NumericLiteral"
  | .stringLiteral => "StringLiteral"
  | .booleanLiteral => "BooleanLiteral"
  | .nullLiteral => "NullLiteral"
  | .unaryExpression => "UnaryExpression"
  | .binaryExpression => "BinaryExpression"
  | .logicalExpression => "LogicalExpression"
  | .assignmentExpression => "AssignmentExpression"
  | .callExpression => "CallExpression"
  | .expressionStatement => "ExpressionStatement"
  | .variableDeclaration => "VariableDeclaration"
  | .variableStatement => "VariableStatement"
  | .blockStatement => "BlockStatement"
  | .emptyStatement => "EmptyStatement"
  | .ifStatement => "IfStatement"
  | .whileStatement => "WhileStatement"
  | .doWhileStatement => "DoWhileStatement"
  | .forStatement => "ForStatement"
  | .functionDeclaration => "FunctionDeclaration"
  | .returnStatement => "ReturnStatement"

def ofName? (s : String) : Option NodeKind :=
  all.find? (·.name = s)

/-- Names of the fields, in the order in which they are written. -/
def fields : NodeKind → List String
  | .program => ["body"]
  | .identifier => ["name"]
  | .numericLiteral => ["value"]
  | .stringLiteral => ["value"]
  | .booleanLiteral => ["value"]
  | .nullLiteral => ["value"]
  | .unaryExpression => ["operator", "argument"]
  | .binaryExpression => ["operator", "left", "right"]
  | .logicalExpression => ["operator", "left", "right"]
  | .assignmentExpression => ["operator", "left", "right"]
  | .callExpression => ["callee", "arguments"]
  | .expressionStatement => ["expression"]
  | .variableDeclaration => ["id", "init"]
  | .variableStatement => ["declarations"]
  | .blockStatement => ["body"]
  | .emptyStatement => []
  | .ifStatement => ["test", "consequent", "alternate"]
  | .whileStatement => ["test", "body"]
  | .doWhileStatement => ["body", "test"]
  | .forStatement => ["init", "test", "update", "body"]
  | .functionDeclaration => ["name", "params", "body"]
  | .returnStatement => ["argument"]

end NodeKind

end Scriptlet
