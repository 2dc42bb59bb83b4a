import Scriptlet.Keyword
import Scriptlet.Span

/-!
Tokens: what the source text is made of, apart from blanks and comments.
-/

namespace Scriptlet

inductive TokenType where
  | keyword (k : Keyword)
  | semi | curlyStart | curlyEnd | parenStart | parenEnd | comma
  | number | string | identifier
  | equality | simpleAssignment | complexAssignment | additive | multiplicative | relational
  | logicalAnd | logicalOr | logicalNot
  | endOfInput
deriving DecidableEq, Repr, Inhabited

namespace TokenType

def all : List TokenType :=
  Keyword.all.map .keyword ++
    [.semi, .curlyStart, .curlyEnd, .parenStart, .parenEnd, .comma, .number, .string, .identifier,
     .equality, .simpleAssignment, .complexAssignment, .additive, .multiplicative, .relational,
     .logicalAnd, .logicalOr, .logicalNot, .endOfInput]

def name : TokenType → String
  | .keyword k => k.name
  | .semi => "SEMI"
  | .curlyStart => "CURLY_START"
  | .curlyEnd => "CURLY_END"
  | .parenStart => "PAREN_START"
  | .parenEnd => "PAREN_END"
  | .comma => "COMMA"
  | .number => "NUMBER"
  | .string => "STRING"
  | .identifier => "IDENTIFIER"
  | .equality => "EQUALITY_OPERATOR"
  | .simpleAssignment => "SIMPLE_ASSIGNMENT"
  | .complexAssignment => "COMPLEX_ASSIGNMENT"
  | .additive => "ADDITIVE_OPERATOR"
  | .multiplicative => "MULTIPLICATIVE_OPERATOR"
  | .relational => "RELATIONAL_OPERATOR"
  | .logicalAnd => "LOGICAL_AND"
  | .logicalOr => "LOGICAL_OR"
  | .logicalNot => "LOGICAL_NOT"
  | .endOfInput => "EOF"

/-- The spelling shown in messages: the character itself for punctuation. -/
def display : TokenType → String
  | .semi => "\";\""
  | .curlyStart => "\"\x7b\""
  | .curlyEnd => "\"\x7d\""
  | .parenStart => "\"(\""
  | .parenEnd => "\")\""
  | .comma => "\",\""
  | .simpleAssignment => "\"=\""
  | .endOfInput => "end of input"
  | t => t.name

def category : TokenType → String
  | .keyword _ => "keyword"
  | .semi | .curlyStart | .curlyEnd | .parenStart | .parenEnd | .comma => "punctuation"
  | .number | .string => "literal"
  | .identifier => "identifier"
  | .endOfInput => "end-of-input"
  | _ => "operator"

end TokenType

/-- A token with its text and place; the text of the end of input is empty. -/
structure Token where
  type : TokenType
  text : String
  span : Span
deriving DecidableEq, Repr, Inhabited

namespace Token

def start (t : Token) : Nat := t.span.start

def stop (t : Token) : Nat := t.span.stop

/-- The token that ends a text of the given length. -/
def endOfInput (length : Nat) : Token :=
  ⟨.endOfInput, "", ⟨length, length⟩⟩

end Token

/-- Why no token starts at a place. -/
inductive LexFault where
  | unterminatedString
  | invalid (c : Char)
deriving DecidableEq, Repr

/-- A place where no token starts. -/
structure LexError where
  fault : LexFault
  position : Nat
deriving DecidableEq, Repr

namespace LexError

def message (e : LexError) : String :=
  match e.fault with
  | .unterminatedString => "Unterminated string literal"
  | .invalid c => "Invalid token: " ++ Text.quoted c.toString

def span (e : LexError) : Span :=
  ⟨e.position, e.position + 1⟩

/-- The error at a character that no rule matches. -/
def atChar (position : Nat) (c : Char) : LexError :=
  ⟨if c = '"' || c = '\'' then .unterminatedString else .invalid c, position⟩

end LexError

end Scriptlet
