import Scriptlet.Keyword.Pattern
import Scriptlet.NodeKind
import Scriptlet.Number.Read
import Scriptlet.Token

/-!
Reasons why a source text is no program, and how they are told.
-/

namespace Scriptlet

/-- What should have stood in place of an unexpected token. -/
inductive Expected where
  | token (type : TokenType)
  | expression
  | oneOf (names : List String)
deriving DecidableEq, Repr

namespace Expected

/-- How a message names it. -/
def display : Expected → String
  | .token type => type.display
  | .expression => "an expression"
  | .oneOf names => "one of " ++ ", ".intercalate names

def name : Expected → String
  | .token type => type.name
  | .expression => "Expression"
  | .oneOf names => ", ".intercalate names

end Expected

inductive SyntaxError where
  /-- No token starts here. -/
  | lexical (e : LexError)
  | unexpected (token : Token) (expected : Expected)
  /-- Only a name can be assigned to. -/
  | invalidTarget (span : Span) (actual : NodeKind)
  /-- A literal that is no number within the limits. -/
  | badNumber (e : Decimal.ReadError)
  | tooDeep (span : Span)
  /-- The table of keywords cannot be used. -/
  | badTable (fault : TableFault)
deriving DecidableEq, Repr

namespace SyntaxError

def message : SyntaxError → String
  | .lexical e => e.message
  | .unexpected token expected =>
    (if token.type = .endOfInput then "Unexpected end of input"
      else "Unexpected token " ++ Text.quoted token.text) ++ ", expected " ++ expected.display
  | .invalidTarget .. => "Invalid left-hand side in assignment expression"
  | .badNumber .notANumber => "Not a number"
  | .badNumber .tooManyDigits => "Too many digits"
  | .tooDeep _ => "Program nests too deeply"
  | .badTable fault => fault.message

/-- The place of an error, where it has one. -/
def span? : SyntaxError → Option Span
  | .lexical e => some e.span
  | .unexpected token _ => some token.span
  | .invalidTarget span _ => some span
  | .tooDeep span => some span
  | .badNumber _ | .badTable _ => none

def expected? : SyntaxError → Option String
  | .unexpected _ expected => some expected.name
  | .invalidTarget .. => some (TokenType.name .identifier)
  | _ => none

def actual? : SyntaxError → Option String
  | .unexpected token _ => some token.type.name
  | .invalidTarget _ actual => some actual.name
  | _ => none

end SyntaxError

end Scriptlet
