import Scriptlet.Json

/-!
Data as text: one item or member on a line, indented by two blanks for each level. Only quotation
marks, backslashes and control characters are escaped.
-/

namespace Scriptlet.Json

def escape (c : Char) : List Char :=
  if c = '"' then ['\\', '"']
  else if c = '\\' then ['\\', '\\']
  else if c = '\n' then ['\\', 'n']
  else if c = '\r' then ['\\', 'r']
  else if c = '\t' then ['\\', 't']
  else if c = '\x08' then ['\\', 'b']
  else if c = '\x0c' then ['\\', 'f']
  else if c.toNat < 0x20 then ['\\', 'u'] ++ (Text.hex 4 c.toNat).toList
  else [c]

def textLiteral (s : String) : String :=
  String.ofList ('"' :: s.toList.flatMap escape ++ ['"'])

def floatLiteral (x : Float) : String :=
  match Binary.decode x with
  | .nan => "NaN"
  | .infinite negative => if negative then "-Infinity" else "Infinity"
  | .finite .. => Decimal.text x

def scalarLiteral : Scalar → String
  | .null => "null"
  | .bool b => if b then "true" else "false"
  | .number (.int n) => Number.intText n
  | .number (.float x) => floatLiteral x
  | .text s => textLiteral s

/-- A line break and the indentation of a level. -/
def newline (level : Nat) : String :=
  "\n" ++ String.ofList (List.replicate (2 * level) ' ')

/-- Puts parts on lines of their own between brackets. -/
def bracketed (opening closing : String) (level : Nat) (parts : List String) : String :=
  if parts.isEmpty then opening ++ closing
  else
    opening ++ newline (level + 1) ++ ("," ++ newline (level + 1)).intercalate parts ++
      newline level ++ closing

mutual

/-- The text of a datum at a level of indentation. -/
def write (level : Nat) : Json → String
  | .scalar s => scalarLiteral s
  | .list items => bracketed "[" "]" level (writeItems (level + 1) items)
  | .object members => bracketed "\x7b" "\x7d" level (writeMembers (level + 1) members)
  | .nan => floatLiteral Binary.nan
  | .foreign _ shown => textLiteral shown

def writeItems (level : Nat) : List Json → List String
  | [] => []
  | item :: rest => write level item :: writeItems level rest

def writeMembers (level : Nat) : List (String × Json) → List String
  | [] => []
  | (name, value) :: rest =>
    (textLiteral name ++ ": " ++ write level value) :: writeMembers level rest

end

/-- The text of a file that holds a datum. -/
def render (j : Json) : String :=
  write 0 j

end Scriptlet.Json
