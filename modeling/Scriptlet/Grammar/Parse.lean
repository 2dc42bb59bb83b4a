import Scriptlet.Grammar.Meaning

/-!
The table-driven parser. It cuts the text by the same rules as the recursive-descent parser, except
that keywords are tried before everything else and are spelled as the written grammar gives them
back, and reports the tokens that its state would take in place of an unexpected one.
-/

namespace Scriptlet.Grammar

/-- The spellings of a keyword in the order in which they are tried. -/
def spellings (table : KeywordTable) (k : Keyword) : List (List Char) :=
  (Keyword.longestFirst (table.spellings k)).map fun s => Keyword.readBack s.toList

/-- Whether a keyword is tried before another: longer spellings first, then the longer pattern, then
by name. -/
def triedBefore (table : KeywordTable) (a b : Keyword) : Bool :=
  let longest (k : Keyword) : Nat := (spellings table k).foldl (fun m s => max m s.length) 0
  let size (k : Keyword) : Nat :=
    (Keyword.readBack (Keyword.written (table.spellings k)).toList).length
  if longest a ≠ longest b then longest b < longest a
  else if size a ≠ size b then size b < size a
  else a.terminalName < b.terminalName

def insertKeyword (table : KeywordTable) (k : Keyword) : List Keyword → List Keyword
  | [] => [k]
  | j :: rest =>
    if triedBefore table k j then k :: j :: rest else j :: insertKeyword table k rest

/-- The keywords in the order in which they are tried. -/
def keywordOrder (table : KeywordTable) : List Keyword :=
  Keyword.all.foldl (fun sorted k => insertKeyword table k sorted) []

/-- The rules for cutting text into tokens. -/
def lexerRules (table : KeywordTable) : List Lexer.Rule :=
  (keywordOrder table).map (fun k => Lexer.keywordRule k (spellings table k)) ++
    Lexer.droppedRules ++
    Lexer.punctuationRules ++ Lexer.otherRules

/-- How lists of expected tokens name a terminal. -/
def expectedName (terminal : Nat) : String :=
  match TokenType.all[terminal]? with
  | some .endOfInput | none => "$END"
  | some type => type.name

def insertName (name : String) : List String → List String
  | [] => [name]
  | other :: rest => if name < other then name :: other :: rest else other :: insertName name rest

/-- The names of the terminals that a state takes, in alphabetic order. -/
def expectedNames (state : Lr.Bits) : List String :=
  (tables.expected state).foldl (fun sorted terminal => insertName (expectedName terminal) sorted) []

def terminalOf (t : Token) : Nat :=
  (Symbol.terminal t.type).number

/-- The program made of the attribute of the whole text. -/
def finish (length : Nat) (a : Attribute) : Except SyntaxError Program :=
  let span : Span := ⟨0, length⟩
  if nestingLimit < a.height then .error (.tooDeep span)
  else
    match a.part with
    | .ok (.stmts body) => .ok ⟨body, span⟩
    | .ok _ => .ok ⟨[], span⟩
    | .error e => .error e

/-- Parses the tokens of a text of the given length. -/
def parseTokens (length : Nat) (tokens : Lexer.Tokens) : Except SyntaxError Program :=
  let bound := (tokens.tokens.length + 3) * rules.length
  let last := match tokens.ending with
    | .ok t => [t]
    | .error _ => []
  match Lr.run tables meaning terminalOf bound [] (tokens.tokens ++ last), tokens.ending with
  | .accepted a, _ => finish length a
  | .rejected t state, _ => .error (.unexpected t (.oneOf (expectedNames state)))
  | .unfinished, .error e => .error (.lexical e)
  | .unfinished, .ok _ => .error (.tooDeep ⟨0, length⟩)

/-- Parses a source text with a table of keywords. -/
def parse (table : KeywordTable) (source : String) : Except SyntaxError Program :=
  match table.fault? with
  | some fault => .error (.badTable fault)
  | none => parseTokens source.length (Lexer.scan (lexerRules table) source)

end Scriptlet.Grammar
