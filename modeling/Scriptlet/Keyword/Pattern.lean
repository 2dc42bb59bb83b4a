import Scriptlet.Keyword

/-!
Patterns that match the spellings of a keyword, and the keyword part of the written grammar.
Longer spellings come first, so that a spelling is never cut short by one that it begins with.
-/

namespace Scriptlet.Keyword

/-- Puts a spelling behind those that are at least as long. -/
def insertByLength (s : String) : List String → List String
  | [] => [s]
  | t :: rest => if s.length ≤ t.length then t :: insertByLength s rest else s :: t :: rest

/-- Spellings by falling length; equal lengths keep their order. -/
def longestFirst (spellings : List String) : List String :=
  spellings.foldl (fun sorted s => insertByLength s sorted) []

/-- Characters with a meaning in patterns. -/
def special : List Char :=
  "()[]\x7b\x7d?*+-|^$\\.&~# \t\n\r\x0b\x0c".toList

def escape (s : String) : String :=
  String.ofList (s.toList.flatMap fun c => if c ∈ special then ['\\', c] else [c])

/-- The pattern of a kind: one of its spellings between word boundaries. -/
def pattern (spellings : List String) : String :=
  "\\b(?:" ++ "|".intercalate ((longestFirst spellings).map escape) ++ ")\\b"

/-- A pattern between the slashes of the written grammar. -/
def written (spellings : List String) : String :=
  (pattern spellings).replace "/" "\\/"

/-- Text as it is read back from the written grammar: a carriage return counts as a line feed, and a
backslash before a quotation mark is lost. -/
def readBack : List Char → List Char
  | [] => []
  | '\r' :: rest => '\n' :: readBack rest
  | '\\' :: '"' :: rest => '"' :: readBack rest
  | c :: rest => c :: readBack rest

/-- The name of a keyword in the written grammar. An underscore marks keywords that leave no trace
in the tree. -/
def terminalName (k : Keyword) : String :=
  match k with
  | .kwTrue | .kwFalse | .kwNull => k.name
  | _ => "_" ++ k.name

/-- The line of the written grammar for a kind; a kind without spellings is only declared. -/
def grammarLine (table : KeywordTable) (k : Keyword) : String :=
  let spellings := table.spellings k
  if spellings.isEmpty then "    %declare " ++ k.terminalName
  else "    " ++ k.terminalName ++ ".2: /" ++ written spellings ++ "/"

/-- The keyword part of the written grammar. -/
def grammarText (table : KeywordTable) : String :=
  "\n" ++ "\n".intercalate (all.map (grammarLine table)) ++ "\n"

end Scriptlet.Keyword

namespace Scriptlet

/-- Why a written grammar with the spellings of a table cannot be used. -/
inductive TableFault where
  /-- A pattern is on more than one line. -/
  | lineFeed
  /-- A pattern holds a character that no text file may. -/
  | nullCharacter
  /-- A keyword without text would be found everywhere. -/
  | emptySpelling
deriving DecidableEq, Repr

namespace TableFault

def message : TableFault → String
  | .lineFeed => "A spelling holds a line feed"
  | .nullCharacter => "A spelling holds a null character"
  | .emptySpelling => "A spelling is empty"

end TableFault

namespace KeywordTable

/-- What keeps the pattern of one kind from being written. -/
def patternFault? (spellings : List String) : Option TableFault :=
  if spellings.any (·.contains '\n') then some .lineFeed
  else if spellings.any (·.contains '\x00') then some .nullCharacter
  else none

/-- The first fault of a table: patterns are written kind by kind, and only then put to use. -/
def fault? (table : KeywordTable) : Option TableFault :=
  match Keyword.all.findSome? fun k => patternFault? (table.spellings k) with
  | some fault => some fault
  | none =>
    if Keyword.all.any fun k => (table.spellings k).contains "" then some .emptySpelling else none

end KeywordTable

end Scriptlet
