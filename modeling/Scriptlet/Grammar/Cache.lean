import Scriptlet.Grammar.Parse

/-!
A store of prepared parsers. A parser is kept under the entries of its table of keywords in
alphabetic order. A table without entries is looked up as if it were the default table, so that of
these two the one that comes first serves both.
-/

namespace Scriptlet.Grammar

abbrev CacheKey := List (String × List String)

/-- Prepared parsers, each known by the table that it was made for. -/
structure Cache where
  parsers : List (CacheKey × KeywordTable) := []

namespace Cache

def insertEntry (entry : String × List String) : CacheKey → CacheKey
  | [] => [entry]
  | other :: rest =>
    if entry.1 < other.1 then entry :: other :: rest else other :: insertEntry entry rest

def keyOf (table : KeywordTable) : CacheKey :=
  let entries := if table.entries.isEmpty then KeywordTable.default.entries else table.entries
  entries.foldl (fun sorted entry => insertEntry entry sorted) []

/-- The table whose parser serves a table, and the store after that. A table that no parser can be
made for is not kept. -/
def resolve (cache : Cache) (table : KeywordTable) : KeywordTable × Cache :=
  match cache.parsers.lookup (keyOf table) with
  | some found => (found, cache)
  | none =>
    (table, if table.fault?.isNone then ⟨(keyOf table, table) :: cache.parsers⟩ else cache)

/-- Parses with a prepared parser. -/
def parse (cache : Cache) (table : KeywordTable) (source : String) :
    Except SyntaxError Program × Cache :=
  let (found, cache) := cache.resolve table
  (Grammar.parse found source, cache)

/-- A source that is to be parsed. Without a table of keywords the default table counts. -/
structure Call where
  table? : Option KeywordTable := none
  source : String

def Call.table (c : Call) : KeywordTable :=
  c.table?.getD .default

/-- Parses the sources of calls one after the other. -/
def parseAll (cache : Cache) : List Call → List (Except SyntaxError Program)
  | [] => []
  | c :: rest =>
    let (result, cache) := cache.parse c.table c.source
    result :: parseAll cache rest

end Cache

end Scriptlet.Grammar
