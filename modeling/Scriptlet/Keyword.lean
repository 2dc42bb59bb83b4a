import Scriptlet.Text.Quoted

/-!
Keywords and their spellings. A table lists the spellings of each kind of keyword; the language has
an English and a Roman Urdu table and by default accepts both. `merge` joins tables so that no
spelling stands for two kinds.
-/

namespace Scriptlet

/-- Kinds of keywords. -/
inductive Keyword where
  | kwLet | kwIf | kwElse | kwWhile | kwDo | kwFor | kwTrue | kwFalse | kwNull | kwDef | kwReturn
deriving DecidableEq, Repr, Inhabited

namespace Keyword

/-- All kinds, in the order in which their spellings are tried. -/
def all : List Keyword :=
  [.kwLet, .kwIf, .kwElse, .kwWhile, .kwDo, .kwFor, .kwTrue, .kwFalse, .kwNull, .kwDef, .kwReturn]

theorem mem_all (k : Keyword) : k ∈ all := by
  cases k <;> decide

instance {P : Keyword → Prop} [DecidablePred P] : Decidable (∀ k, P k) :=
  decidable_of_iff (∀ k ∈ all, P k) ⟨fun h k => h k k.mem_all, fun h k _ => h k⟩

def name : Keyword → String
  | .kwLet => "LET"
  | .kwIf => "IF"
  | .kwElse => "ELSE"
  | .kwWhile => "WHILE"
  | .kwDo => "DO"
  | .kwFor => "FOR"
  | .kwTrue => "TRUE"
  | .kwFalse => "FALSE"
  | .kwNull => "NULL"
  | .kwDef => "DEF"
  | .kwReturn => "RETURN"

def ofName? (s : String) : Option Keyword :=
  all.find? (·.name = s)

/-- The English spelling. -/
def english : Keyword → String
  | .kwLet => "let"
  | .kwIf => "if"
  | .kwElse => "else"
  | .kwWhile => "while"
  | .kwDo => "do"
  | .kwFor => "for"
  | .kwTrue => "true"
  | .kwFalse => "false"
  | .kwNull => "null"
  | .kwDef => "def"
  | .kwReturn => "return"

/-- Roman Urdu spellings; some kinds have none. -/
def romanUrdu : Keyword → List String
  | .kwLet => ["Banao", "banao"]
  | .kwIf => ["Agr", "agr"]
  | .kwElse => ["Warna", "warna"]
  | .kwWhile => ["JabTak", "jabTak"]
  | .kwDo => ["Karo", "karo"]
  | .kwTrue => ["Sahi", "sahi"]
  | .kwFalse => ["Ghalat", "ghalat"]
  | .kwReturn => ["WapisBhejo", "wapisBhejo"]
  | .kwFor | .kwNull | .kwDef => []

end Keyword

/-- Spellings by the name of a kind, in the order written. Names of no kind are allowed and do
nothing until tables are merged. -/
structure KeywordTable where
  entries : List (String × List String)
deriving DecidableEq, Repr, Inhabited

namespace KeywordTable

def ofKinds (spellings : Keyword → List String) : KeywordTable :=
  ⟨Keyword.all.map fun k => (k.name, spellings k)⟩

/-- The spellings of a kind; a kind that is not listed has none. -/
def spellings (table : KeywordTable) (k : Keyword) : List String :=
  (table.entries.lookup k.name).getD []

def english : KeywordTable :=
  ofKinds fun k => [k.english]

def romanUrdu : KeywordTable :=
  ofKinds Keyword.romanUrdu

/-- A merge in progress: what each kind has and which spellings are taken. -/
structure Merge where
  chosen : Keyword → List String := fun _ => []
  seen : List String := []

/-- Gives a spelling to a kind unless it is taken. -/
def Merge.add (m : Merge) (k : Keyword) (spelling : String) : Merge :=
  if spelling ∈ m.seen then m
  else
    { chosen := fun j => if j = k then m.chosen k ++ [spelling] else m.chosen j
      seen := spelling :: m.seen }

/-- Adds the spellings of one entry; an entry for no kind is an error that names it. -/
def Merge.addEntry (m : Merge) (entry : String × List String) : Except String Merge :=
  match Keyword.ofName? entry.1 with
  | none => .error entry.1
  | some k => .ok (entry.2.foldl (fun m s => m.add k s) m)

/-- Joins tables. The first occurrence of a spelling decides its kind. -/
def merge (tables : List KeywordTable) : Except String KeywordTable :=
  ((tables.flatMap (·.entries)).foldlM Merge.addEntry {}).map fun m => ofKinds m.chosen

/-- The message about an entry that names no kind. -/
def unknownKindMessage (name : String) : String :=
  "unknown keyword kind " ++ Text.quoted name

/-- Both tables of the language. -/
def default : KeywordTable :=
  ofKinds fun k => k.english :: k.romanUrdu

end KeywordTable

end Scriptlet
