import Scriptlet.Token
import Scriptlet.Keyword.Pattern
import Scriptlet.Text.Blank
import Scriptlet.Text.Digit
import Scriptlet.Text.Word

/-!
Cutting source text into tokens. An ordered list of rules is tried at each place and the first rule
that matches decides, so that keywords come before names and longer operators before their
beginnings. Blanks and comments are matched and dropped.
-/

namespace Scriptlet.Lexer

open Text

/-- What a rule matches: the character before the place and the text from it on give the length of
the match. -/
abbrev Matcher := Option Char → List Char → Option Nat

/-- A rule makes a token of its match, or drops it. -/
structure Rule where
  type : Option TokenType
  matcher : Matcher

/-- A nonempty run of characters of a class, as long as possible. -/
def run (p : Char → Bool) : Matcher := fun _ cs =>
  let n := (cs.takeWhile p).length
  if n = 0 then none else some n

def lineComment : Matcher
  | _, '/' :: '/' :: rest => some (2 + (rest.takeWhile (· != '\n')).length)
  | _, _ => none

/-- Length up to and with the end mark of a block comment. -/
def commentEnd : List Char → Option Nat
  | [] => none
  | '*' :: '/' :: _ => some 2
  | _ :: rest => (commentEnd rest).map (· + 1)

def blockComment : Matcher
  | _, '/' :: '*' :: rest => (commentEnd rest).map (· + 2)
  | _, _ => none

/-- One given text. -/
def exactly (text : List Char) : Matcher := fun _ cs =>
  if text.isPrefixOf cs then some text.length else none

/-- One character of a class. -/
def one (p : Char → Bool) : Matcher
  | _, c :: _ => if p c then some 1 else none
  | _, [] => none

/-- One character of a class and an equals sign. -/
def withEquals (p : Char → Bool) : Matcher
  | _, c :: '=' :: _ => if p c then some 2 else none
  | _, _ => none

/-- `<` or `>`, with an equals sign if one follows. -/
def comparison : Matcher
  | _, c :: rest =>
    if c = '<' || c = '>' then some (if rest.head? = some '=' then 2 else 1) else none
  | _, [] => none

/-- Digits, with a fraction if a point and digits follow. -/
def number : Matcher := fun _ cs =>
  let whole := (cs.takeWhile isDigit).length
  if whole = 0 then none
  else
    match cs.drop whole with
    | '.' :: rest =>
      let fraction := (rest.takeWhile isDigit).length
      some (if fraction = 0 then whole else whole + 1 + fraction)
    | _ => some whole

def identifier : Matcher
  | _, c :: rest => if isNameStart c then some (1 + (rest.takeWhile isWord).length) else none
  | _, [] => none

/-- Text between two quotation marks on one line. -/
def quotedBy (quote : Char) : Matcher
  | _, c :: rest =>
    if c = quote then
      let n := (rest.takeWhile fun d => d != quote && d != '\n').length
      if (rest.drop n).head? = some quote then some (n + 2) else none
    else none
  | _, [] => none

/-- Whether a spelling stands at a place with word boundaries at both its ends. -/
def standsAt (before : Option Char) (cs : List Char) (spelling : List Char) : Bool :=
  spelling.isPrefixOf cs && isBoundary before cs.head? &&
    isBoundary (spelling.getLast?.or before) (cs.drop spelling.length).head?

/-- The first of several spellings that stands at a place. -/
def wordOf (spellings : List (List Char)) : Matcher := fun before cs =>
  (spellings.find? (standsAt before cs)).map List.length

/-- The rule of a keyword with the given spellings, the longest of which come first. -/
def keywordRule (k : Keyword) (spellings : List (List Char)) : Rule :=
  ⟨some (.keyword k), wordOf spellings⟩

def keywordRuleOf (table : KeywordTable) (k : Keyword) : Rule :=
  keywordRule k ((Keyword.longestFirst (table.spellings k)).map String.toList)

def droppedRules : List Rule :=
  [⟨none, run isBlank⟩, ⟨none, lineComment⟩, ⟨none, blockComment⟩]

def punctuationRules : List Rule :=
  [⟨some .semi, one (· = ';')⟩, ⟨some .curlyEnd, one (· = '}')⟩, ⟨some .curlyStart, one (· = '{')⟩,
   ⟨some .parenStart, one (· = '(')⟩, ⟨some .parenEnd, one (· = ')')⟩, ⟨some .comma, one (· = ',')⟩]

def otherRules : List Rule :=
  [⟨some .number, number⟩, ⟨some .identifier, identifier⟩,
   ⟨some .equality, withEquals fun c => c = '=' || c = '!'⟩,
   ⟨some .simpleAssignment, one (· = '=')⟩,
   ⟨some .complexAssignment, withEquals fun c => c = '*' || c = '/' || c = '+' || c = '-'⟩,
   ⟨some .additive, one fun c => c = '+' || c = '-'⟩,
   ⟨some .multiplicative, one fun c => c = '*' || c = '/'⟩,
   ⟨some .relational, comparison⟩,
   ⟨some .logicalAnd, exactly ['&', '&']⟩, ⟨some .logicalOr, exactly ['|', '|']⟩,
   ⟨some .logicalNot, one (· = '!')⟩,
   ⟨some .string, quotedBy '"'⟩, ⟨some .string, quotedBy '\''⟩]

/-- The rules of the language for a table of keywords. -/
def rules (table : KeywordTable) : List Rule :=
  droppedRules ++ punctuationRules ++ Keyword.all.map (keywordRuleOf table) ++ otherRules

/-- A place in the source text. -/
structure Cursor where
  before : Option Char
  offset : Nat
  rest : List Char
deriving DecidableEq, Repr, Inhabited

namespace Cursor

def ofSource (source : String) : Cursor :=
  ⟨none, 0, source.toList⟩

def advance (c : Cursor) (n : Nat) : Cursor :=
  ⟨(c.rest.take n).getLast?.or c.before, c.offset + n, c.rest.drop n⟩

end Cursor

/-- The first rule that matches at a place, with the length of its match. -/
def firstMatch (rules : List Rule) (c : Cursor) : Option (Option TokenType × Nat) :=
  rules.findSome? fun r => (r.matcher c.before c.rest).map (r.type, ·)

/-- The outcome of looking for a token: a token and the place after it, the end of the text, or the
place where no rule matches. -/
inductive Step where
  | token (t : Token) (next : Cursor)
  | finished (next : Cursor)
  | failed (e : LexError) (next : Cursor)
deriving DecidableEq, Repr

/-- Drops blanks and comments until a token, the end or a failure; a bound on the steps is given. -/
def nextWithin (rules : List Rule) : Nat → Cursor → Step
  | 0, c => .finished c
  | bound + 1, c =>
    match c.rest with
    | [] => .finished c
    | ch :: _ =>
      match firstMatch rules c with
      | none => .failed (LexError.atChar c.offset ch) c
      | some (none, n) => nextWithin rules bound (c.advance n)
      | some (some type, n) =>
        .token ⟨type, String.ofList (c.rest.take n), ⟨c.offset, c.offset + n⟩⟩ (c.advance n)

/-- The next token; as what is dropped has a character, the length of the text bounds the steps. -/
def next (rules : List Rule) (c : Cursor) : Step :=
  nextWithin rules (c.rest.length + 1) c

/-- The tokens from a place on, up to where they get no further: there, one token comes again and
again or cutting fails. The token is that of the end of the input, or a keyword without text. -/
structure Tokens where
  tokens : List Token
  ending : Except LexError Token
  stop : Cursor

/-- The tokens from a place on, where the bound exceeds the length of the text that is left. It also
bounds the steps to each token, so that this length is not taken again for every one. -/
def collect (rules : List Rule) : Nat → Cursor → Tokens
  | 0, c => ⟨[], .ok (Token.endOfInput c.offset), c⟩
  | bound + 1, c =>
    match nextWithin rules (bound + 1) c with
    | .finished c' => ⟨[], .ok (Token.endOfInput c'.offset), c'⟩
    | .failed e c' => ⟨[], .error e, c'⟩
    | .token t c' =>
      if t.text.isEmpty then ⟨[], .ok t, c'⟩
      else
        let rest := collect rules bound c'
        { rest with tokens := t :: rest.tokens }

def tokensFrom (rules : List Rule) (c : Cursor) : Tokens :=
  collect rules (c.rest.length + 1) c

/-- All tokens of a source text. -/
def scan (rules : List Rule) (source : String) : Tokens :=
  tokensFrom rules (Cursor.ofSource source)

end Scriptlet.Lexer
