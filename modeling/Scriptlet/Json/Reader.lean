import Scriptlet.Json
import Scriptlet.Nesting

/-!
Reading data from text. A number with a point or an exponent is a float; `NaN`, `Infinity` and
`-Infinity` are numbers too; of members with one name the last counts. A text may escape half of a
surrogate pair without the other half. Such a text is no sequence of characters, so what holds it
is well formed but no datum here.
-/

namespace Scriptlet.Json

/-- Why a text holds no datum. -/
inductive ReadError where
  | malformed
  | tooManyDigits
  | tooDeep
  /-- A text has half of a surrogate pair on its own. -/
  | loneHalf
deriving DecidableEq, Repr

abbrev Reader (α : Type) := List Char → Except ReadError (α × List Char)

def isSpace (c : Char) : Bool :=
  c = ' ' || c = '\t' || c = '\n' || c = '\r'

def skipSpaces (cs : List Char) : List Char :=
  cs.dropWhile isSpace

def hexValue? (c : Char) : Option Nat :=
  if '0' ≤ c && c ≤ '9' then some (c.toNat - 48)
  else if 'a' ≤ c && c ≤ 'f' then some (c.toNat - 87)
  else if 'A' ≤ c && c ≤ 'F' then some (c.toNat - 55)
  else none

/-- Four hexadecimal digits. -/
def hexUnit : List Char → Option (Nat × List Char)
  | a :: b :: c :: d :: rest => do
    let a ← hexValue? a
    let b ← hexValue? b
    let c ← hexValue? c
    let d ← hexValue? d
    return (((a * 16 + b) * 16 + c) * 16 + d, rest)
  | _ => none

/-- The code point of an escape: two halves of a pair make one. -/
def unicodeEscape (cs : List Char) : Option (Nat × List Char) := do
  let (high, rest) ← hexUnit cs
  if 0xD800 ≤ high && high < 0xDC00 then
    match rest with
    | '\\' :: 'u' :: more =>
      let (low, after) ← hexUnit more
      if 0xDC00 ≤ low && low < 0xE000 then
        return (0x10000 + (high - 0xD800) * 0x400 + (low - 0xDC00), after)
      else return (high, rest)
    | _ => return (high, rest)
  else return (high, rest)

def simpleEscape? (c : Char) : Option Char :=
  match c with
  | '"' => some '"'
  | '\\' => some '\\'
  | '/' => some '/'
  | 'b' => some '\x08'
  | 'f' => some '\x0c'
  | 'n' => some '\n'
  | 'r' => some '\r'
  | 't' => some '\t'
  | _ => none

/-- Whether a code point is half of a surrogate pair, and so no character. -/
def isHalf (code : Nat) : Bool :=
  0xD800 ≤ code && code < 0xE000

section
variable (half : Except ReadError Char)

/-- The character of an escape, where `half` says what half of a pair is taken for. -/
def escaped (code : Nat) : Except ReadError Char :=
  if isHalf code then half else .ok (Char.ofNat code)

/-- The rest of a text after its opening quotation mark. -/
def textBody : Nat → Reader (List Char)
  | 0, _ => .error .malformed
  | _, [] => .error .malformed
  | _ + 1, '"' :: rest => .ok ([], rest)
  | bound + 1, '\\' :: 'u' :: rest =>
    match unicodeEscape rest with
    | none => .error .malformed
    | some (code, after) => do
      let c ← escaped half code
      let (cs, remaining) ← textBody bound after
      return (c :: cs, remaining)
  | bound + 1, '\\' :: c :: rest =>
    match simpleEscape? c with
    | none => .error .malformed
    | some d => do
      let (cs, remaining) ← textBody bound rest
      return (d :: cs, remaining)
  | bound + 1, c :: rest =>
    if c.toNat < 0x20 || c = '\\' then .error .malformed
    else do
      let (cs, remaining) ← textBody bound rest
      return (c :: cs, remaining)

/-- A text in quotation marks. -/
def readText (n : Nat) : Reader String
  | '"' :: rest => do
    let (cs, remaining) ← textBody half n rest
    return (String.ofList cs, remaining)
  | _ => .error .malformed

/-- A name, a colon and a datum. -/
def readMember (n : Nat) (value : Reader Json) : Reader (String × Json) := fun cs => do
  let (name, afterName) ← readText half n cs
  match skipSpaces afterName with
  | ':' :: more => do
    let (v, remaining) ← value (skipSpaces more)
    return ((name, v), remaining)
  | _ => .error .malformed

end

def isAsciiDigit (c : Char) : Bool :=
  '0' ≤ c && c ≤ '9'

/-- The whole part of a number: a zero, or digits that start with another. -/
def wholePart : List Char → Option (List Char × List Char)
  | '0' :: rest => some (['0'], rest)
  | cs =>
    let digits := cs.takeWhile isAsciiDigit
    if digits.isEmpty then none else some (digits, cs.dropWhile isAsciiDigit)

/-- A point with digits, if it follows. -/
def fractionPart : List Char → List Char × List Char
  | '.' :: rest =>
    let digits := rest.takeWhile isAsciiDigit
    if digits.isEmpty then ([], '.' :: rest) else ('.' :: digits, rest.dropWhile isAsciiDigit)
  | cs => ([], cs)

/-- An exponent, if one follows. -/
def exponentPart : List Char → List Char × List Char
  | c :: rest =>
    if c = 'e' || c = 'E' then
      let (sign, more) : List Char × List Char :=
        match rest with
        | '-' :: more => (['-'], more)
        | '+' :: more => (['+'], more)
        | more => ([], more)
      let digits := more.takeWhile isAsciiDigit
      if digits.isEmpty then ([], c :: rest)
      else (c :: sign ++ digits, more.dropWhile isAsciiDigit)
    else ([], c :: rest)
  | [] => ([], [])

def numberOf (wholeText exactText : List Char) (isFloat : Bool) : Except ReadError Scalar :=
  if isFloat then
    match Decimal.readFloat (String.ofList exactText) with
    | .ok x => .ok (.number (.float x))
    | .error _ => .error .malformed
  else
    match Decimal.readInt (String.ofList wholeText) with
    | .ok n => .ok (.number (.int n))
    | .error .tooManyDigits => .error .tooManyDigits
    | .error .notANumber => .error .malformed

def readNumber (sign : List Char) (cs : List Char) : Except ReadError (Scalar × List Char) :=
  match wholePart cs with
  | none => .error .malformed
  | some (whole, afterWhole) => do
    let (fraction, afterFraction) := fractionPart afterWhole
    let (exponent, rest) := exponentPart afterFraction
    let number ← numberOf (sign ++ whole) (sign ++ whole ++ fraction ++ exponent)
      (!fraction.isEmpty || !exponent.isEmpty)
    return (number, rest)

/-- Words that stand for data. -/
def words : List (List Char × Json) :=
  [("null".toList, .scalar .null), ("true".toList, .scalar (.bool true)),
   ("false".toList, .scalar (.bool false)), ("NaN".toList, .nan),
   ("Infinity".toList, .scalar (.number (.float (Binary.infinity false)))),
   ("-Infinity".toList, .scalar (.number (.float (Binary.infinity true))))]

def readWord (cs : List Char) : Option (Json × List Char) :=
  words.findSome? fun (word, j) => if word.isPrefixOf cs then some (j, cs.drop word.length) else none

def readScalar (cs : List Char) : Except ReadError (Json × List Char) :=
  match readWord cs with
  | some result => .ok result
  | none => do
    let (number, rest) ←
      match cs with
      | '-' :: rest => readNumber ['-'] rest
      | _ => readNumber [] cs
    return (.scalar number, rest)

/-- Items with commas between them, up to a closing bracket; at least one. -/
def readRun {α : Type} (closing : Char) (item : Reader α) : Nat → Reader (List α)
  | 0, _ => .error .malformed
  | bound + 1, cs => do
    let (first, afterFirst) ← item cs
    match skipSpaces afterFirst with
    | c :: more =>
      if c = closing then return ([first], more)
      else if c = ',' then do
        let (items, remaining) ← readRun closing item bound (skipSpaces more)
        return (first :: items, remaining)
      else .error .malformed
    | [] => .error .malformed

section
variable (half : Except ReadError Char)

/-- One datum at the front of a text. `room` bounds the nesting and `n` the number of parts. -/
def readValue (n : Nat) : Nat → Reader Json
  | 0, _ => .error .tooDeep
  | room + 1, cs =>
    match cs with
    | '"' :: _ => do
      let (text, remaining) ← readText half n cs
      return (.scalar (.text text), remaining)
    | '[' :: rest =>
      match skipSpaces rest with
      | ']' :: remaining => .ok (.list [], remaining)
      | more => do
        let (items, remaining) ← readRun ']' (readValue n room) n more
        return (.list items, remaining)
    | '{' :: rest =>
      match skipSpaces rest with
      | '}' :: remaining => .ok (.object [], remaining)
      | more => do
        let (members, remaining) ← readRun '}' (readMember half n (readValue n room)) n more
        return (.object (dedup members), remaining)
    | _ => readScalar cs

/-- The datum that a text holds, with nothing but blanks around it. -/
def readWhole (s : String) : Except ReadError Json := do
  let cs := s.toList
  let (j, remaining) ← readValue half (cs.length + 1) nestingLimit (skipSpaces cs)
  if (skipSpaces remaining).isEmpty then return j else .error .malformed

end

/-- Reads a text as a datum. Its form is checked to the end before half of a pair is refused. -/
def read (s : String) : Except ReadError Json := do
  let _ ← readWhole (.ok '\ufffd') s
  readWhole (.error .loneHalf) s

end Scriptlet.Json
