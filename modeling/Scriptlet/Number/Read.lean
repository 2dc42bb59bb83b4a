import Scriptlet.Number.Decimal
import Scriptlet.Text.Blank
import Scriptlet.Text.Digit

/-!
Reading numbers from text. Blanks around a number are dropped, digits of all scripts count by their
value, and single underscores may stand between digits.
-/

namespace Scriptlet.Decimal

open Text

/-- The most digits that a whole number may be written with. -/
def digitLimit : Nat := 4300

/-- Why a text is not read as a number. -/
inductive ReadError where
  | notANumber
  | tooManyDigits
deriving DecidableEq, Repr

def trimBlanks (blank : Char → Bool) (cs : List Char) : List Char :=
  ((cs.dropWhile blank).reverse.dropWhile blank).reverse

/-- Blanks of a text of ASCII characters only. -/
def isAsciiBlank (c : Char) : Bool :=
  c = ' ' || (9 ≤ c.toNat && c.toNat ≤ 13)

/-- The text of a number without the blanks around it. -/
def body (s : String) : List Char :=
  let cs := s.toList
  trimBlanks (if cs.all (·.toNat < 128) then isAsciiBlank else isBlank) cs

/-- Takes out underscores, each of which must stand between two digits. -/
def dropUnderscores : Option Char → List Char → Option (List Char)
  | _, [] => some []
  | before, c :: rest =>
    if c = '_' then
      if before.any isDigit && rest.head?.any isDigit then dropUnderscores (some c) rest else none
    else (dropUnderscores (some c) rest).map (c :: ·)

/-- Splits off a sign; `true` is minus. -/
def splitSign : List Char → Bool × List Char
  | '-' :: rest => (true, rest)
  | '+' :: rest => (false, rest)
  | cs => (false, cs)

/-- The value of a run of digits. -/
def value (digits : List Char) : Nat :=
  digits.foldl (fun n c => 10 * n + (digitValue? c).getD 0) 0

def negateIf (negative : Bool) (n : Nat) : Int :=
  if negative then -(n : Int) else n

/-- Reads a whole number. -/
def readInt (s : String) : Except ReadError Int :=
  match dropUnderscores none (body s) with
  | none => .error .notANumber
  | some cs =>
    let (negative, digits) := splitSign cs
    if digits.isEmpty || !digits.all isDigit then .error .notANumber
    else if digitLimit < digits.length then .error .tooManyDigits
    else .ok (negateIf negative (value digits))

/-- The exponent part of a decimal: nothing, or the letter `e` with a whole number. -/
def readExponent : List Char → Option Int
  | [] => some 0
  | c :: rest =>
    if c = 'e' || c = 'E' then
      let (negative, digits) := splitSign rest
      if digits.isEmpty || !digits.all isDigit then none
      else some (negateIf negative (value digits))
    else none

/-- The fraction of a decimal, if a point opens one, and what follows it. -/
def splitFraction : List Char → List Char × List Char
  | '.' :: rest => (rest.takeWhile isDigit, rest.dropWhile isDigit)
  | rest => ([], rest)

/-- Reads a decimal without a sign, or the name of an infinite or undefined number. -/
def readMagnitude (negative : Bool) (cs : List Char) : Option Float :=
  let name := String.ofList (cs.map Char.toLower)
  if name = "inf" || name = "infinity" then some (Binary.infinity negative)
  else if name = "nan" then some Binary.nan
  else
    let whole := cs.takeWhile isDigit
    let (fraction, rest) := splitFraction (cs.dropWhile isDigit)
    if whole.isEmpty && fraction.isEmpty then none
    else (readExponent rest).map fun e =>
      toFloat negative (value (whole ++ fraction)) (e - fraction.length)

/-- Reads a decimal. -/
def readFloat (s : String) : Except ReadError Float :=
  match dropUnderscores none (body s) with
  | none => .error .notANumber
  | some cs =>
    let (negative, magnitude) := splitSign cs
    match readMagnitude negative magnitude with
    | some x => .ok x
    | none => .error .notANumber

end Scriptlet.Decimal
