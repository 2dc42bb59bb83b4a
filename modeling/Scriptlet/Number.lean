import Scriptlet.Number.Read
import Scriptlet.Number.Scientific

/-!
Numbers of the language: whole numbers of any size and floats. Comparison is by exact value, also
between the two kinds; arithmetic that mixes them is done in floats and fails if a whole number is
too large for one.
-/

namespace Scriptlet

inductive Number where
  | int (n : Int)
  | float (x : Float)
deriving Inhabited

namespace Number

open Binary

def exact : Number → Exact
  | .int n => .finite (n < 0) n.natAbs 0
  | .float x => decode x

def signed (negative : Bool) (mantissa : Nat) : Int :=
  if negative then -(mantissa : Int) else mantissa

/-- Order of two exact values; none with a value that is no number. -/
def compareExact : Exact → Exact → Option Ordering
  | .nan, _ => none
  | _, .nan => none
  | .infinite a, .infinite b => some (if a = b then .eq else if a then .lt else .gt)
  | .infinite a, .finite .. => some (if a then .lt else .gt)
  | .finite .., .infinite b => some (if b then .gt else .lt)
  | .finite a m p, .finite b n q =>
    let least := min p q
    some (compare (signed a m * Int.pow 2 (p - least).toNat) (signed b n * Int.pow 2 (q - least).toNat))

def compare? (a b : Number) : Option Ordering :=
  compareExact a.exact b.exact

/-- Equality of values: `1` and `1.0` are equal, and an undefined number differs from itself. -/
def equal (a b : Number) : Bool :=
  compare? a b = some .eq

def less (a b : Number) : Bool :=
  compare? a b = some .lt

def lessEqual (a b : Number) : Bool :=
  less a b || equal a b

def isZero (a : Number) : Bool :=
  equal a (.int 0)

/-- A number as a float; `none` for a whole number beyond the largest float. -/
def toFloat? : Number → Option Float
  | .int n => ofInt? n
  | .float x => some x

/-- Applies an operation on whole numbers or, if one operand is a float, on floats. -/
def arith (ints : Int → Int → Int) (floats : Float → Float → Float) : Number → Number → Option Number
  | .int a, .int b => some (.int (ints a b))
  | a, b => do
    let x ← a.toFloat?
    let y ← b.toFloat?
    return .float (floats x y)

def add : Number → Number → Option Number := arith (· + ·) (· + ·)

def sub : Number → Number → Option Number := arith (· - ·) (· - ·)

def mul : Number → Number → Option Number := arith (· * ·) (· * ·)

/-- Division by a number other than zero. A quotient of whole numbers that is whole stays exact; any
other is rounded once. -/
def div : Number → Number → Option Number
  | .int a, .int b =>
    if Int.emod a b = 0 then some (.int (Int.tdiv a b))
    else (ofRatio? (decide (a < 0) != decide (b < 0)) a.natAbs b.natAbs).map .float
  | a, b => do
    let x ← a.toFloat?
    let y ← b.toFloat?
    return .float (x / y)

def neg : Number → Number
  | .int n => .int (-n)
  | .float x => .float (-x)

def abs : Number → Number
  | .int n => .int n.natAbs
  | .float x => .float x.abs

/-- Reads a number: a float if it has a point, else a whole number. -/
def read (s : String) : Except Decimal.ReadError Number :=
  if '.' ∈ s.toList then (Decimal.readFloat s).map .float else (Decimal.readInt s).map .int

/-- Turns a float with a whole value into that whole number. -/
def normalize : Number → Number
  | .int n => .int n
  | .float x =>
    match toInt? x with
    | some n => .int n
    | none => .float x

/-- Whether a whole number has more digits than are written out. -/
def isHuge (n : Int) : Bool :=
  Nat.pow 10 Decimal.digitLimit ≤ n.natAbs

def intText (n : Int) : String :=
  (if n < 0 then "-" else "") ++ Decimal.digitsOf n.natAbs

/-- The text that programs see: whole values without a point, huge numbers in scientific form. -/
def text : Number → String
  | .int n =>
    if isHuge n then Scientific.text n else intText n
  | .float x =>
    match toInt? x with
    | some n => intText n
    | none => Decimal.text x

/-- The text that tells floats from whole numbers: a float has a point or an exponent. -/
def literalText : Number → String
  | .int n => intText n
  | .float x => Decimal.text x

end Number

end Scriptlet
