/-!
Binary floating point seen as exact numbers. `decode` gives a finite float as a whole number times a
power of two, and `ofRatio?` rounds a fraction to the nearest float, a tie going to the even
neighbour. Everything in between is arithmetic on whole numbers.
-/

namespace Scriptlet.Binary

/-- What a float stands for: `finite negative m q` is `m · 2 ^ q` with a sign. -/
inductive Exact where
  | nan
  | infinite (negative : Bool)
  | finite (negative : Bool) (mantissa : Nat) (exponent : Int)
deriving DecidableEq, Repr

/-- Exponent of the least positive float. -/
def leastExponent : Int := -1074

def decode (x : Float) : Exact :=
  let bits := x.toBits.toNat
  let negative := bits / Nat.pow 2 63 % 2 = 1
  let field : Nat := bits / Nat.pow 2 52 % Nat.pow 2 11
  let fraction := bits % Nat.pow 2 52
  if field = 2047 then
    if fraction = 0 then .infinite negative else .nan
  else if field = 0 then .finite negative fraction leastExponent
  else .finite negative (Nat.pow 2 52 + fraction) (leastExponent + (field : Int) - 1)

/-- The whole number nearest to `num / den`; a tie goes to the even neighbour. -/
def roundDiv (num den : Nat) : Nat :=
  let quotient := num / den
  let rest := num % den
  if 2 * rest < den then quotient
  else if den < 2 * rest then quotient + 1
  else if quotient % 2 = 0 then quotient
  else quotient + 1

/-- `num / den · 2 ^ e` as a fraction of whole numbers. -/
def scale (num den : Nat) (e : Int) : Nat × Nat :=
  if 0 ≤ e then (num * Nat.pow 2 e.toNat, den) else (num, den * Nat.pow 2 (-e).toNat)

/-- The exponent of the power of two just below or at `num / den`. -/
def floorLog2 (num den : Nat) : Int :=
  let guess : Int := (num.log2 : Int) - den.log2
  let (n, d) := scale num den (-guess)
  if d ≤ n then guess else guess - 1

/-- The bits, without the sign, of the float nearest to the positive fraction `num / den`. -/
def roundBits (num den : Nat) : Nat :=
  if num = 0 then 0
  else
    let q := max (floorLog2 num den - 52) leastExponent
    let (n, d) := scale num den (-q)
    (q - leastExponent).toNat * Nat.pow 2 52 + roundDiv n d

/-- Bits of positive infinity, the least pattern that is no finite float. -/
def infinityBits : Nat := 2047 * Nat.pow 2 52

def ofBits (negative : Bool) (bits : Nat) : Float :=
  Float.ofBits (UInt64.ofNat (bits + if negative then Nat.pow 2 63 else 0))

/-- The float nearest to a fraction; `none` if that is beyond the largest float. -/
def ofRatio? (negative : Bool) (num den : Nat) : Option Float :=
  let bits := roundBits num den
  if bits < infinityBits then some (ofBits negative bits) else none

/-- The float nearest to a whole number, if it is in range. -/
def ofInt? (n : Int) : Option Float :=
  ofRatio? (n < 0) n.natAbs 1

def infinity (negative : Bool) : Float :=
  ofBits negative infinityBits

def nan : Float :=
  ofBits false (infinityBits + Nat.pow 2 51)

/-- A finite float as a fraction of whole numbers, without its sign. -/
def fraction (mantissa : Nat) (exponent : Int) : Nat × Nat :=
  scale mantissa 1 exponent

/-- The whole number that a float is, if it is one. -/
def toInt? (x : Float) : Option Int :=
  match decode x with
  | .finite negative m q =>
    let (num, den) := fraction m q
    if num % den = 0 then
      some (if negative then -((num / den : Nat) : Int) else ((num / den : Nat) : Int))
    else none
  | _ => none

/-- The greatest whole number not above a finite float. -/
def floor? (x : Float) : Option Int :=
  match decode x with
  | .finite negative m q =>
    let (num, den) := fraction m q
    some (Int.fdiv (if negative then -(num : Int) else num) den)
  | _ => none

end Scriptlet.Binary
