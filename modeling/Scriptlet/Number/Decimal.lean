import Scriptlet.Number.Binary

/-!
Decimal text of floats. `shortest` finds the fewest digits that read back as the same float, the
nearest of these if there are several; `Shortest` text is positional for decimal exponents from -4
to 15 and scientific beyond. `fixed` writes a given number of places of the exact value.
-/

namespace Scriptlet.Decimal

open Binary

def digitsOf (n : Nat) : String :=
  String.ofList (Nat.toDigits 10 n)

/-- `digits · 10 ^ e` as a fraction of whole numbers. -/
def asFraction (digits : Nat) (e : Int) : Nat × Nat :=
  if 0 ≤ e then (digits * Nat.pow 10 e.toNat, 1) else (digits, Nat.pow 10 (-e).toNat)

/-- Exponents beyond which every decimal is infinite or zero. -/
def exponentBound : Int := 400

/-- The float nearest to a decimal, infinite if it is too large. -/
def toFloat (negative : Bool) (digits : Nat) (e : Int) : Float :=
  if digits = 0 then ofBits negative 0
  else
    let size : Int := (Nat.toDigits 10 digits).length + e
    if exponentBound < size then infinity negative
    else if size < -exponentBound then ofBits negative 0
    else
      let (num, den) := asFraction digits e
      (ofRatio? negative num den).getD (infinity negative)

/-- The exponent of the power of ten just below or at `num / den`. -/
def floorLog10 (num den : Nat) : Int :=
  if den ≤ num then ((Nat.toDigits 10 (num / den)).length : Int) - 1
  else
    let places := (Nat.toDigits 10 (den / num)).length
    if den ≤ num * Nat.pow 10 (places - 1) then 1 - (places : Int) else -(places : Int)

/-- Whether a decimal reads back as the float with the given bits. -/
def readsBack (bits digits : Nat) (e : Int) : Bool :=
  let (num, den) := asFraction digits e
  roundBits num den = bits

/-- The decimal with a given last place that is nearest to `num / den` among the two neighbours that
read back; a tie goes to the even one. -/
def nearest? (bits num den : Nat) (e : Int) : Option Nat :=
  let (n, d) :=
    if 0 ≤ e then (num, den * Nat.pow 10 e.toNat) else (num * Nat.pow 10 (-e).toNat, den)
  let low := n / d
  let best := roundDiv n d
  let other := if best = low then low + 1 else low
  if readsBack bits best e then some best
  else if readsBack bits other e then some other
  else none

/-- Tries ever more digits; seventeen are always enough. -/
def search (bits num den : Nat) (top : Int) : Nat → Nat × Int
  | 0 => (0, 0)
  | left + 1 =>
    let e := top - 16 + left
    match nearest? bits num den e with
    | some digits => (digits, e)
    | none => search bits num den top left

/-- Drops zeros at the end, moving the exponent up. -/
def trim : Nat → Nat → Int → Nat × Int
  | 0, digits, e => (digits, e)
  | left + 1, digits, e =>
    if digits % 10 = 0 && digits != 0 then trim left (digits / 10) (e + 1) else (digits, e)

/-- The fewest digits, with their exponent, that read back as `m · 2 ^ q`. -/
def shortest (mantissa : Nat) (exponent : Int) : Nat × Int :=
  if mantissa = 0 then (0, 0)
  else
    let (num, den) := fraction mantissa exponent
    let (digits, e) := search (roundBits num den) num den (floorLog10 num den) 17
    trim 20 digits e

/-- Exponents are written with a sign and at least two digits. -/
def exponentText (e : Int) : String :=
  let digits := digitsOf e.natAbs
  (if e < 0 then "-" else "+") ++ (if digits.length < 2 then "0" else "") ++ digits

/-- Lays out `digits · 10 ^ e`, keeping `.0` on a whole number. -/
def layout (digits : Nat) (e : Int) : String :=
  let text := Nat.toDigits 10 digits
  let top : Int := if digits = 0 then 0 else (text.length : Int) - 1 + e
  if top < -4 || 16 ≤ top then
    let fraction := text.drop 1
    String.ofList (text.take 1) ++ (if fraction.isEmpty then "" else "." ++ String.ofList fraction)
      ++ "e" ++ exponentText top
  else if top < 0 then
    "0." ++ String.ofList (List.replicate (-top - 1).toNat '0' ++ text)
  else
    let whole := (text ++ List.replicate e.toNat '0').take (top.toNat + 1)
    let fraction := text.drop (top.toNat + 1)
    String.ofList whole ++ "." ++ (if fraction.isEmpty then "0" else String.ofList fraction)

/-- A float in the fewest digits that read back. -/
def text (x : Float) : String :=
  match decode x with
  | .nan => "nan"
  | .infinite negative => if negative then "-inf" else "inf"
  | .finite negative m q =>
    let (digits, e) := shortest m q
    (if negative then "-" else "") ++ layout digits e

/-- The exact value of a finite float, rounded to a number of places. -/
def fixed (places : Nat) (x : Float) : String :=
  match decode x with
  | .nan => "nan"
  | .infinite negative => if negative then "-inf" else "inf"
  | .finite negative m q =>
    let (num, den) := fraction m q
    let units := roundDiv (num * Nat.pow 10 places) den
    let fraction := Nat.toDigits 10 (units % Nat.pow 10 places)
    (if negative then "-" else "") ++ digitsOf (units / Nat.pow 10 places) ++ "." ++
      String.ofList (List.replicate (places - fraction.length) '0' ++ fraction)

end Scriptlet.Decimal
