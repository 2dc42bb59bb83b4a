import Scriptlet.Number.Decimal

/-!
Scientific text of huge whole numbers. The decimal exponent is estimated from the binary length and
then corrected, so that the estimate does not matter.
-/

namespace Scriptlet.Scientific

/-- Steps down while `10 ^ e` is above `n`. -/
def lower (n : Nat) : Nat → Nat
  | 0 => 0
  | e + 1 => if n < Nat.pow 10 (e + 1) then lower n e else e + 1

/-- Steps up while `10 ^ (e + 1)` is not above `n`. -/
def raise (n e : Nat) : Nat :=
  if Nat.pow 10 (e + 1) ≤ n then raise n (e + 1) else e
termination_by n - Nat.pow 10 e
decreasing_by
  have : Nat.pow 10 e < Nat.pow 10 (e + 1) := Nat.pow_lt_pow_right (by decide) (by omega)
  omega

/-- The decimal exponent of `n`, found from any estimate. -/
def exponentFrom (estimate n : Nat) : Nat :=
  raise n (lower n estimate)

/-- About `n.log2` times the decimal logarithm of two. -/
def estimate (n : Nat) : Nat :=
  n.log2 * 30103 / 100000

def dropZeros (digits : List Char) : List Char :=
  (digits.reverse.dropWhile (· = '0')).reverse

/-- The sign of a whole number, its seventeen leading digits without zeros at the end, and its decimal
exponent, found from an estimate. -/
def textFrom (estimate : Nat) (v : Int) : String :=
  let n := v.natAbs
  let e := exponentFrom estimate n
  let digits := Nat.toDigits 10 (n / Nat.pow 10 (e - 16))
  let fraction := dropZeros (digits.drop 1)
  (if v < 0 then "-" else "") ++ String.ofList (digits.take 1) ++
    (if fraction.isEmpty then "" else "." ++ String.ofList fraction) ++ "e+" ++ Decimal.digitsOf e

def text (v : Int) : String :=
  textFrom (estimate v.natAbs) v

end Scriptlet.Scientific
