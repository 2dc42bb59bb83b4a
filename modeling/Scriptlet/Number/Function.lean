import Scriptlet.Number

/-!
Functions of numbers: roots, powers, rounding down, extremes.
-/

namespace Scriptlet.Number

open Binary

/-- Why a function has no value at a point. -/
inductive Gap where
  | tooLarge
  | undefined
deriving DecidableEq, Repr

def asFloat (n : Number) : Except Gap Float :=
  match n.toFloat? with
  | some x => .ok x
  | none => .error .tooLarge

def sqrt (n : Number) : Except Gap Number := do
  let x ← asFloat n
  return normalize (.float x.sqrt)

/-- Whether a float is an odd whole number. -/
def isOdd (x : Float) : Bool :=
  match toInt? x with
  | some n => n % 2 = 1
  | none => false

/-- Powers with an infinite or undefined operand. An undefined number to the power of zero is one,
and so is one to any power. -/
def specialPower (x y : Float) : Float :=
  if x.isNaN then (if y == 0.0 then 1.0 else x)
  else if y.isNaN then (if x == 1.0 then 1.0 else y)
  else if x.isInf then
    if 0.0 < y then (if isOdd y then x else x.abs)
    else if y == 0.0 then 1.0
    else if isOdd y && x < 0.0 then -0.0 else 0.0
  else if x.abs == 1.0 then 1.0
  else if 0.0 < y && 1.0 < x.abs then y
  else if y < 0.0 && x.abs < 1.0 then -y
  else 0.0

/-- Powers of floats. A negative base has no power that is not whole, zero none that is negative. -/
def power (x y : Float) : Except Gap Float :=
  if x.isFinite && y.isFinite then
    let r := x.pow y
    if r.isNaN then .error .undefined
    else if r.isInf then .error (if x == 0.0 then .undefined else .tooLarge)
    else .ok r
  else .ok (specialPower x y)

def pow (base exponent : Number) : Except Gap Number := do
  let x ← asFloat base
  let y ← asFloat exponent
  return normalize (.float (← power x y))

def floor : Number → Except Gap Number
  | .int n => .ok (.int n)
  | .float x =>
    match floor? x with
    | some n => .ok (.int n)
    | none => .error (if x.isNaN then .undefined else .tooLarge)

/-- The first of the least numbers. -/
def least (first : Number) (rest : List Number) : Number :=
  rest.foldl (fun best n => if n.less best then n else best) first

/-- The first of the greatest numbers. -/
def greatest (first : Number) (rest : List Number) : Number :=
  rest.foldl (fun best n => if best.less n then n else best) first

end Scriptlet.Number
