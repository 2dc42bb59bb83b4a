import Scriptlet.RuntimeError

/-!
Operators on values.
-/

namespace Scriptlet

/-- The operator that a tree names. -/
def BinaryOp.ofTree? : Tree → Option BinaryOp
  | .text "+" => some .add
  | .text "-" => some .sub
  | .text "*" => some .mul
  | .text "/" => some .div
  | .text "<" => some .less
  | .text ">" => some .greater
  | .text "<=" => some .lessEqual
  | .text ">=" => some .greaterEqual
  | .text "==" => some .equal
  | .text "!=" => some .notEqual
  | _ => none

namespace BinaryOp

/-- A result that may be too large. -/
def fits (op : BinaryOp) : Option Number → Except Cause Value
  | some n => .ok (.number n)
  | none => .error (.tooLarge op.symbol)

/-- An operator on two numbers. -/
def onNumbers (op : BinaryOp) (a b : Number) : Except Cause Value :=
  match op with
  | .add => op.fits (a.add b)
  | .sub => op.fits (a.sub b)
  | .mul => op.fits (a.mul b)
  | .div => if b.isZero then .error .divisionByZero else op.fits (a.div b)
  | .less => .ok (.bool (a.less b))
  | .greater => .ok (.bool (b.less a))
  | .lessEqual => .ok (.bool (a.lessEqual b))
  | .greaterEqual => .ok (.bool (b.lessEqual a))
  | .equal => .ok (.bool (a.equal b))
  | .notEqual => .ok (.bool (!a.equal b))

/-- An operator on any two values. Equality takes all, addition joins texts, and all other
operators take numbers only. -/
def apply (op : BinaryOp) (a b : Value) : Except Cause Value :=
  match op with
  | .equal => .ok (.bool (a.equal b))
  | .notEqual => .ok (.bool (!a.equal b))
  | .add =>
    match a, b with
    | .number m, .number n => onNumbers .add m n
    | .text s, .text t => .ok (.text (s ++ t))
    | a, b => .error (.cannotAdd a.typeName b.typeName)
  | op =>
    match a, b with
    | .number m, .number n => onNumbers op m n
    | a, b => .error (.operandsNotNumbers op.symbol a.typeName b.typeName)

end BinaryOp

end Scriptlet
