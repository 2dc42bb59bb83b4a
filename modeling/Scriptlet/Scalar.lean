import Scriptlet.Number
import Scriptlet.Text.Quoted

/-!
Scalars: the values that can stand as literals in a tree.
-/

namespace Scriptlet

inductive Scalar where
  | null
  | bool (b : Bool)
  | number (n : Number)
  | text (s : String)
deriving Inhabited

namespace Scalar

/-- The name of a scalar's kind in messages about malformed trees. -/
def kindName : Scalar → String
  | .null => "NoneType"
  | .bool _ => "bool"
  | .number (.int _) => "int"
  | .number (.float _) => "float"
  | .text _ => "str"

/-- A truth value counts as a number here: `true` as one and `false` as zero. -/
def asNumber? : Scalar → Option Number
  | .bool b => some (.int (if b then 1 else 0))
  | .number n => some n
  | .null | .text _ => none

/-- Equality of scalars in trees, by value. -/
def same (a b : Scalar) : Bool :=
  match a, b with
  | .null, .null => true
  | .text s, .text t => s = t
  | a, b =>
    match a.asNumber?, b.asNumber? with
    | some m, some n => m.equal n
    | _, _ => false

/-- Whether a scalar counts as something: not null, false, zero or empty. -/
def isPresent : Scalar → Bool
  | .null => false
  | .bool b => b
  | .number n => !n.isZero
  | .text s => s != ""

/-- A scalar as it is shown inside other things: text in quotes, floats with a point. -/
def quoted : Scalar → String
  | .null => "None"
  | .bool b => if b then "True" else "False"
  | .number n => n.literalText
  | .text s => Text.quoted s

/-- A scalar as it is shown on its own. -/
def display : Scalar → String
  | .text s => s
  | s => s.quoted

end Scalar

end Scriptlet
