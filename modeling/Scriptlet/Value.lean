import Scriptlet.Tree

/-!
Values of running programs: scalars, functions, and parts of trees that a malformed tree uses as
values.
-/

namespace Scriptlet

/-- Functions of the standard library. -/
inductive Native where
  | print | input | str | len | abs | sqrt | pow | floor | min | max | clock
deriving DecidableEq, Repr, Inhabited

namespace Native

def all : List Native :=
  [.print, .input, .str, .len, .abs, .sqrt, .pow, .floor, .min, .max, .clock]

def name : Native → String
  | .print => "print"
  | .input => "input"
  | .str => "str"
  | .len => "len"
  | .abs => "abs"
  | .sqrt => "sqrt"
  | .pow => "pow"
  | .floor => "floor"
  | .min => "min"
  | .max => "max"
  | .clock => "clock"

/-- The number of arguments; `none` if any number will do. -/
def arity? : Native → Option Nat
  | .print | .min | .max => none
  | .input | .str | .len | .abs | .sqrt | .floor => some 1
  | .pow => some 2
  | .clock => some 0

def ofName? (s : String) : Option Native :=
  all.find? (·.name = s)

def text (f : Native) : String :=
  "<native fn " ++ f.name ++ ">"

end Native

/-- A function of the program: its declaration and the scope that it was declared in. Every
execution of a declaration makes a function of its own, with its own number. -/
structure Closure where
  id : Nat
  name : Tree
  params : Tree
  body : Tree
  scope : Nat
deriving Inhabited

def Closure.text (f : Closure) : String :=
  "<fn " ++ f.name.display ++ ">"

inductive Value where
  | scalar (s : Scalar)
  | native (f : Native)
  | closure (f : Closure)
  /-- A list or a node of a tree. -/
  | data (t : Tree)
deriving Inhabited

namespace Value

@[match_pattern] abbrev null : Value := .scalar .null
@[match_pattern] abbrev bool (b : Bool) : Value := .scalar (.bool b)
@[match_pattern] abbrev number (n : Number) : Value := .scalar (.number n)
@[match_pattern] abbrev text (s : String) : Value := .scalar (.text s)

/-- The value of a literal. -/
def ofTree : Tree → Value
  | .scalar s => .scalar s
  | .nan _ => .number (.float Binary.nan)
  | t => .data t

def isNumber : Value → Bool
  | .number _ => true
  | _ => false

/-- Only null and false count as false. -/
def isTruthy : Value → Bool
  | .null => false
  | .bool b => b
  | _ => true

/-- Equality without conversion between types; numbers are equal if their values are. -/
def equal : Value → Value → Bool
  | .number a, .number b => a.equal b
  | .null, .null => true
  | .bool a, .bool b => a = b
  | .text a, .text b => a = b
  | .native f, .native g => f = g
  | .closure f, .closure g => f.id = g.id
  | .data a, .data b => a.same b
  | _, _ => false

/-- The name of a value's type. -/
def typeName : Value → String
  | .null => "null"
  | .bool _ => "boolean"
  | .number _ => "number"
  | .text _ => "string"
  | .native _ | .closure _ => "function"
  | .data t => t.kindName

/-- A value as programs show it. -/
def shown : Value → String
  | .null => "null"
  | .bool b => if b then "true" else "false"
  | .number n => n.text
  | .text s => s
  | .native f => f.text
  | .closure f => f.text
  | .data t => t.quoted

/-- A value as it is shown inside other things. -/
def quoted : Value → String
  | .scalar s => s.quoted
  | .native f => f.text
  | .closure f => f.text
  | .data t => t.quoted

/-- A value as it is shown on its own. -/
def display : Value → String
  | .text s => s
  | v => v.quoted

/-- Turns a float with a whole value into that whole number and leaves all else. -/
def normalize : Value → Value
  | .number n => .number n.normalize
  | v => v

end Value

end Scriptlet
