import Scriptlet.Machine
import Scriptlet.Number.Function

/-!
The standard library. Functions check their arguments themselves; the number of arguments is checked
by the caller.
-/

namespace Scriptlet.Native

open Eval

/-- The numbers among the arguments, which must all be numbers. -/
def numbers (f : Native) : List Value → Except Cause (List Number)
  | [] => .ok []
  | .number n :: rest => do return n :: (← numbers f rest)
  | v :: _ => .error (.argumentNotNumber f.name v.typeName)

/-- The error of a function without a value at its arguments. -/
def gapCause (f : Native) : Number.Gap → Cause
  | .tooLarge => .resultTooLarge f.name
  | .undefined => .undefinedResult f.name

def orRaise {α : Type} : Except Cause α → Eval α
  | .ok a => pure a
  | .error cause => raise cause

/-- A function of one number. -/
def ofOne (f : Native) (args : List Value) (op : Number → Except Cause Number) : Eval Value := do
  match ← orRaise (numbers f args) with
  | [n] => return .number (← orRaise (op n))
  | _ => fault .wrongNumber

/-- A function of one or more numbers. -/
def ofMany (f : Native) (args : List Value) (op : Number → List Number → Number) : Eval Value := do
  if args.isEmpty then raise (.noArguments f.name)
  else
    match ← orRaise (numbers f args) with
    | first :: rest => return .number (op first rest)
    | [] => fault .wrongNumber

/-- A function of its first argument. -/
def ofFirst (args : List Value) (op : Value → Eval Value) : Eval Value :=
  match args with
  | v :: _ => op v
  | [] => fault .nothingFirst

/-- Calls a function of the standard library. -/
def call (cfg : Config) (f : Native) (args : List Value) : Eval Value :=
  match f with
  | .print => do
    write (" ".intercalate (args.map Value.shown) ++ "\n")
    return .null
  | .input => ofFirst args fun
    | .text prompt => do
      if cfg.showPrompts then write prompt
      return .text (← readLine)
    | v => raise (.promptNotText v.typeName)
  | .str => ofFirst args fun v => return .text v.shown
  | .len => ofFirst args fun
    | .text s => return .number (.int s.length)
    | v => raise (.argumentNotText f.name v.typeName)
  | .abs => ofOne f args fun n => .ok n.abs
  | .sqrt => ofOne f args fun n =>
    if n.less (.int 0) then .error .negativeRoot else n.sqrt.mapError (gapCause f)
  | .pow => do
    match ← orRaise (numbers f args) with
    | [base, exponent] => return .number (← orRaise ((base.pow exponent).mapError (gapCause f)))
    | _ => fault .wrongNumber
  | .floor => ofOne f args fun n => n.floor.mapError (gapCause f)
  | .min => ofMany f args Number.least
  | .max => ofMany f args Number.greatest
  | .clock => return .number (.float (← readClock cfg))

end Scriptlet.Native
