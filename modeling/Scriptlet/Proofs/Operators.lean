import Mathlib.Data.List.Forall2
import Scriptlet.Machine.Eval

/-!
What operators and the standard library make of their operands. Operators give scalars, or they fail for
an ordinary reason. They cannot tell functions apart that have the same number and the same name, and
neither can functions of the standard library nor the checks before a call.
-/

namespace Scriptlet

/-! ## Errors -/

/-- The cause of an error that is raised neither by the check of the depth of calls nor at the end of a
program. -/
def Cause.Ordinary : Cause → Prop
  | .callDepth _ | .returnOutside => False
  | _ => True

def Interrupt.Ordinary : Interrupt → Prop
  | .error e => e.cause.Ordinary
  | .fault _ | .noRoom | .noFuel => True

@[simp]
theorem RuntimeError.atNode_cause (e : RuntimeError) (t : Tree) : (e.atNode t).cause = e.cause := by
  unfold RuntimeError.atNode
  split <;> rfl

theorem Interrupt.Ordinary.atNode {e : RuntimeError} (h : (Interrupt.error e).Ordinary) (t : Tree) :
    (Interrupt.error (e.atNode t)).Ordinary := by
  simpa [Interrupt.Ordinary] using h

/-- A scalar, or an error for an ordinary reason. -/
def BinaryOp.Plain : Except Cause Value → Prop
  | .ok v => ∃ s, v = .scalar s
  | .error cause => cause.Ordinary

namespace BinaryOp

theorem fits_plain (op : BinaryOp) (n : Option Number) : BinaryOp.Plain (op.fits n) := by
  cases n with
  | none => trivial
  | some n => exact ⟨_, rfl⟩

theorem onNumbers_plain (op : BinaryOp) (a b : Number) : BinaryOp.Plain (op.onNumbers a b) := by
  cases op with
  | add | sub | mul => exact fits_plain _ _
  | div =>
    rw [onNumbers]
    split
    · trivial
    · exact fits_plain _ _
  | less | greater | lessEqual | greaterEqual | equal | notEqual => exact ⟨_, rfl⟩

theorem apply_plain (op : BinaryOp) (a b : Value) : BinaryOp.Plain (op.apply a b) := by
  unfold apply
  split
  · exact ⟨_, rfl⟩
  · exact ⟨_, rfl⟩
  · split
    · exact onNumbers_plain ..
    · exact ⟨_, rfl⟩
    · trivial
  · split
    · exact onNumbers_plain ..
    · trivial

/-- The operator of a node is known by its symbol. -/
theorem ofTree?_symbol (op : BinaryOp) : BinaryOp.ofTree? (.text op.symbol) = some op := by
  cases op <;> rfl

end BinaryOp

/-! ## Twins -/

/-- Values that programs cannot tell apart: the same value, or functions with the same number and the same
name. -/
inductive Value.Twin : Value → Value → Prop
  | same (v : Value) : Twin v v
  | closure {f f' : Closure} (hid : f.id = f'.id) (hname : f.name = f'.name) :
      Twin (.closure f) (.closure f')

namespace Value.Twin

variable {v v' u u' : Value}

theorem isTruthy (h : v.Twin v') : v.isTruthy = v'.isTruthy := by
  cases h <;> rfl

theorem typeName (h : v.Twin v') : v.typeName = v'.typeName := by
  cases h <;> rfl

theorem shown (h : v.Twin v') : v.shown = v'.shown := by
  cases h with
  | same => rfl
  | closure _ hname => simp only [Value.shown, Closure.text, hname]

theorem equal (h : v.Twin v') (hu : u.Twin u') : v.equal u = v'.equal u' := by
  cases h with
  | same =>
    cases hu with
    | same => rfl
    | closure hid => cases v <;> simp [Value.equal, hid]
  | closure hid =>
    cases hu with
    | same => cases u <;> simp [Value.equal, hid]
    | closure hid' => simp [Value.equal, hid, hid']

/-- Operators tell functions by their numbers at most. -/
theorem apply (h : v.Twin v') (hu : u.Twin u') (op : BinaryOp) : op.apply v u = op.apply v' u' := by
  have hequal := h.equal hu
  cases op with
  | equal | notEqual => simp only [BinaryOp.apply, hequal]
  | add | sub | mul | div | less | greater | lessEqual | greaterEqual =>
    cases h <;> cases hu <;> simp [BinaryOp.apply, Value.typeName]

end Value.Twin

variable {args args' : List Value}

theorem Value.Twin.map_shown (h : List.Forall₂ Value.Twin args args') :
    args.map Value.shown = args'.map Value.shown := by
  induction h with
  | nil => rfl
  | cons hv _ ih => rw [List.map_cons, List.map_cons, hv.shown, ih]

namespace Native

theorem numbers_congr (f : Native) (h : List.Forall₂ Value.Twin args args') :
    f.numbers args = f.numbers args' := by
  induction h with
  | nil => rfl
  | @cons v v' _ _ hv _ ih =>
    cases hv with
    | closure => rfl
    | same =>
      unfold numbers
      split <;> simp_all

/-- Functions of the standard library do not tell twins apart. -/
theorem call_congr (cfg : Config) (f : Native) (h : List.Forall₂ Value.Twin args args') :
    f.call cfg args = f.call cfg args' := by
  have hnumbers := fun f => numbers_congr f h
  cases f with
  | print => rw [call, call, Value.Twin.map_shown h]
  | input | str | len =>
    cases h with
    | nil => rfl
    | cons hv =>
      cases hv with
      | same => rfl
      | closure _ hname => simp [call, ofFirst, Value.shown, Closure.text, hname, Value.typeName]
  | abs | sqrt | floor => simp only [call, ofOne, hnumbers]
  | pow => simp only [call, hnumbers]
  | min | max =>
    have hempty : args.isEmpty = args'.isEmpty := by cases h <;> rfl
    simp only [call, ofMany, hnumbers, hempty]
  | clock => rfl

end Native

end Scriptlet
