import Scriptlet.Tree

/-!
Scopes: places where names are bound. Each scope but the outermost lies within a parent, and a name
means what the innermost scope that binds it says. Bindings keep the order in which their names
were first bound.
-/

namespace Scriptlet

/-- What can be bound. Programs bind words; a malformed tree can bind other parts of a tree. -/
inductive Name where
  | word (text : String)
  | datum (t : Tree)
deriving Inhabited

namespace Name

/-- Whether two names are one. -/
def same : Name → Name → Bool
  | .word a, .word b => a = b
  | .datum a, .datum b => a.same b
  | _, _ => false

instance : BEq Name := ⟨same⟩

mutual

/-- Whether a tree can serve as a name: it holds no list. -/
def isKey : Tree → Bool
  | .scalar _ => true
  | .list _ => false
  | .node _ _ _ fields => areKeys fields
  | .nan _ => true
  | .foreign _ => false

def areKeys : List Tree → Bool
  | [] => true
  | t :: rest => isKey t && areKeys rest

end

/-- The name that a tree stands for, if it can be one. -/
def ofTree? : Tree → Option Name
  | .text s => some (.word s)
  | t => if isKey t then some (.datum t) else none

end Name

structure Scope (α : Type) where
  parent : Option Nat
  bindings : List (Name × α)
deriving Inhabited

namespace Scope

variable {α : Type}

def binds (scope : Scope α) (name : Name) : Bool :=
  scope.bindings.any (·.1 == name)

def get? (scope : Scope α) (name : Name) : Option α :=
  scope.bindings.lookup name

/-- Binds a name: in place if it is bound, which keeps the name as it was, else after all others. -/
def setBinding (name : Name) (value : α) : List (Name × α) → List (Name × α)
  | [] => [(name, value)]
  | (other, old) :: rest =>
    if other == name then (other, value) :: rest else (other, old) :: setBinding name value rest

def set (scope : Scope α) (name : Name) (value : α) : Scope α :=
  { scope with bindings := setBinding name value scope.bindings }

end Scope

/-- All scopes, numbered in the order in which they were opened; a parent is older than its
children. -/
structure Scopes (α : Type) where
  all : Array (Scope α)

namespace Scopes

variable {α : Type}

/-- One scope without a parent, number zero. -/
def root : Scopes α :=
  ⟨#[⟨none, []⟩]⟩

/-- Opens a scope and gives its number. -/
def push (scopes : Scopes α) (parent : Option Nat) : Nat × Scopes α :=
  (scopes.all.size, ⟨scopes.all.push ⟨parent, []⟩⟩)

/-- The innermost scope from `s` outwards that binds a name; the bound is on the steps. -/
def findWithin (scopes : Scopes α) (name : Name) : Nat → Nat → Option Nat
  | 0, _ => none
  | bound + 1, s =>
    match scopes.all[s]? with
    | none => none
    | some scope =>
      if scope.binds name then some s
      else
        match scope.parent with
        | none => none
        | some parent => findWithin scopes name bound parent

def find? (scopes : Scopes α) (s : Nat) (name : Name) : Option Nat :=
  scopes.findWithin name scopes.all.size s

/-- The value of a name as seen from a scope. -/
def get? (scopes : Scopes α) (s : Nat) (name : Name) : Option α := do
  let found ← scopes.find? s name
  let scope ← scopes.all[found]?
  scope.get? name

/-- Binds a name in a scope itself. -/
def define (scopes : Scopes α) (s : Nat) (name : Name) (value : α) : Scopes α :=
  ⟨scopes.all.modify s (·.set name value)⟩

/-- Changes the binding that a scope sees; `none` if there is none. -/
def assign? (scopes : Scopes α) (s : Nat) (name : Name) (value : α) : Option (Scopes α) :=
  match scopes.find? s name with
  | none => none
  | some found => some (scopes.define found name value)

/-- The bindings of a scope, in order. -/
def bindings (scopes : Scopes α) (s : Nat) : List (Name × α) :=
  match scopes.all[s]? with
  | none => []
  | some scope => scope.bindings

end Scopes

end Scriptlet
