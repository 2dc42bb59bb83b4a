/-!
Context-free grammars over numbered symbols, and sets of items as numbers. The items of a grammar
are its productions with a dot somewhere on the right side. They are numbered so that moving the dot
over a symbol adds one; a set of items is then the number with the bits of its members, and moving
all their dots is a shift.
-/

namespace Scriptlet.Lr

/-- A symbol and the symbols that it may be replaced by. -/
structure Production where
  left : Nat
  right : List Nat
deriving DecidableEq, Repr, Inhabited

/-- A grammar. Symbols below `terminals` are terminals, and the last of these ends the input.
Production zero replaces a symbol of its own by the start symbol, and no symbol but the start symbol
can be replaced by nothing. -/
structure Grammar where
  terminals : Nat
  symbols : Nat
  productions : List Production
deriving DecidableEq, Repr, Inhabited

/-- A set of numbers as the number with their bits. -/
abbrev Bits := Nat

def Bits.one (n : Nat) : Bits := 1 <<< n

def Bits.has (bits : Bits) (n : Nat) : Bool := bits.testBit n

/-- A production with its number and the number of the item that has the dot in front. -/
structure Numbered where
  index : Nat
  base : Nat
  production : Production
deriving DecidableEq, Repr, Inhabited

/-- The item with the dot behind everything. -/
def Numbered.complete (p : Numbered) : Nat :=
  p.base + p.production.right.length

namespace Grammar

def numberFrom : Nat → Nat → List Production → List Numbered
  | _, _, [] => []
  | index, base, p :: rest =>
    ⟨index, base, p⟩ :: numberFrom (index + 1) (base + p.right.length + 1) rest

def numbered (g : Grammar) : List Numbered :=
  numberFrom 0 0 g.productions

/-- Adds the items of one production that have a given symbol behind the dot. -/
def addBefore (symbol : Nat) : Nat → List Nat → Bits → Bits
  | _, [], bits => bits
  | item, x :: rest, bits =>
    addBefore symbol (item + 1) rest (if x = symbol then bits ||| Bits.one item else bits)

/-- The items that have a given symbol behind the dot. -/
def before (g : Grammar) (symbol : Nat) : Bits :=
  g.numbered.foldl (fun bits p => addBefore symbol p.base p.production.right bits) 0

/-- The items that have the dot in front of a production of a symbol. -/
def starting (g : Grammar) (symbol : Nat) : Bits :=
  g.numbered.foldl
    (fun bits p => if p.production.left = symbol then bits ||| Bits.one p.base else bits) 0

def nonterminals (g : Grammar) : List Nat :=
  (List.range g.symbols).filter (g.terminals ≤ ·)

/-- The terminal that ends the input. -/
def endOfInput (g : Grammar) : Nat :=
  g.terminals - 1

end Grammar

/-- Repeats a step until it changes nothing, a number of times at most. -/
def saturate {α : Type} [DecidableEq α] (step : α → α) : Nat → α → α
  | 0, a => a
  | n + 1, a =>
    let next := step a
    if next = a then a else saturate step n next

/-- Adds the productions of the symbols behind the dots. -/
def spread (before starting : Array Bits) (nonterminals : List Nat) (items : Bits) : Bits :=
  nonterminals.foldl
    (fun items a =>
      if items &&& before.getD a 0 = 0 then items else items ||| starting.getD a 0) items

end Scriptlet.Lr
