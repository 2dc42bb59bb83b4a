import Scriptlet.Lr.Follow

/-!
Shift-reduce parsing. A state is a set of items: what the parser may be in the middle of. A terminal
is shifted if it stands behind the dot of an item; else a production whose item is complete is
reduced, provided that the terminal can follow its left side. The stack holds the states passed and
what was made of the text read.
-/

namespace Scriptlet.Lr

/-- A grammar with its sets of items and terminals, worked out once. -/
structure Tables where
  grammar : Grammar
  before : Array Bits
  starting : Array Bits
  follow : TerminalSets
  numbered : List Numbered

namespace Tables

def ofGrammar (g : Grammar) : Tables :=
  let before := ((List.range g.symbols).map g.before).toArray
  let starting := ((List.range g.symbols).map g.starting).toArray
  let step := spread before starting g.nonterminals
  { grammar := g
    before
    starting := starting.map (saturate step g.symbols)
    follow := g.follow
    numbered := g.numbered }

/-- The state before anything is read. -/
def start (tables : Tables) : Bits :=
  spread tables.before tables.starting tables.grammar.nonterminals (Bits.one 0)

/-- The state after a symbol; empty if the symbol cannot come next. -/
def next (tables : Tables) (state : Bits) (symbol : Nat) : Bits :=
  spread tables.before tables.starting tables.grammar.nonterminals
    ((state &&& tables.before.getD symbol 0) <<< 1)

/-- What to do with a terminal in a state. -/
inductive Action where
  | shift (state : Bits)
  | reduce (p : Numbered)
  | accept
deriving DecidableEq, Repr

/-- Whether a state has completed a production that a terminal can follow. -/
def completes (tables : Tables) (state : Bits) (terminal : Nat) (p : Numbered) : Bool :=
  Bits.has state p.complete && Bits.has (tables.follow.getD p.production.left 0) terminal

/-- The action on a terminal; production zero accepts. -/
def action? (tables : Tables) (state : Bits) (terminal : Nat) : Option Action :=
  if state &&& tables.before.getD terminal 0 ≠ 0 then some (.shift (tables.next state terminal))
  else
    match tables.numbered.find? (tables.completes state terminal) with
    | none => none
    | some p => if p.index = 0 then some .accept else some (.reduce p)

/-- The terminals that have an action. -/
def expected (tables : Tables) (state : Bits) : List Nat :=
  (List.range tables.grammar.terminals).filter fun t => (tables.action? state t).isSome

end Tables

/-- What to make of tokens and of productions, given what was made of their parts. -/
structure Meaning (α β : Type) where
  leaf : α → β
  node : Nat → List β → β

/-- States with what was made of the text that led to them, the last first. -/
abbrev Stack (β : Type) := List (Bits × β)

namespace Stack

variable {α β : Type}

/-- The state on top. -/
def top (tables : Tables) : Stack β → Bits
  | [] => tables.start
  | (state, _) :: _ => state

/-- Replaces the right side of a production on top of the stack by its left side. -/
def reduce (tables : Tables) (meaning : Meaning α β) (p : Numbered) (stack : Stack β) : Stack β :=
  let n := p.production.right.length
  let below : Stack β := stack.drop n
  (tables.next (below.top tables) p.production.left,
    meaning.node p.index ((stack.take n).reverse.map (·.2))) :: below

end Stack

/-- What became of a token: it was shifted, or it ended the parse, or the state on top has no action
for it. -/
inductive Feed (β : Type) where
  | shifted (stack : Stack β)
  | accepted (result : β)
  | rejected (state : Bits)

/-- Offers a token; the bound is on the reductions. -/
def feed {α β : Type} (tables : Tables) (meaning : Meaning α β) (terminal : Nat) (a : α) :
    Nat → Stack β → Feed β
  | 0, stack => .rejected (stack.top tables)
  | bound + 1, stack =>
    match tables.action? (stack.top tables) terminal with
    | none => .rejected (stack.top tables)
    | some (.shift state) => .shifted ((state, meaning.leaf a) :: stack)
    | some (.reduce p) => feed tables meaning terminal a bound (stack.reduce tables meaning p)
    | some .accept =>
      match stack with
      | (_, result) :: _ => .accepted result
      | [] => .rejected tables.start

/-- The outcome of parsing a list of tokens. -/
inductive Result (α β : Type) where
  | accepted (result : β)
  /-- A token without an action, and the state that has none. -/
  | rejected (a : α) (state : Bits)
  /-- The tokens ended before the parse did. -/
  | unfinished

/-- Parses tokens from a stack on. -/
def run {α β : Type} (tables : Tables) (meaning : Meaning α β) (terminal : α → Nat) (bound : Nat) :
    Stack β → List α → Result α β
  | _, [] => .unfinished
  | stack, a :: rest =>
    match feed tables meaning (terminal a) a bound stack with
    | .shifted next => run tables meaning terminal bound next rest
    | .accepted result => .accepted result
    | .rejected state => .rejected a state

end Scriptlet.Lr
