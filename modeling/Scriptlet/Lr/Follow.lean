import Scriptlet.Lr.Items

/-!
What the texts of a symbol can start with, and what can follow them, as sets of terminals.
-/

namespace Scriptlet.Lr

/-- For each symbol a set of terminals. -/
abbrev TerminalSets := Array Bits

def TerminalSets.add (sets : TerminalSets) (symbol : Nat) (bits : Bits) : TerminalSets :=
  sets.modify symbol (· ||| bits)

namespace Grammar

/-- A terminal starts with itself. -/
def firstOfTerminals (g : Grammar) : TerminalSets :=
  ((List.range g.symbols).map fun x => if x < g.terminals then Bits.one x else 0).toArray

/-- A left side starts with what its right side starts with. -/
def firstStep (g : Grammar) (sets : TerminalSets) : TerminalSets :=
  g.productions.foldl
    (fun sets p =>
      match p.right with
      | x :: _ => sets.add p.left (sets.getD x 0)
      | [] => sets)
    sets

def first (g : Grammar) : TerminalSets :=
  saturate (firstStep g) g.symbols (firstOfTerminals g)

/-- Inside a right side a symbol is followed by what the next symbol starts with, and at its end by
what follows the left side. -/
def followRight (first : TerminalSets) (left : Nat) : List Nat → TerminalSets → TerminalSets
  | [], sets => sets
  | [x], sets => sets.add x (sets.getD left 0)
  | x :: y :: rest, sets => followRight first left (y :: rest) (sets.add x (first.getD y 0))

def followStep (g : Grammar) (first sets : TerminalSets) : TerminalSets :=
  g.productions.foldl (fun sets p => followRight first p.left p.right sets) sets

/-- The end of input follows the whole text. -/
def followOfRoot (g : Grammar) : TerminalSets :=
  TerminalSets.add (Array.replicate g.symbols 0) ((g.productions.head?.map (·.left)).getD 0)
    (Bits.one g.endOfInput)

def follow (g : Grammar) : TerminalSets :=
  saturate (followStep g g.first) g.symbols (followOfRoot g)

end Grammar

end Scriptlet.Lr
