/-!
Sets of characters written as ascending lists of closed ranges of code points.
-/

namespace Scriptlet.Text

/-- Closed ranges of code points. -/
abbrev Ranges := List (Nat × Nat)

def Ranges.has (ranges : Ranges) (c : Char) : Bool :=
  ranges.any fun (low, high) => low ≤ c.toNat && c.toNat ≤ high

/-- Ranges by the lengths of runs: of code points that are left out and of code points that belong to the
set, in turn from a code point on. -/
def Ranges.ofRuns : Nat → List Nat → Ranges
  | start, out :: more :: rest =>
    (start + out, start + out + more - 1) :: ofRuns (start + out + more) rest
  | _, _ => []

end Scriptlet.Text
