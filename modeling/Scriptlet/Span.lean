/-!
Stretches of source text, counted in characters.
-/

namespace Scriptlet

structure Span where
  start : Nat
  stop : Nat
deriving DecidableEq, Repr, Inhabited

end Scriptlet
