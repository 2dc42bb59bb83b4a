/-!
How deep things may nest. Parsing, printing, running and reading of trees all stop with an error
beyond the limit.
-/

namespace Scriptlet

def nestingLimit : Nat := 1000

end Scriptlet
