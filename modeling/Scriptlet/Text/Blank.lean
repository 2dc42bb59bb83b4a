import Scriptlet.Text.Range

/-!
Blank characters: the separators of all scripts, and the control characters that act as separators.
-/

namespace Scriptlet.Text

def blankRanges : Ranges :=
  [(9,13),(28,32),(133,133),(160,160),(5760,5760),(8192,8202),(8232,8233),(8239,8239),(8287,8287),
   (12288,12288)]

/-- Holds of blanks, among them the no-break space; the zero-width space is not one. -/
def isBlank (c : Char) : Bool :=
  blankRanges.has c

end Scriptlet.Text
