/-!
Messages of tracing, and the file that they are written to. The file is opened for the first message of
a run and closed at the end of the run. Only the first time does it lose what stood in it.
-/

namespace Scriptlet

/-- What a message is about. -/
inductive Topic where
  | call | declaration | condition
deriving DecidableEq, Repr

/-- The level of tracing from which on there are messages about it. -/
def Topic.level : Topic → Int
  | .call => 1
  | .declaration => 2
  | .condition => 3

structure Message where
  topic : Topic
  text : String
deriving DecidableEq, Repr

structure TraceFile where
  /-- The text in the file, if there is one. -/
  content : Option String := none
  isOpen : Bool := false
  /-- Whether it was opened before. -/
  started : Bool := false
deriving DecidableEq, Repr

namespace TraceFile

/-- The file made ready for writing behind what it holds. -/
def opened (f : TraceFile) : TraceFile :=
  if f.isOpen then f
  else
    { content := some (if f.started then f.content.getD "" else "")
      isOpen := true
      started := true }

/-- Writes a message on a line of its own. -/
def write (f : TraceFile) (message : Message) : TraceFile :=
  let f := f.opened
  { f with content := some (f.content.getD "" ++ message.text ++ "\n") }

def closed (f : TraceFile) : TraceFile :=
  { f with isOpen := false }

end TraceFile

end Scriptlet
