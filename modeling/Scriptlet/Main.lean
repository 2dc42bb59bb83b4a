import Scriptlet.CommandLine.Run

/-!
The command line: reads arguments and files, and carries out what is reported.
-/

namespace Scriptlet.CommandLine

/-- More rounds than a loop will ever take. -/
def endlessFuel : Nat := 1000000000000000

def look (path : String) : IO Found := do
  try
    return .text (← IO.FS.readFile path)
  catch
    | .noFileOrDirectory .. => return .nothing
    | _ => return .directory

/-- Reads a stream to its end. -/
partial def readAll (stream : IO.FS.Stream) (done : String) : IO String := do
  let line ← stream.getLine
  if line.isEmpty then return done else readAll stream (done ++ line)

def crashMessage : Crash → String
  | .isDirectory => "is a directory"
  | .badJson _ => "not a JSON file"
  | .badNumber _ => "a number has too many digits"
  | .treeTooDeep => "the program nests too deeply"
  | .fault f => f.message
  | .noFuel => "the program does not end"

/-- Prints what was written, writes files and gives the exit code. -/
def carryOut (r : Report) : IO UInt32 := do
  IO.print r.output
  IO.eprint r.errors
  for (path, text) in r.files do
    IO.FS.writeFile path text
  match r.exit with
  | .code n => return n.toUInt32
  | .crash c =>
    IO.eprintln (crashMessage c)
    return 1
  | .untold =>
    IO.eprintln "a text has half of a surrogate pair on its own"
    return 1

end Scriptlet.CommandLine

open Scriptlet.CommandLine in
def main (args : List String) : IO UInt32 := do
  match readArgs args with
  | .error e => carryOut (usage e)
  | .ok .help =>
    IO.print helpText
    return 0
  | .ok (.run o) =>
    match o.task with
    | .error e => carryOut (usage e)
    | .ok task =>
      let found ← look task.path
      let start := (← IO.monoMsNow).toFloat
      -- Each reading of the clock is a little later than the one before it.
      let clock (n : Nat) := (start + n.toFloat) / 1000.0
      let setting : Setting := { fuel := endlessFuel, clock }
      -- A run that asks for input starts again with all of it.
      let (report, asked) := performFound o setting task found
      if asked then
        let input ← readAll (← IO.getStdin) ""
        carryOut (performFound o { setting with input } task found).1
      else carryOut report
