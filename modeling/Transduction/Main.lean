/-
The executable: runs the command line program on files and standard streams.

Notes of level `info` and above go to the error stream.
-/
import Transduction.CommandLine.Program

namespace Transduction.CommandLine

/-- Performs a script and returns its exit code. -/
def perform : Script Unit → IO UInt32
  | .done _ => return 0
  | .exit code => return code.toUInt32
  | .print text next => do
    IO.print text
    perform next
  | .note n next => do
    if n.level ≠ .debug then IO.eprintln n.line
    perform next
  | .readFile path next => do
    let text ← try some <$> IO.FS.readFile path catch _ => pure none
    perform (next text)
  | .writeFile path text next => do
    let written ← try IO.FS.writeFile path text; pure true catch _ => pure false
    perform (next written)
  | .readInput next => do
    let text ← (← IO.getStdin).readToEnd
    perform (next text)

end Transduction.CommandLine

def main (args : List String) : IO UInt32 :=
  Transduction.CommandLine.perform (Transduction.CommandLine.Script.program args)
