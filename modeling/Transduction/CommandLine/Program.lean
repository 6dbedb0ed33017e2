/-
The command line program.

The program compiles literal rules into a rewriter and a bimachine, or loads a
saved bimachine, and rewrites the lines of a text.  A line that the machine
cannot process prints nothing.

Exit code 0 means success, 1 that something failed on the way, and 2 that the
arguments are not understood.
-/
import Transduction.Bimachine.Saved
import Transduction.CommandLine.Options
import Transduction.CommandLine.Script
import Transduction.Graphviz

namespace Transduction.CommandLine

/-- The text that names the program and its version. -/
def versionText : String := "rewrite-fst 0.1\n"

/-- The text that explains the options. -/
def helpText : String :=
  "Compile literal rewrite rules into a transducer and a bimachine, then rewrite text with them\n"
  ++ "\n"
  ++ "Usage: rewrite-fst [OPTIONS]\n"
  ++ "\n"
  ++ "Options:\n"
  ++ "  -r, --rule <FROM> <TO>\n"
  ++ "          Pair of a literal and its replacement. Repeat to add alternatives\n"
  ++ "  -a, --alphabet <SYMBOLS>\n"
  ++ "          Every symbol the input may contain. Defaults to printable ASCII with tab and newline\n"
  ++ "  -p, --policy <OBLIGATORY, OPTIONAL, LML>\n"
  ++ "          How competing matches are resolved [default: lml]\n"
  ++ "  -i, --input <INPUT FILE>\n"
  ++ "          File whose lines are rewritten. Standard input is read when absent\n"
  ++ "  -s, --save-bimachine <FILE>\n"
  ++ "          Save the compiled bimachine as json\n"
  ++ "  -l, --load-bimachine <FILE>\n"
  ++ "          Rewrite with a previously saved bimachine instead of compiling rules\n"
  ++ "  -d, --save-dot <PREFIX>\n"
  ++ "          Save the rewriter and the bimachine automata as Graphviz dot files\n"
  ++ "  -h, --help\n"
  ++ "          Print help\n"
  ++ "  -V, --version\n"
  ++ "          Print version\n"

/-- The printable ASCII characters, tab and newline. -/
def defaultAlphabet : List Char :=
  ['\t', '\n'] ++ (List.range 95).map fun i => Char.ofNat (' '.toNat + i)

/-- The policy of a name, in capital or small letters. -/
def policyOfName? (name : String) : Option Policy :=
  [("obligatory", Policy.obligatory), ("optional", .optional), ("lml", .leftmostLongest)].findSome?
    fun (word, policy) =>
      if name.toList.map Char.toLower = word.toList then some policy else none

/-- The union of the literal rules from left to right; none without rules. -/
def ruleOfPairs : List (String × String) → Option Transducer
  | [] => none
  | (source, target) :: pairs =>
    some (pairs.foldl
      (fun rule (source, target) =>
        rule.union (Transducer.ofWordPair source.toList target.toList))
      (Transducer.ofWordPair source.toList target.toList))

/-- The lines of a text.  A line ends with a newline, or with a carriage return
and a newline; behind the last line there may be none. -/
def lines (text : List Char) : List (List Char) :=
  let strip (line : List Char) : List Char :=
    if line.getLast? = some '\r' then line.dropLast else line
  match text.splitOn '\n' with
  | [] => []
  | parts =>
    parts.dropLast.map strip
      ++ (match parts.getLast? with
        | some [] | none => []
        | some line => [line])

namespace Script

/-- Ends with the exit code of a failure. -/
def fail {α : Type} : Script α := .exit 1

/-- The file at a path, which must be there. -/
def fileText (path : String) : Script String :=
  .readFile path fun
    | none => fail
    | some text => .done text

/-- The lines of the named file, or of the input. -/
def inputLines (path : Option String) : Script (List (List Char)) := do
  let text ← match path with
    | some path => fileText path
    | none => .readInput .done
  return lines text.toList

/-- Writes a file, and notes that it is there. -/
def saveFile (path text : String) (n : Note) : Script Unit :=
  .writeFile path text fun written => if written then .note n (.done ()) else fail

/-- Writes a drawing under a name that ends in `.dot`. -/
def saveDrawing (path : String) (g : Drawing) : Script Unit :=
  saveFile (path ++ ".dot") g.render (.drawingSaved (path ++ ".dot"))

/-- Writes a bimachine. -/
def saveBimachine (path : String) (b : Bimachine) : Script Unit :=
  saveFile path b.save (.bimachineSaved path)

/-- Reads a saved bimachine. -/
def loadBimachine (path : String) : Script Bimachine := do
  match Bimachine.load (← fileText path) with
  | .ok b => return b
  | .error _ => fail

/-- Draws both automata of a bimachine, if a name for the drawings is given. -/
def drawBimachine (drawing : Option String) (b : Bimachine) : Script Unit := do
  match drawing with
  | none => return
  | some path =>
    saveDrawing (path ++ "_left") (.ofDfa b.left)
    saveDrawing (path ++ "_right") (.ofDfa b.right)

/-- Prints one line. -/
def printLine (line : List Char) : Script Unit :=
  .print (String.ofList (line ++ ['\n'])) (.done ())

/-- Prints what a bimachine makes of each line in its domain. -/
def rewriteLines (b : Bimachine) : List (List Char) → Script Unit
  | [] => return
  | line :: rest => do
    match b.process line with
    | .ok w => printLine w
    | .error _ => pure ()
    rewriteLines b rest

/-- Prints all that a transducer makes of each line. -/
def rewriteAll (m : Transducer) : List (List Char) → Script Unit
  | [] => return
  | line :: rest => do
    match m.process line with
    | .ok ws => ws.forM printLine
    | .error _ => fail
    rewriteAll m rest

/-- Rewrites lines with a saved bimachine. -/
def rewriteSaved (o : Options) (path : String) : Script Unit := do
  let b ← loadBimachine path
  drawBimachine o.drawing b
  rewriteLines b (← inputLines o.input)

/-- Compiles rules and rewrites lines with them. -/
def rewriteCompiled (o : Options) : Script Unit := do
  let some rule := ruleOfPairs o.rules | fail
  let alphabet := (o.alphabet.map (·.toList)).getD defaultAlphabet
  let some policy := policyOfName? (o.policy.getD "lml") | fail
  let cascade : Cascade :=
    { alphabet := alphabet, stages := [{ name := "rules", rule := rule, policy := policy }] }
  let rewriter ← ofLogged (Logged.cascadeTransducer cascade)
  if let some path := o.drawing then saveDrawing (path ++ "_rewriter") (.ofTransducer rewriter)
  -- with the optional policy a text has several outputs, so there is no bimachine
  if policy = .optional then
    rewriteAll rewriter (← inputLines o.input)
  else
    match ← ofLogged (Logged.toBimachine rewriter alphabet) with
    | .error _ => fail
    | .ok b =>
      note (.build (.built b.left.size b.right.size)) (.done ())
      drawBimachine o.drawing b
      if let some path := o.save then saveBimachine path b
      rewriteLines b (← inputLines o.input)

/-- The program for a list of arguments. -/
def program (args : List String) : Script Unit :=
  match Options.parse args with
  | .error .help => .print helpText (.done ())
  | .error .version => .print versionText (.done ())
  | .error .invalid => .exit 2
  | .ok o =>
    match o.load with
    | some path => rewriteSaved o path
    | none => rewriteCompiled o

end Script

end Transduction.CommandLine
