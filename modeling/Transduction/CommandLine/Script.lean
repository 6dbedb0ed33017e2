/-
Scripts: programs that read and write texts.

A script is a tree of actions, each with what to do next for every answer.  It
can be run on any store of files and an input text, which is what theorems are
about, and just as well by an operating system.

* `Script.run` — runs a script on a store of files and an input;
* `Outcome` — the exit code, what was printed, the notes made and the files
  that are left.
-/
import Transduction.Folder
import Transduction.Log

namespace Transduction.CommandLine

/-- A program that reads and writes texts. -/
inductive Script (α : Type) where
  | done (a : α)
  /-- Ends with an exit code. -/
  | exit (code : Nat)
  /-- Prints a text. -/
  | print (text : String) (next : Script α)
  /-- Makes a note. -/
  | note (n : Note) (next : Script α)
  /-- Reads a file; there may be none. -/
  | readFile (path : String) (next : Option String → Script α)
  /-- Writes a file, and learns whether that succeeded. -/
  | writeFile (path text : String) (next : Bool → Script α)
  /-- Reads the input to its end. -/
  | readInput (next : String → Script α)

namespace Script

variable {α β : Type}

def bind : Script α → (α → Script β) → Script β
  | done a, f => f a
  | exit code, _ => .exit code
  | print text next, f => .print text (next.bind f)
  | note n next, f => .note n (next.bind f)
  | readFile path next, f => .readFile path fun answer => (next answer).bind f
  | writeFile path text next, f => .writeFile path text fun answer => (next answer).bind f
  | readInput next, f => .readInput fun answer => (next answer).bind f

instance : Monad Script where
  pure := .done
  bind := bind

/-- Makes the notes of a logged value and goes on with the value. -/
def ofLogged (x : Logged α) : Script α := x.notes.foldr .note (.done x.value)

end Script

/-- What a script leaves behind. -/
structure Outcome (σ : Type) where
  code : Nat := 0
  /-- The printed texts, the last one first. -/
  printed : List String := []
  /-- The notes, the last one first. -/
  notes : List Note := []
  /-- The files that are left, in the folder or whatever else holds them. -/
  folder : σ

namespace Outcome

/-- Everything that was printed, as one text. -/
def output {σ : Type} (o : Outcome σ) : String := String.join o.printed.reverse

end Outcome

namespace Script

variable {σ : Type} [FileStore σ]

/-- Runs a script on an outcome so far.  The input can be read once and is empty
afterwards. -/
def runFrom (input : String) (o : Outcome σ) : Script Unit → Outcome σ
  | done _ => o
  | exit code => { o with code := code }
  | print text next => runFrom input { o with printed := text :: o.printed } next
  | note n next => runFrom input { o with notes := n :: o.notes } next
  | readFile path next => runFrom input o (next (FileStore.read? o.folder path))
  | writeFile path text next =>
    match FileStore.write? o.folder path text with
    | none => runFrom input o (next false)
    | some folder => runFrom input { o with folder := folder } (next true)
  | readInput next => runFrom "" o (next input)

/-- Runs a script on a store of files and an input. -/
def run (script : Script Unit) (folder : σ) (input : String) : Outcome σ :=
  script.runFrom input { folder := folder }

end Script

end Transduction.CommandLine
