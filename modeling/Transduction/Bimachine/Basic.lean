/-
Bimachines.

A bimachine evaluates a function on words in two linear scans: a left automaton
reads the word forward, a right automaton reads it backward, and a table gives
for each symbol the output that belongs to the left state in front of it and
the right state behind it.

Nothing forces the parts to agree.  A word is outside the domain where either
automaton has no move, where the right automaton does not accept, or where the
table has no entry; the error carries a position in the word.
-/
import Transduction.Dfa.Basic

namespace Transduction

/-- Output words by left state, symbol and right state, ascending by these. -/
abbrev OutputTable := List ((Nat × Char × Nat) × Word)

namespace OutputTable

/-- The table of a list of entries, of which the last of a repeated key counts. -/
def ofEntries (entries : List ((Nat × Char × Nat) × Word)) : OutputTable :=
  (Std.TreeMap.ofList entries compare : Std.TreeMap (Nat × Char × Nat) Word).toList

/-- The output of a left state, a symbol and a right state. -/
def output? (table : OutputTable) (left : Nat) (c : Char) (right : Nat) : Option Word :=
  table.lookup (left, c, right)

end OutputTable

/-- Why a bimachine gives no output for a word. -/
inductive BimachineError where
  /-- The word cannot be read past the symbol at the position. -/
  | outsideDomain (position : Nat)
deriving DecidableEq, Repr

def BimachineError.message : BimachineError → String
  | outsideDomain p => s!"Error: The input leaves the domain of the bimachine at position {p}!"

/-- Two automata, one for either reading direction, and the table of outputs. -/
structure Bimachine where
  left : Dfa
  right : Dfa
  table : OutputTable
deriving DecidableEq, Repr

namespace Bimachine

/-- The outputs along a word, where each symbol comes with the left state in
front of it and the right state behind it; `position` is that of the first. -/
def outputs (b : Bimachine) (position : Nat) : List (Nat × Char × Nat) →
    Except BimachineError Word
  | [] => .ok []
  | (l, c, r) :: rest =>
    match b.table.output? l c r with
    | none => .error (.outsideDomain position)
    | some w => (b.outputs (position + 1) rest).map fun v => w ++ v

/-- The output for a word.  The left scan is checked first, then the right scan,
then the table from left to right. -/
def process (b : Bimachine) (w : Word) : Except BimachineError Word :=
  let (_, leftPath) := b.left.forwardTrace w
  let (accepted, rightPath) := b.right.backwardTrace w
  if leftPath.length ≤ w.length then .error (.outsideDomain (leftPath.length - 1))
  else if rightPath.length ≤ w.length then .error (.outsideDomain (w.length - rightPath.length))
  -- both scans reach the end from here on
  else if !accepted then .error (.outsideDomain 0)
  else b.outputs 0 (leftPath.zip (w.zip rightPath.reverse.tail))

end Bimachine

end Transduction
