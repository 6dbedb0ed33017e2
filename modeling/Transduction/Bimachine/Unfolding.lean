/-
The transducer of a bimachine.

A state pairs a left state with the right state of the suffix that is still to
be read, so a run guesses the suffix and the moves check the guess.  A word of
the domain has exactly one successful run, since both scans are deterministic.
-/
import Transduction.Bimachine.Basic
import Transduction.Transducer.Composition

namespace Transduction.Bimachine

/-- The states of an automaton that have a move on a symbol into a state, for
all symbols listed, in ascending order. -/
def sources (d : Dfa) (symbols : List Char) : Std.TreeMap (Nat × Char) (List Nat) :=
  (List.range d.size).foldr
    (fun q found => symbols.foldl (fun found c =>
      match d.delta q c with
      | none => found
      | some t => found.insert (t, c) (q :: (found[(t, c)]?).getD [])) found)
    ∅

/-- The transducer of the same function. -/
def toTransducer (b : Bimachine) : Transducer :=
  let symbols := b.right.alphabet
  let before := sources b.right symbols
  let table : Std.TreeMap (Nat × Char × Nat) Word := Std.TreeMap.ofList b.table
  let moves (pair : Nat × Nat) : List ((Option Char × Word) × Nat × Nat) :=
    symbols.flatMap fun c =>
      match b.left.delta pair.1 c with
      | none => []
      | some l => ((before[(pair.2, c)]?).getD []).filterMap fun r =>
        (table[(pair.1, c, r)]?).map fun w => ((some c, w), l, r)
  let initial (pair : Nat × Nat) : Bool :=
    pair.1 == b.left.start && b.right.isAccepting pair.2 && pair.2 < b.right.size
  let roots := ((List.range b.right.size).filter b.right.isAccepting).map fun r =>
    (b.left.start, r)
  -- left states met are the start state and targets of moves
  (Machine.explored id moves ((b.left.moveCount + 1) * b.right.size) roots initial
    fun pair => pair.2 == b.right.start).trim

end Transduction.Bimachine
